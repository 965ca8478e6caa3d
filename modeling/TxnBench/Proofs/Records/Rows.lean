import TxnBench.Proofs.Reports
import TxnBench.Proofs.Text.Numerals
import TxnBench.Records

/-!
# The rows of a record file

A record file is a table: a line for each row, cut into fields at its commas. No field of a row has a character in it that would
cut it, end the line or have to be quoted (`isPlain_of_mem_fields`), so the table is got back from the text (`table_of_lines`),
and what is in a row is got back from its fields (`Entry.read_fields`).
-/

namespace TxnBench.Records

/-- What a line is about: a run of a configuration, with its report. -/
structure Entry where
  config : Config
  run : UInt64
  report : Report
  /-- The size expected is a signed word, as it is in every report (`Report.signed_of_aggregate`). -/
  signed : -2 ^ 63 ≤ report.expected ∧ report.expected < 2 ^ 63

/-- The fields of an entry. -/
def Entry.fields (e : Entry) : List String :=
  Records.fields e.config e.run e.report

/-- What the first twelve fields of a line say. -/
structure Row where
  collection : CollectionKind
  threads : UInt64
  tasks : UInt64
  perTxn : UInt64
  inserts : UInt8
  removes : UInt8
  run : UInt64
  succeeded : UInt64
  failed : UInt64
  aborted : UInt64
  expected : Int
  actual : UInt64
  deriving DecidableEq, Repr

/-- What is said about an entry. -/
def Entry.row (e : Entry) : Row where
  collection := e.config.collection
  threads := e.config.params.threads
  tasks := e.config.params.tasks
  perTxn := e.config.params.perTxn
  inserts := e.config.params.inserts
  removes := e.config.params.removes
  run := e.run
  succeeded := e.report.total.succeeded
  failed := e.report.total.failed
  aborted := e.report.total.aborted
  expected := e.report.expected
  actual := e.report.actual

/-- Reads an 8-bit word. -/
def readByte (text : String) : Except Numeral.Error UInt8 :=
  UInt8.ofNat <$> Numeral.readNat (2 ^ 8 - 1) text.toList

/-- Reads the name of a collection. -/
def readName (text : String) : Except Numeral.Error CollectionKind :=
  match CollectionKind.all.find? fun kind => kind.name = text with
  | some kind => .ok kind
  | none => .error .invalidDigit

/-- Reads the fields of a line, but for the last, which is a time. -/
def Row.read : List String → Option Row
  | [name, threads, tasks, perTxn, inserts, removes, run, succeeded, failed, aborted, expected, actual, _] =>
    Except.toOption do
      return {
        collection := ← readName name
        threads := ← Numeral.readWord threads
        tasks := ← Numeral.readWord tasks
        perTxn := ← Numeral.readWord perTxn
        inserts := ← readByte inserts
        removes := ← readByte removes
        run := ← Numeral.readWord run
        succeeded := ← Numeral.readWord succeeded
        failed := ← Numeral.readWord failed
        aborted := ← Numeral.readWord aborted
        expected := ← Numeral.readSigned expected
        actual := ← Numeral.readWord actual }
  | _ => none

/-- The rows of a text each of whose lines has an end, cut into fields. -/
def table (text : String) : List (List String) :=
  (Text.cut '\n' text.toList).dropLast.map fun line => (Text.cut ',' line).map String.ofList

/-- Whether a field has to stand in quotes: if there is a comma, a quote or a line break in it. -/
def NeedsQuotes (field : String) : Prop :=
  ∃ c ∈ field.toList, c = ',' ∨ c = '\x22' ∨ c = '\n' ∨ c = '\r'

/-! ## What stands in a field -/

/-- The names of the fields are plain. -/
theorem isPlain_of_mem_header : ∀ name ∈ header, ∀ c ∈ name.toList, Text.isPlain c = true := by
  have hall : (header.all fun name => name.toList.all Text.isPlain) = true := by decide +kernel
  intro name hname
  exact List.all_eq_true.mp (List.all_eq_true.mp hall name hname)

/-- The fields of a run are plain, whatever they say. -/
theorem isPlain_of_mem_fields (c : Config) (run : UInt64) (r : Report) :
    ∀ field ∈ fields c run r, ∀ ch ∈ field.toList, Text.isPlain ch = true := by
  have hname : ∀ ch ∈ c.collection.name.toList, Text.isPlain ch = true := by
    have hall : c.collection.name.toList.all Text.isPlain = true := by cases c.collection <;> decide +kernel
    exact List.all_eq_true.mp hall
  have hword : ∀ (n : UInt64), ∀ ch ∈ (toString n.toNat).toList, Text.isPlain ch = true :=
    fun n ch => Text.isPlain_of_mem_toString_nat
  have hbyte : ∀ (n : UInt8), ∀ ch ∈ (toString n.toNat).toList, Text.isPlain ch = true :=
    fun n ch => Text.isPlain_of_mem_toString_nat
  simp only [fields, List.forall_mem_cons]
  refine ⟨hname, hword _, hword _, hword _, hbyte _, hbyte _, hword _, hword _, hword _, hword _, ?_, hword _, ?_, nofun⟩
  · exact fun ch => Text.isPlain_of_mem_toString_int
  · exact fun ch => Decimal.isPlain_of_mem_text

/-- Plain text does not have to be quoted. -/
theorem not_needsQuotes_of_isPlain {field : String} (h : ∀ c ∈ field.toList, Text.isPlain c = true) : ¬NeedsQuotes field := by
  rintro ⟨c, hc, hsign⟩
  have hplain := h c hc
  rcases hsign with rfl | rfl | rfl | rfl <;> cases hplain

/-! ## The table of a text -/

/-- The characters of a line but for its end. -/
def body (row : List String) : List Char :=
  [','].intercalate (row.map String.toList)

theorem toList_line (row : List String) : (line row).toList = body row ++ ['\n'] := by
  rw [line, String.toList_append, String.toList_intercalate]
  rfl

/-- The fields of a line are got back by cutting it. -/
theorem cut_body {row : List String} (hne : row ≠ [])
    (hplain : ∀ field ∈ row, ∀ c ∈ field.toList, Text.isPlain c = true) :
    (Text.cut ',' (body row)).map String.ofList = row := by
  have hcomma : ∀ field ∈ row.map String.toList, ',' ∉ field := by
    intro field hfield hc
    obtain ⟨text, htext, rfl⟩ := List.mem_map.mp hfield
    cases hplain text htext ',' hc
  rw [body, Text.cut_intercalate (by simpa using hne) hcomma, List.map_map]
  have hid : String.ofList ∘ String.toList = id := funext fun _ => String.ofList_toList
  rw [hid, List.map_id]

/-- The table of lines of plain fields is the table of these fields. -/
theorem table_of_lines {rows : List (List String)} (hne : ∀ row ∈ rows, row ≠ [])
    (hplain : ∀ row ∈ rows, ∀ field ∈ row, ∀ c ∈ field.toList, Text.isPlain c = true) :
    table (String.join (rows.map line)) = rows := by
  have htext : (String.join (rows.map line)).toList = (rows.map body).flatMap (· ++ ['\n']) := by
    simp only [String.toList_join, List.flatMap_map, toList_line]
  have hbreak : ∀ piece ∈ rows.map body, '\n' ∉ piece := by
    intro piece hpiece hc
    obtain ⟨row, hrow, rfl⟩ := List.mem_map.mp hpiece
    obtain hcomma | ⟨field, hfield, hc⟩ := Text.mem_of_mem_intercalate hc
    · cases hcomma
    · obtain ⟨text, htext, rfl⟩ := List.mem_map.mp hfield
      cases hplain row hrow text htext '\n' hc
  rw [table, htext, Text.cut_flatMap hbreak, List.dropLast_concat, List.map_map]
  refine (List.map_congr_left fun row hrow => ?_).trans (List.map_id rows)
  exact cut_body (hne row hrow) (hplain row hrow)

variable (entries : List Entry)

/-- Every row has a field for each name. -/
theorem length_of_mem_rows : ∀ row ∈ header :: entries.map Entry.fields, row.length = 13 := by
  refine List.forall_mem_cons.mpr ⟨rfl, ?_⟩
  intro row hrow
  obtain ⟨e, -, rfl⟩ := List.mem_map.mp hrow
  rfl

theorem isPlain_of_mem_rows :
    ∀ row ∈ header :: entries.map Entry.fields, ∀ field ∈ row, ∀ c ∈ field.toList, Text.isPlain c = true := by
  refine List.forall_mem_cons.mpr ⟨isPlain_of_mem_header, ?_⟩
  intro row hrow
  obtain ⟨e, -, rfl⟩ := List.mem_map.mp hrow
  exact isPlain_of_mem_fields e.config e.run e.report

/-- The table of a record file has the names of the fields in its first row and the entries in the others. -/
theorem table_of_entries :
    table (line header ++ String.join (entries.map fun e => line e.fields)) = header :: entries.map Entry.fields := by
  have hne : ∀ row ∈ header :: entries.map Entry.fields, row ≠ [] := fun row hrow =>
    List.ne_nil_of_length_pos (by rw [length_of_mem_rows entries row hrow]; decide)
  have htable := table_of_lines hne (isPlain_of_mem_rows entries)
  rw [List.map_cons, String.join_cons, List.map_map] at htable
  exact htable

/-! ## Reading a row -/

theorem readByte_toString (n : UInt8) : readByte (toString n.toNat) = .ok n := by
  have hn := n.toNat_lt
  rw [readByte, Nat.toString_eq_repr, Nat.toList_repr, Numeral.readNat_toDigits (by omega)]
  exact congrArg Except.ok (UInt8.ofNat_toNat)

theorem readName_name (kind : CollectionKind) : readName kind.name = .ok kind := by
  cases kind <;> rfl

/-- What is in an entry is got back from its fields. -/
theorem Entry.read_fields (e : Entry) : Row.read e.fields = some e.row := by
  simp only [Entry.fields, Records.fields, Row.read, readName_name, Numeral.readWord_toString, readByte_toString,
    Numeral.readSigned_toString e.signed.1 e.signed.2]
  rfl

end TxnBench.Records
