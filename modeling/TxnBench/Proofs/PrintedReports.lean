import Mathlib.Data.List.Forall2
import Std.Data.String.ToInt
import TxnBench.Bench.Report
import TxnBench.Proofs.Text.Numerals
import TxnBench.Text.Cut

/-!
# What a printed report tells

Two reports have the same text exactly if they agree on every figure that is printed (`Report.text_eq_iff`). A text is cut into its
lines again, since no line of it holds a line break. The lines are one at the front, six for each worker and seven at the end, so
their number tells how many workers there are, and each line then stands for one figure, whose digits tell it.
-/

namespace TxnBench

/-! ## Lines and figures -/

namespace Text

/-- Lines that hold no line break are told by the text they make up. -/
theorem intercalate_lines_inj {lines lines' : List String} (hne : lines ≠ []) (hne' : lines' ≠ [])
    (h : ∀ line ∈ lines, '\n' ∉ line.toList) (h' : ∀ line ∈ lines', '\n' ∉ line.toList) :
    "\n".intercalate lines = "\n".intercalate lines' ↔ lines = lines' := by
  have hcut : ∀ {l : List String}, l ≠ [] → (∀ line ∈ l, '\n' ∉ line.toList) →
      cut '\n' ("\n".intercalate l).toList = l.map String.toList := fun {l} hl hbreak => by
    rw [String.toList_intercalate]
    exact cut_intercalate (by simpa using hl) (by simpa using hbreak)
  constructor
  · intro htext
    have hlines := congrArg (fun text => cut '\n' text.toList) htext
    simp only [hcut hne h, hcut hne' h'] at hlines
    exact List.map_injective_iff.mpr (fun _ _ => String.toList_injective) hlines
  · intro hlines
    rw [hlines]

/-- A line with a plain figure after its label holds no line break if the label holds none. -/
theorem not_mem_labelled {label figure : String} (hlabel : '\n' ∉ label.toList)
    (hfigure : ∀ c ∈ figure.toList, isPlain c = true) : '\n' ∉ (label ++ figure).toList := by
  rw [String.toList_append, List.mem_append]
  rintro (h | h)
  · exact hlabel h
  · cases hfigure '\n' h

/-- The digits of a word tell it. -/
theorem toString_word_inj {a b : UInt64} : toString a.toNat = toString b.toNat ↔ a = b := by
  rw [Nat.toString_eq_repr, Nat.toString_eq_repr, Nat.repr_inj, UInt64.toNat_inj]

/-- The digits of a number, with its sign, tell it. -/
theorem toString_int_inj {a b : Int} : toString a = toString b ↔ a = b := by
  rw [Int.toString_eq_repr, Int.toString_eq_repr, Int.repr_inj]

end Text

open Text

/-! ## The lines of a worker -/

namespace Stats

/-- Whether two statistics agree on what is printed of them. -/
def PrintsLike (s s' : Stats) : Prop :=
  s.inserts = s'.inserts ∧ s.removes = s'.removes ∧ s.succeeded = s'.succeeded ∧ s.failed = s'.failed

theorem lines_eq_iff {s s' : Stats} : s.lines = s'.lines ↔ s.PrintsLike s' := by
  simp only [lines, List.cons.injEq, String.append_right_inj, toString_word_inj, and_true, PrintsLike]

theorem not_mem_lines (s : Stats) : ∀ line ∈ s.lines, '\n' ∉ line.toList := by
  simp only [lines, List.forall_mem_cons]
  refine ⟨?_, ?_, ?_, ?_, nofun⟩ <;> exact not_mem_labelled (by decide +kernel) fun _ => isPlain_of_mem_toString_nat

end Stats

namespace Report

theorem workerLines_eq_iff (i : Nat) {s s' : Stats} : workerLines i s = workerLines i s' ↔ s.PrintsLike s' := by
  rw [workerLines, workerLines, List.append_cancel_left_eq, Stats.lines_eq_iff]

/-- The lines of workers, one block after another, tell how many workers there are and what is printed of each, whatever the
numbers are that the blocks have. -/
theorem flatten_workerLines_eq_iff (number : Nat → Nat) {workers workers' : List Stats} :
    (workers.mapIdx fun i => workerLines (number i)).flatten = (workers'.mapIdx fun i => workerLines (number i)).flatten ↔
      List.Forall₂ Stats.PrintsLike workers workers' := by
  induction workers generalizing workers' number with
  | nil =>
    cases workers' with
    | nil => simp
    | cons s' rest' => simp [workerLines]
  | cons s rest ih =>
    cases workers' with
    | nil => simp [workerLines]
    | cons s' rest' =>
      rw [List.mapIdx_cons, List.mapIdx_cons, List.flatten_cons, List.flatten_cons, List.forall₂_cons, ← ih fun i => number (i + 1),
        ← workerLines_eq_iff (number 0)]
      exact ⟨fun h => List.append_inj h rfl, fun ⟨hfirst, hrest⟩ => by rw [hfirst, hrest]⟩

theorem not_mem_workerLines (i : Nat) (s : Stats) : ∀ line ∈ workerLines i s, '\n' ∉ line.toList := by
  simp only [workerLines, List.forall_mem_append, List.forall_mem_cons]
  exact ⟨⟨by decide, not_mem_labelled (by decide +kernel) fun _ => isPlain_of_mem_toString_nat, nofun⟩, s.not_mem_lines⟩

/-! ## The lines of a report -/

theorem not_mem_lines (r : Report) : ∀ line ∈ r.lines, '\n' ∉ line.toList := by
  have hword : ∀ {label : String} (n : UInt64), '\n' ∉ label.toList → '\n' ∉ (label ++ toString n.toNat).toList :=
    fun n h => not_mem_labelled h fun _ => isPlain_of_mem_toString_nat
  have hblocks : ∀ line ∈ (r.workers.mapIdx workerLines).flatten, '\n' ∉ line.toList := by
    intro line hline
    obtain ⟨block, hblock, hline⟩ := List.mem_flatten.mp hline
    obtain ⟨i, hi, rfl⟩ := List.mem_mapIdx.mp hblock
    exact not_mem_workerLines i _ line hline
  simp only [lines, List.forall_mem_append, List.forall_mem_cons]
  refine ⟨⟨⟨hword _ (by decide +kernel), nofun⟩, hblocks⟩, by decide, by decide +kernel, hword _ (by decide +kernel),
    hword _ (by decide +kernel), ?_, hword _ (by decide +kernel), ?_, nofun⟩
  · exact not_mem_labelled (by decide +kernel) fun _ => isPlain_of_mem_toString_int
  · exact not_mem_labelled (by decide +kernel) fun _ => Decimal.isPlain_of_mem_text

theorem lines_ne_nil (r : Report) : r.lines ≠ [] :=
  List.cons_ne_nil _ _

/-- A printed report tells what the benchmark found. Two reports have the same text exactly if they have the same entries before, as
many workers, of which each has the same insertions and removals and as many operations that succeeded and failed, the same totals of
operations, the same entries expected, be they fewer than none, and the same there are, and if their times are written alike. -/
theorem text_eq_iff (r r' : Report) :
    r.text = r'.text ↔
      r.initial = r'.initial ∧ List.Forall₂ Stats.PrintsLike r.workers r'.workers ∧
        r.total.succeeded = r'.total.succeeded ∧ r.total.failed = r'.total.failed ∧ r.expected = r'.expected ∧
        r.actual = r'.actual ∧ Decimal.text r.elapsed.seconds = Decimal.text r'.elapsed.seconds := by
  rw [text, text, intercalate_lines_inj r.lines_ne_nil r'.lines_ne_nil r.not_mem_lines r'.not_mem_lines]
  constructor
  · intro h
    -- The seven lines at the end are split off first, so the totals are never taken for one more worker.
    obtain ⟨hfront, hend⟩ := List.append_inj' h rfl
    obtain ⟨hfirst, hblocks⟩ := List.append_inj hfront rfl
    simp only [List.cons.injEq, String.append_right_inj, toString_word_inj, toString_int_inj, true_and, and_true] at hfirst hend
    exact ⟨hfirst, (flatten_workerLines_eq_iff id).mp hblocks, hend⟩
  · rintro ⟨hinitial, hworkers, hsucceeded, hfailed, hexpected, hactual, hseconds⟩
    have hblocks : (r.workers.mapIdx workerLines).flatten = (r'.workers.mapIdx workerLines).flatten :=
      (flatten_workerLines_eq_iff id).mpr hworkers
    rw [lines, lines, hinitial, hblocks, hsucceeded, hfailed, hexpected, hactual, hseconds]

/-- More entries were removed than there were. How many transactions there were is not printed, but the text is another if a digit is
in another line, if a worker is missing, or if the sign is. -/
theorem text_tells_digits_and_sign :
    let worker (inserts removes committed : UInt64) : Stats := { succeeded := 13, failed := 2, inserts, removes, committed }
    let report (workers : List Stats) (expected : Int) : Report := ⟨0, workers, { succeeded := 26, failed := 4 }, expected, 0, ⟨1, 5⟩⟩
    let r := report [worker 1 12 3, worker 1 12 4] (-22)
    r.text = (report [worker 1 12 13, worker 1 12 14] (-22)).text ∧
      r.text ≠ (report [worker 11 2 3, worker 1 12 4] (-22)).text ∧ r.text ≠ (report [worker 1 12 3] (-22)).text ∧
        r.text ≠ (report [worker 1 12 3, worker 1 12 4] 22).text := by
  intro worker report r
  refine ⟨?_, fun h => ?_, fun h => ?_, fun h => ?_⟩
  · rw [text_eq_iff]
    exact ⟨rfl, .cons ⟨rfl, rfl, rfl, rfl⟩ (.cons ⟨rfl, rfl, rfl, rfl⟩ .nil), rfl, rfl, rfl, rfl, rfl⟩
  · obtain ⟨-, hworkers, -⟩ := (text_eq_iff _ _).mp h
    exact absurd (List.forall₂_cons.mp hworkers).1.1 (by decide)
  · obtain ⟨-, hworkers, -⟩ := (text_eq_iff _ _).mp h
    exact absurd hworkers.length_eq (by decide)
  · obtain ⟨-, -, -, -, hexpected, -⟩ := (text_eq_iff _ _).mp h
    exact absurd hexpected (by decide)

end Report

end TxnBench
