import Mathlib.Data.List.Forall2
import TxnBench.CommandLine.Parse
import TxnBench.Proofs.Text.Numerals
import TxnBench.Proofs.Workload

/-!
# Command lines that spell a configuration

A configuration can be asked for by many command lines: the five numbers stand in their order, options stand anywhere among
them, each in one of three forms, numerals may begin with zeros or a plus sign, the name of a collection may be in any case,
and an option whose default is wanted may be left out (`Config.SpelledBy`). Every one of them is read as that configuration
(`Config.read_back`).

The proof follows the scan from piece to piece. A value is not read before the next argument begins, so what is kept is not
the scan itself but what it comes to when the argument that has begun is ended: the values of the pieces so far (`Config.after`).
-/

namespace TxnBench

/-! ## How a configuration is spelled -/

/-- How an option has its value. -/
inductive Form where
  /-- The value follows the letter. -/
  | attached
  /-- The value follows an equals sign after the letter. -/
  | equals
  /-- The value is the next text. -/
  | separate
  deriving DecidableEq, Repr

/-- A piece of a command line. -/
inductive Piece where
  /-- A value told by its place. -/
  | placed (text : String)
  | option (letter : Char) (form : Form) (text : String)
  deriving DecidableEq, Repr

namespace Piece

/-- The texts of a piece. -/
def texts : Piece → List String
  | .placed text => [text]
  | .option letter .attached text => [String.ofList ('-' :: letter :: text.toList)]
  | .option letter .equals text => [String.ofList ('-' :: letter :: '=' :: text.toList)]
  | .option letter .separate text => [String.ofList ['-', letter], text]

/-- The value of a piece that is told by its place. -/
def placed? : Piece → Option String
  | .placed text => some text
  | .option _ _ _ => none

/-- The letter of an option. -/
def letter? : Piece → Option Char
  | .placed _ => none
  | .option letter _ _ => some letter

end Piece

/-- The values told by their place. -/
def placedOf (pieces : List Piece) : List String :=
  pieces.filterMap Piece.placed?

/-- The letters of the options. -/
def lettersOf (pieces : List Piece) : List Char :=
  pieces.filterMap Piece.letter?

/-- Whether a text is a name with some of its letters made large. -/
def SameLetters (text name : String) : Prop :=
  List.Forall₂ (fun c d => c = d ∨ c = d.toUpper) text.toList name.toList

namespace Config

/-- The numbers told by their place. -/
def numbers (c : Config) : List Nat :=
  [c.params.threads.toNat, c.params.tasks.toNat, c.params.perTxn.toNat, c.params.inserts.toNat, c.params.removes.toNat]

/-- Whether the value of an option fits a configuration. -/
def Fits (c : Config) (text : String) : Char → Prop
  | 'd' => SameLetters text c.collection.name
  | 's' => ∃ seed, c.seed = some seed ∧ Numeral.IsNumeral text.toList seed.toNat
  | 'n' => Numeral.IsNumeral text.toList c.runs.toNat
  | _ => False

/-- Whether the pieces of a command line ask for a configuration. -/
structure SpelledBy (c : Config) (pieces : List Piece) : Prop where
  numbers : List.Forall₂ (fun n text => Numeral.IsNumeral text.toList n) c.numbers (placedOf pieces)
  options : ∀ {letter form text}, .option letter form text ∈ pieces → c.Fits text letter
  once : (lettersOf pieces).Nodup
  defaultCollection : 'd' ∉ lettersOf pieces → c.collection = .striped
  noSeed : 's' ∉ lettersOf pieces → c.seed = none
  oneRun : 'n' ∉ lettersOf pieces → c.runs = 1

end Config

section Pieces

variable (pieces : List Piece) (letter : Char) (form : Form) (text : String)

@[simp]
theorem placedOf_concat_placed : placedOf (pieces ++ [.placed text]) = placedOf pieces ++ [text] :=
  List.filterMap_append

@[simp]
theorem lettersOf_concat_placed : lettersOf (pieces ++ [.placed text]) = lettersOf pieces :=
  List.filterMap_append.trans (List.append_nil _)

@[simp]
theorem placedOf_concat_option : placedOf (pieces ++ [.option letter form text]) = placedOf pieces :=
  List.filterMap_append.trans (List.append_nil _)

@[simp]
theorem lettersOf_concat_option : lettersOf (pieces ++ [.option letter form text]) = lettersOf pieces ++ [letter] :=
  List.filterMap_append

end Pieces

/-- A text with the letters of a name is the name once its letters are made small, if those of the name are. -/
theorem SameLetters.map_toLower {text name : String} (h : SameLetters text name)
    (hname : name.toList.all fun d => d.toLower = d ∧ d.toUpper.toLower = d) :
    text.toList.map Char.toLower = name.toList := by
  unfold SameLetters at h
  generalize text.toList = chars at h
  generalize name.toList = letters at h hname
  induction h with
  | nil => rfl
  | @cons c d rest rest' hc _ ih =>
    obtain ⟨hd, hrest⟩ := Bool.and_eq_true_iff.mp hname
    have hd := of_decide_eq_true hd
    have hc : c.toLower = d := by
      rcases hc with rfl | rfl
      · exact hd.1
      · exact hd.2
    rw [List.map_cons, hc, ih hrest]

/-! ## What texts look like -/

/-- A numeral begins with no dash and no equals sign. -/
theorem Numeral.IsNumeral.eq_cons_of_value {chars : List Char} {n : Nat} (h : IsNumeral chars n) :
    ∃ first more, chars = first :: more ∧ first ≠ '-' ∧ first ≠ '=' := by
  obtain ⟨first, more, hchars, hfirst⟩ := h.eq_cons
  refine ⟨first, more, hchars, ?_, ?_⟩
  all_goals
    rintro rfl
    rcases hfirst with hfirst | hfirst <;> cases hfirst

/-- The name of a collection begins with no dash and no equals sign, in any case. -/
theorem SameLetters.eq_cons {text : String} {kind : CollectionKind} (h : SameLetters text kind.name) :
    ∃ first more, text.toList = first :: more ∧ first ≠ '-' ∧ first ≠ '=' := by
  have hname : ∃ d rest, kind.name.toList = d :: rest ∧ (d = 't' ∨ d = 'l') := by
    cases kind
    · exact ⟨'t', ['l', '2'], rfl, .inl rfl⟩
    · exact ⟨'l', ['o', 'c', 'k', 'e', 'd'], rfl, .inr rfl⟩
  obtain ⟨d, rest, hname, hd⟩ := hname
  rw [SameLetters, hname] at h
  generalize hchars : text.toList = chars at h
  cases h with
  | cons hfirst hmore =>
    refine ⟨_, _, rfl, ?_, ?_⟩
    all_goals
      rintro rfl
      rcases hd with rfl | rfl <;> revert hfirst <;> decide

namespace Token

/-- A text that begins with no dash is plain. -/
theorem of_eq_plain {text : String} {c : Char} {rest : List Char} (h : text.toList = c :: rest) (hc : c ≠ '-') :
    Token.of text = .plain := by
  unfold Token.of
  rw [h]
  split
  all_goals first
    | rfl
    | rename_i heq
      exact absurd (List.cons.inj heq).1 hc

/-- A dash and a letter, with whatever follows them, are an option. -/
theorem of_eq_short {letter : Char} {rest : List Char} (h : letter ≠ '-') :
    Token.of (String.ofList ('-' :: letter :: rest)) = .short letter rest := by
  unfold Token.of
  rw [String.toList_ofList]
  split
  · rename_i heq
    cases heq
    exact absurd rfl h
  · rename_i heq
    cases heq
    exact absurd rfl h
  · rename_i heq
    cases heq
    rfl
  · rename_i hother
    exact absurd rfl (hother letter rest)

end Token

/-! ## Values that are read -/

namespace Argument

variable {text : String}

theorem readWord_eq (a : Argument) {n : UInt64} (h : Numeral.IsNumeral text.toList n.toNat) : a.readWord text = .ok n := by
  rw [readWord, h.readWord]

theorem readPercent_eq (a : Argument) {n : UInt8} (h : Numeral.IsNumeral text.toList n.toNat) (hn : n.toNat ≤ 100) :
    a.readPercent text = .ok n := by
  rw [readPercent, h.readSigned (by omega)]
  dsimp only
  rw [if_pos (by omega), Int.toNat_natCast, UInt8.ofNat_toNat]

theorem readRuns_eq (a : Argument) {n : UInt64} (h : Numeral.IsNumeral text.toList n.toNat) (hn : 1 ≤ n.toNat) :
    a.readRuns text = .ok n := by
  have hne : n ≠ 0 := fun hzero => absurd (hzero ▸ hn) (by decide)
  simp only [readRuns, a.readWord_eq h, bind, Except.bind, if_neg hne]
  rfl

/-- A name is read in any case. -/
theorem readCollection_eq (a : Argument) {kind : CollectionKind} (h : SameLetters text kind.name) :
    a.readCollection text = .ok kind := by
  have hlower := h.map_toLower (by cases kind <;> decide)
  have hne : text.isEmpty = false := by
    refine Bool.eq_false_iff.mpr fun hempty => ?_
    rw [String.isEmpty_iff.mp hempty] at hlower
    cases kind <;> cases hlower
  rw [readCollection, hne, hlower]
  cases kind <;> rfl

end Argument

namespace Config

variable {c : Config} {text : String}

/-- The scan of the first pieces of a command line that spells a configuration, with no argument that has begun. -/
def after (c : Config) (pieces : List Piece) : Scan where
  values :=
    { threads := if 0 < (placedOf pieces).length then some c.params.threads else none
      tasks := if 1 < (placedOf pieces).length then some c.params.tasks else none
      perTxn := if 2 < (placedOf pieces).length then some c.params.perTxn else none
      inserts := if 3 < (placedOf pieces).length then some c.params.inserts else none
      removes := if 4 < (placedOf pieces).length then some c.params.removes else none
      collection := if 'd' ∈ lettersOf pieces then some c.collection else none
      seed := if 's' ∈ lettersOf pieces then c.seed else none
      runs := if 'n' ∈ lettersOf pieces then some c.runs else none }
  places := Argument.byPlace.drop (placedOf pieces).length

/-- The next number is read for the argument it is for. -/
theorem take_placed {pieces : List Piece} {n : Nat} (hshares : c.params.inserts.toNat + c.params.removes.toNat ≤ 100)
    (hn : c.numbers[(placedOf pieces).length]? = some n) (h : Numeral.IsNumeral text.toList n) :
    ∃ a places, (c.after pieces).places = a :: places ∧
      Scan.take { c.after pieces with places } a text = .ok (c.after (pieces ++ [.placed text])) := by
  unfold after
  simp only [placedOf_concat_placed, lettersOf_concat_placed, List.length_append, List.length_singleton]
  generalize (placedOf pieces).length = count at hn ⊢
  match count, hn with
  | 0, rfl => exact ⟨_, _, rfl, by simp only [Scan.take, Argument.store, Argument.readWord_eq _ h]; rfl⟩
  | 1, rfl => exact ⟨_, _, rfl, by simp only [Scan.take, Argument.store, Argument.readWord_eq _ h]; rfl⟩
  | 2, rfl => exact ⟨_, _, rfl, by simp only [Scan.take, Argument.store, Argument.readWord_eq _ h]; rfl⟩
  | 3, rfl => exact ⟨_, _, rfl, by simp only [Scan.take, Argument.store, Argument.readPercent_eq _ h (by omega)]; rfl⟩
  | 4, rfl => exact ⟨_, _, rfl, by simp only [Scan.take, Argument.store, Argument.readPercent_eq _ h (by omega)]; rfl⟩

/-- The value of an option is read for the argument its letter stands for. -/
theorem take_option {pieces : List Piece} {letter : Char} (form : Form) (hruns : 1 ≤ c.runs.toNat) (h : c.Fits text letter)
    (hnew : letter ∉ lettersOf pieces) :
    ∃ a, Argument.ofLetter? letter = some a ∧
      (c.after pieces).take a text = .ok (c.after (pieces ++ [.option letter form text])) := by
  have hgiven : letter ∈ lettersOf pieces ++ [letter] := List.mem_append_right _ (List.mem_singleton_self letter)
  have hother : ∀ other, other ≠ letter → (other ∈ lettersOf pieces ++ [letter] ↔ other ∈ lettersOf pieces) := by
    intro other hne
    rw [List.mem_append, List.mem_singleton, or_iff_left hne]
  unfold after
  simp only [placedOf_concat_option, lettersOf_concat_option]
  unfold Fits at h
  split at h
  · refine ⟨.collection, rfl, ?_⟩
    simp only [Scan.take, Argument.isGiven, if_neg hnew, if_pos hgiven, Argument.store, Argument.readCollection_eq _ h,
      hother 's' (by decide), hother 'n' (by decide)]
    rfl
  · obtain ⟨seed, hseed, h⟩ := h
    refine ⟨.seed, rfl, ?_⟩
    simp only [Scan.take, Argument.isGiven, if_neg hnew, if_pos hgiven, Argument.store, Argument.readWord_eq _ h, hseed,
      hother 'd' (by decide), hother 'n' (by decide)]
    rfl
  · refine ⟨.runs, rfl, ?_⟩
    simp only [Scan.take, Argument.isGiven, if_neg hnew, if_pos hgiven, Argument.store, Argument.readRuns_eq _ h hruns,
      hother 'd' (by decide), hother 's' (by decide)]
    rfl
  · cases h

end Config

/-! ## The scan -/

namespace Scan

variable {s s' : Scan} {a : Argument} {text : String} {rest : List String}

/-- Reads on after a text that has been taken in. -/
theorem texts?_cons {token : Token} (htoken : Token.of text = token) (hne : token ≠ .terminator)
    (h : s.text text token = .ok (some s')) : texts? (text :: rest) s = texts? rest s' := by
  rw [texts?, htoken]
  split
  · exact absurd rfl hne
  · rw [h]
    rfl

/-- An argument that is taken in is stored, and nothing else is changed. -/
theorem of_take (h : s.take a text = .ok s') : ∃ values, a.store s.values text = .ok values ∧ s' = { s with values } := by
  unfold take at h
  split at h
  · cases h
  · obtain ⟨values, hstore, h⟩ := bind_eq_ok_iff.mp h
    cases h
    exact ⟨values, hstore, rfl⟩

/-- Ending an argument leaves those alone that are told by their place. -/
theorem places_of_settle (h : s.settle = .ok s') : s'.places = s.places := by
  unfold settle at h
  split at h
  · cases h
    rfl
  · cases h
  · obtain ⟨values, -, rfl⟩ := of_take h
    rfl

/-- A text that looks like no option begins the next argument told by its place, if no value is waited for. -/
theorem text_plain {places : List Argument} (hs : s.settle = .ok s') (hplaces : s'.places = a :: places) :
    s.text text .plain = .ok (some { s' with pending := some (a, some text), places }) := by
  have hplain : s.plain text = s.place text := by
    unfold plain
    split
    · rename_i hpending
      rw [settle, hpending] at hs
      cases hs
    · rfl
  have hplace : s.place text = .ok { s' with pending := some (a, some text), places } := by
    rw [place, ← places_of_settle hs, hplaces, hs]
    rfl
  rw [Scan.text, hplain, hplace]
  rfl

/-- A text that looks like an option begins the argument its letter stands for. -/
theorem text_short {letter : Char} {attached : List Char} (hletter : Argument.ofLetter? letter = some a) :
    s.text text (.short letter attached) = some <$> s.option a attached := by
  rw [Scan.text, hletter]
  rintro rfl
  cases hletter

theorem option_separate (hs : s.settle = .ok s') : s.option a [] = .ok { s' with pending := some (a, none) } := by
  rw [option, hs]
  rfl

theorem option_equals (hs : s.settle = .ok s') : s.option a ('=' :: text.toList) = s'.take a text := by
  rw [option, hs]
  change s'.take a (String.ofList text.toList) = _
  rw [String.ofList_toList]

theorem option_attached {first : Char} {more : List Char} (hs : s.settle = .ok s') (htext : text.toList = first :: more)
    (hfirst : first ≠ '=') : s.option a text.toList = s'.take a text := by
  have hvalue : s.option a (first :: more) = s'.take a (String.ofList (first :: more)) := by
    rw [option, hs]
    dsimp only [bind, Except.bind]
    split
    · rename_i heq
      cases heq
    · rename_i heq
      cases heq
      exact absurd rfl hfirst
    · rfl
  rw [htext, hvalue, ← htext, String.ofList_toList]

end Scan

namespace Config

variable {c : Config} {pieces : List Piece} {piece : Piece} {s : Scan}

/-- Whether a piece can follow others on a command line that spells a configuration. -/
def Allows (c : Config) (pieces : List Piece) : Piece → Prop
  | .placed text => ∃ n, c.numbers[(placedOf pieces).length]? = some n ∧ Numeral.IsNumeral text.toList n
  | .option letter _ text => letter ∉ lettersOf pieces ∧ c.Fits text letter

/-- The value of an option begins with no dash and no equals sign. -/
theorem Fits.eq_cons {text : String} {letter : Char} (h : c.Fits text letter) :
    ∃ first more, text.toList = first :: more ∧ first ≠ '-' ∧ first ≠ '=' := by
  unfold Fits at h
  split at h
  · exact h.eq_cons
  · obtain ⟨seed, -, h⟩ := h
    exact h.eq_cons_of_value
  · exact h.eq_cons_of_value
  · cases h

/-- A piece that may follow is taken in. -/
theorem texts?_piece (rest : List String) (hshares : c.params.inserts.toNat + c.params.removes.toNat ≤ 100)
    (hruns : 1 ≤ c.runs.toNat) (hs : s.settle = .ok (c.after pieces)) (h : c.Allows pieces piece) :
    ∃ s', s'.settle = .ok (c.after (pieces ++ [piece])) ∧ Scan.texts? (piece.texts ++ rest) s = Scan.texts? rest s' := by
  cases piece with
  | placed text =>
    obtain ⟨n, hn, hnumeral⟩ := h
    obtain ⟨a, places, hplaces, htake⟩ := take_placed hshares hn hnumeral
    obtain ⟨first, more, hchars, hdash, -⟩ := hnumeral.eq_cons_of_value
    refine ⟨{ c.after pieces with pending := some (a, some text), places }, htake, ?_⟩
    exact Scan.texts?_cons (Token.of_eq_plain hchars hdash) nofun (Scan.text_plain hs hplaces)
  | option letter form text =>
    obtain ⟨hnew, hfits⟩ := h
    obtain ⟨a, hletter, htake⟩ := take_option form hruns hfits hnew
    obtain ⟨first, more, hchars, hdash, hequals⟩ := hfits.eq_cons
    have hshort : letter ≠ '-' := by
      rintro rfl
      cases hletter
    cases form with
    | attached =>
      refine ⟨c.after (pieces ++ [.option letter .attached text]), rfl, ?_⟩
      refine Scan.texts?_cons (Token.of_eq_short hshort) nofun ?_
      rw [Scan.text_short hletter, Scan.option_attached hs hchars hequals, htake]
      rfl
    | equals =>
      refine ⟨c.after (pieces ++ [.option letter .equals text]), rfl, ?_⟩
      refine Scan.texts?_cons (Token.of_eq_short hshort) nofun ?_
      rw [Scan.text_short hletter, Scan.option_equals hs, htake]
      rfl
    | separate =>
      refine ⟨{ c.after pieces with pending := some (a, some text) }, htake, ?_⟩
      have hbegin : s.text (String.ofList ['-', letter]) (.short letter []) =
          .ok (some { c.after pieces with pending := some (a, none) }) := by
        rw [Scan.text_short hletter, Scan.option_separate hs]
        rfl
      refine (Scan.texts?_cons (Token.of_eq_short hshort) nofun hbegin).trans ?_
      exact Scan.texts?_cons (Token.of_eq_plain hchars hdash) nofun rfl

/-- Pieces each of which may follow those before it are taken in, up to the end of the command line. -/
theorem texts?_pieces {left : List Piece} (hshares : c.params.inserts.toNat + c.params.removes.toNat ≤ 100)
    (hruns : 1 ≤ c.runs.toNat) (hs : s.settle = .ok (c.after pieces))
    (h : ∀ done piece later, left = done ++ piece :: later → c.Allows (pieces ++ done) piece) :
    Scan.texts? (left.flatMap Piece.texts) s = .ok (some (c.after (pieces ++ left))) := by
  induction left generalizing pieces s with
  | nil =>
    rw [List.append_nil, ← Except.map_ok, ← hs]
    rfl
  | cons piece left ih =>
    have hpiece : c.Allows (pieces ++ []) piece := h [] piece left rfl
    rw [List.append_nil] at hpiece
    obtain ⟨s', hs', htexts⟩ := texts?_piece (left.flatMap Piece.texts) hshares hruns hs hpiece
    rw [List.flatMap_cons, htexts, ih hs', List.append_assoc, List.singleton_append]
    intro done next later hleft
    have hnext := h (piece :: done) next later (congrArg (piece :: ·) hleft)
    rwa [List.append_assoc, List.singleton_append]

/-- On a command line that spells a configuration every piece may follow those before it. -/
theorem SpelledBy.allows {later : List Piece} (h : c.SpelledBy (pieces ++ piece :: later)) : c.Allows pieces piece := by
  cases piece with
  | placed text =>
    have hplaced : placedOf (pieces ++ .placed text :: later) = placedOf pieces ++ text :: placedOf later :=
      List.filterMap_append
    have hnumbers := h.numbers
    rw [hplaced] at hnumbers
    have hrest := List.forall₂_drop_append _ _ _ hnumbers
    generalize hdrop : c.numbers.drop (placedOf pieces).length = rest at hrest
    cases hrest with
    | cons hnumeral _ =>
      refine ⟨_, ?_, hnumeral⟩
      rw [← List.head?_drop, hdrop]
      rfl
  | option letter form text =>
    have hletters : lettersOf (pieces ++ .option letter form text :: later) = lettersOf pieces ++ letter :: lettersOf later :=
      List.filterMap_append
    have honce := h.once
    rw [hletters] at honce
    refine ⟨fun hmem => ?_, h.options (List.mem_append_right _ List.mem_cons_self)⟩
    exact (List.nodup_append.mp honce).2.2 letter hmem letter List.mem_cons_self rfl

/-- What a command line that spells a configuration gives is just that configuration. -/
theorem SpelledBy.values (h : c.SpelledBy pieces) (hmake : make c.collection c.params c.runs c.seed = .ok c) :
    (Argument.byPlace.all fun a => a.isGiven (c.after pieces).values) = true ∧
      (c.after pieces).values.config = .ok c := by
  have hcount : (placedOf pieces).length = 5 := (List.Forall₂.length_eq h.numbers).symm
  have hcollection : (c.after pieces).values.collection.getD .striped = c.collection := by
    by_cases hd : 'd' ∈ lettersOf pieces
    · simp [after, hd]
    · simp [after, hd, h.defaultCollection hd]
  have hseed : (c.after pieces).values.seed = c.seed := by
    by_cases hs : 's' ∈ lettersOf pieces
    · simp [after, hs]
    · simp [after, hs, h.noSeed hs]
  have hruns : (c.after pieces).values.runs.getD 1 = c.runs := by
    by_cases hn : 'n' ∈ lettersOf pieces
    · simp [after, hn]
    · simp [after, hn, h.oneRun hn]
  refine ⟨by simp [Argument.byPlace, Argument.isGiven, after, hcount], ?_⟩
  unfold Values.config
  rw [hcollection, hseed, hruns]
  simp only [after, hcount]
  exact hmake

/-- Every command line that spells a configuration is accepted, and asks for just that configuration: neither for a record file
nor for a dry run. -/
theorem read_back {kind : CollectionKind} {p : Params} {runs : UInt64} {seed : Option UInt64}
    (hc : make kind p runs seed = .ok c) (h : c.SpelledBy pieces) :
    ∃ v, Request.parse (pieces.flatMap Piece.texts) = .ok (.run v) ∧ v.config = .ok c ∧ v.output = none ∧
      v.dryRun = false := by
  have hmake := make_self hc
  obtain ⟨-, -, -, hshares⟩ := of_make hmake
  have hallows : ∀ done piece later, pieces = done ++ piece :: later → c.Allows ([] ++ done) piece := by
    rintro done piece later rfl
    exact h.allows
  have hscan : Scan.texts? (pieces.flatMap Piece.texts) {} = .ok (some (c.after pieces)) :=
    texts?_pieces hshares (one_le_runs hc) rfl hallows
  obtain ⟨hgiven, hconfig⟩ := h.values hmake
  refine ⟨(c.after pieces).values, ?_, hconfig, rfl, rfl⟩
  simp only [Request.parse, hscan, bind, Except.bind, if_pos hgiven]
  rfl

/-- The plainest way to spell a configuration: first its options, then its numbers. -/
def spelling (c : Config) : List Piece :=
  [.option 'd' .separate c.collection.name, .option 'n' .separate (toString c.runs.toNat)] ++
    (c.seed.map fun seed => Piece.option 's' .separate (toString seed.toNat)).toList ++
    c.numbers.map fun n => .placed (toString n)

/-- So there is a command line for every configuration. -/
theorem spelledBy_spelling (c : Config) : c.SpelledBy c.spelling := by
  have hnumeral : ∀ n : Nat, Numeral.IsNumeral (toString n).toList n := by
    intro n
    rw [Nat.toString_eq_repr, Nat.toList_repr]
    exact Numeral.isNumeral_toDigits n
  have hplaced : placedOf c.spelling = c.numbers.map toString := by
    unfold spelling
    cases c.seed <;> rfl
  have hletters : lettersOf c.spelling = 'd' :: 'n' :: (c.seed.map fun _ => 's').toList := by
    unfold spelling
    cases c.seed <;> rfl
  constructor
  · rw [hplaced, List.forall₂_map_right_iff]
    exact List.forall₂_same.mpr fun n _ => hnumeral n
  · intro letter form text hmem
    simp only [spelling, List.mem_append, List.mem_cons, List.not_mem_nil, or_false, Piece.option.injEq, Option.mem_toList,
      Option.map_eq_some_iff, List.mem_map, reduceCtorEq, and_false, exists_false] at hmem
    rcases hmem with (⟨rfl, -, rfl⟩ | ⟨rfl, -, rfl⟩) | ⟨seed, hseed, rfl, -, rfl⟩
    · exact List.forall₂_same.mpr fun _ _ => .inl rfl
    · exact hnumeral _
    · exact ⟨seed, hseed, hnumeral _⟩
  · rw [hletters]
    cases c.seed
    · decide
    · simp
  · intro hnot
    simp [hletters] at hnot
  · intro hnot
    cases hseed : c.seed with
    | none => rfl
    | some seed => simp [hletters, hseed] at hnot
  · intro hnot
    simp [hletters] at hnot

/-- Options in all three forms stand among the numbers, and the seed, the name and two numbers are not written in the shortest
way. -/
theorem read_back_mixed_line :
    make .locked ⟨4, 1000, 10, 45, 45⟩ 3 (some 7) = .ok ⟨.locked, ⟨4, 1000, 10, 45, 45⟩, 3, some 7⟩ ∧
      SpelledBy ⟨.locked, ⟨4, 1000, 10, 45, 45⟩, 3, some 7⟩
        [.option 's' .equals "007", .placed "4", .placed "1000", .option 'd' .attached "LocKed", .placed "+10", .placed "45",
          .option 'n' .separate "3", .placed "045"] ∧
      ∃ v, Request.parse ["-s=007", "4", "1000", "-dLocKed", "+10", "45", "-n", "3", "045"] = .ok (.run v) ∧
        v.config = .ok ⟨.locked, ⟨4, 1000, 10, 45, 45⟩, 3, some 7⟩ ∧ v.output = none ∧ v.dryRun = false := by
  have hmake : make .locked ⟨4, 1000, 10, 45, 45⟩ 3 (some 7) = .ok ⟨.locked, ⟨4, 1000, 10, 45, 45⟩, 3, some 7⟩ := rfl
  have hspelled : SpelledBy ⟨.locked, ⟨4, 1000, 10, 45, 45⟩, 3, some 7⟩
      [.option 's' .equals "007", .placed "4", .placed "1000", .option 'd' .attached "LocKed", .placed "+10", .placed "45",
        .option 'n' .separate "3", .placed "045"] := by
    have hfour : Numeral.IsNumeral "4".toList 4 := ⟨['4'], nofun, rfl, rfl, .inl rfl⟩
    have hthousand : Numeral.IsNumeral "1000".toList 1000 := ⟨['1', '0', '0', '0'], nofun, rfl, rfl, .inl rfl⟩
    have hten : Numeral.IsNumeral "+10".toList 10 := ⟨['1', '0'], nofun, rfl, rfl, .inr rfl⟩
    have hinserts : Numeral.IsNumeral "45".toList 45 := ⟨['4', '5'], nofun, rfl, rfl, .inl rfl⟩
    have hremoves : Numeral.IsNumeral "045".toList 45 := ⟨['0', '4', '5'], nofun, rfl, rfl, .inl rfl⟩
    have hseven : Numeral.IsNumeral "007".toList 7 := ⟨['0', '0', '7'], nofun, rfl, rfl, .inl rfl⟩
    have hthree : Numeral.IsNumeral "3".toList 3 := ⟨['3'], nofun, rfl, rfl, .inl rfl⟩
    have hname : SameLetters "LocKed" "locked" := by
      unfold SameLetters
      decide
    refine ⟨.cons hfour (.cons hthousand (.cons hten (.cons hinserts (.cons hremoves .nil)))), ?_, by decide, ?_, ?_, ?_⟩
    · intro letter form text hmem
      simp only [List.mem_cons, Piece.option.injEq, reduceCtorEq, List.not_mem_nil, false_or, or_false] at hmem
      rcases hmem with ⟨rfl, -, rfl⟩ | ⟨rfl, -, rfl⟩ | ⟨rfl, -, rfl⟩
      · exact ⟨7, rfl, hseven⟩
      · exact hname
      · exact hthree
    · exact fun h => absurd (by decide) h
    · exact fun h => absurd (by decide) h
    · exact fun h => absurd (by decide) h
  exact ⟨hmake, hspelled, read_back hmake hspelled⟩

end Config

end TxnBench
