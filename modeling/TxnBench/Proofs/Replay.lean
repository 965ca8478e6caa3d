import TxnBench.Collection.Contents
import TxnBench.Collection.Session

/-!
# Calls replayed on a plain map

What calls do to a map that nobody else uses: the second side of every statement about a collection. `Contents.perform`
carries out one call, and `Replays m calls m'` says that calls, each with the answer it has on record, lead from `m` to `m'`.

A call on a key reads the key, and may then write to it: `Action.answer` and `Action.write?` say what it answers and what it
writes once it has read, whatever it is that is read. A replay changes the number of entries by what its answers say
(`Replays.size`).
-/

namespace TxnBench

namespace Action

variable {K V : Type}

/-- The key a call is about; to begin and to end a transaction is about none. -/
def key? : Action K V → Option K
  | .get k | .contains k | .put k _ | .remove k => some k
  | .start | .commit | .drop => none

/-- What a call comes back with when it has read `previous` at its key. -/
def answer (previous : Option V) : Action K V → Answer V
  | .get _ | .put _ _ | .remove _ => .value previous
  | .contains _ => .present previous.isSome
  | .start | .commit | .drop => .done

/-- What a call writes to its key when it has read `previous` there, if it writes: a removal of nothing does not. -/
def write? (previous : Option V) : Action K V → Option (Option V)
  | .put _ v => some (some v)
  | .remove _ => previous.map fun _ => none
  | _ => none

/-- Whether a call is one to change an entry. -/
def updates : Action K V → Bool
  | .put _ _ | .remove _ => true
  | _ => false

end Action

/-- Whether a call went through. -/
def Answer.isSuccess {V : Type} : Answer V → Bool
  | .done | .value _ | .present _ => true
  | .aborted _ | .faulted _ | .unknown => false

/-- A call that has read its key went through. -/
theorem Action.isSuccess_answer {K V : Type} (a : Action K V) (previous : Option V) :
    (a.answer previous).isSuccess = true := by
  cases a <;> rfl

/-- A call and the answer to it. -/
structure Call (K V : Type) where
  action : Action K V
  answer : Answer V
  deriving DecidableEq, Repr

namespace Call

variable {K V : Type}

/-- Whether a call wrote to its key: it put a value there, or took one away. -/
def writes (c : Call K V) : Bool :=
  match c.action, c.answer with
  | .put _ _, .value _ | .remove _, .value (some _) => true
  | _, _ => false

/-- Whether a call put a value at a key that was absent. -/
def inserts (c : Call K V) : Bool :=
  match c.action, c.answer with
  | .put _ _, .value none => true
  | _, _ => false

/-- Whether a call took a key away that was present. -/
def removes (c : Call K V) : Bool :=
  match c.action, c.answer with
  | .remove _, .value (some _) => true
  | _, _ => false

/-- A call on a key that read `previous` wrote exactly if it had something to write. -/
theorem writes_answer {a : Action K V} {k : K} (h : a.key? = some k) (previous : Option V) :
    Call.writes ⟨a, a.answer previous⟩ = (a.write? previous).isSome := by
  cases a with
  | get | contains | put => rfl
  | remove => cases previous <;> rfl
  | start | commit | drop => cases h

/-- A call that wrote is about a key. -/
theorem exists_key_of_writes {c : Call K V} (h : c.writes = true) : ∃ k, c.action.key? = some k := by
  obtain ⟨a, answer⟩ := c
  cases a with
  | get k | contains k | put k | remove k => exact ⟨k, rfl⟩
  | start | commit | drop => cases h

end Call

namespace Contents

variable {K V : Type} [Ord K] [Std.TransOrd K]

/-- What a call does to a plain map. -/
def perform (m : Contents K V) : Action K V → Answer V × Contents K V
  | .get k => (.value m[k]?, m)
  | .contains k => (.present m[k]?.isSome, m)
  | .put k v => (.value m[k]?, m.insert k v)
  | .remove k => (.value m[k]?, m.erase k)
  | .start | .commit | .drop => (.done, m)

/-- Calls carried out one after another. -/
def performAll (m : Contents K V) (actions : List (Action K V)) : Contents K V :=
  actions.foldl (fun m a => (m.perform a).2) m

/-- Calls that change no entry can be left out. -/
theorem performAll_updates (m : Contents K V) (actions : List (Action K V)) :
    m.performAll (actions.filter Action.updates) = m.performAll actions := by
  induction actions generalizing m with
  | nil => rfl
  | cons a rest ih =>
    cases a with
    | put | remove => exact ih _
    | get | contains | start | commit | drop => exact ih m

/-- The map with writes laid over it. -/
def overlay (m : Contents K V) (writes : Contents K (Option V)) : Contents K V :=
  m.writeAll writes.toList

/-- A call answers as what it reads at its key has it. -/
theorem perform_answer (m : Contents K V) {a : Action K V} {k : K} (h : a.key? = some k) :
    (m.perform a).1 = a.answer m[k]? := by
  cases a with
  | start | commit | drop => cases h
  | get | contains | put | remove =>
    cases h
    rfl

variable [Std.LawfulEqOrd K] [DecidableEq K]

/-- A call writes to its key what it has to write. -/
theorem perform_write (m : Contents K V) {a : Action K V} {k : K} (h : a.key? = some k) :
    (m.perform a).2 = ((a.write? m[k]?).map (m.write k)).getD m := by
  cases a with
  | start | commit | drop => cases h
  | get | contains | put =>
    cases h
    rfl
  | remove k' =>
    cases h
    cases hk : m[k]? with
    | some v => rfl
    | none =>
      apply Std.ExtTreeMap.ext_getElem?
      intro k'
      have hw := getElem?_write m k k' none
      simp only [write] at hw
      simp only [perform, Action.write?, Option.map_none, Option.getD_none, hw]
      split
      · rename_i e
        rw [← e, hk]
      · rfl

/-- What a call leaves at its key: what it writes, if it writes, and else what was there. -/
theorem getElem?_perform (m : Contents K V) {a : Action K V} {k : K} (h : a.key? = some k) :
    (m.perform a).2[k]? = (a.write? m[k]?).getD m[k]? := by
  rw [m.perform_write h]
  cases a.write? m[k]? with
  | none => rfl
  | some v => exact (m.getElem?_write k k v).trans (if_pos rfl)

/-- A call leaves every other key as it is. -/
theorem getElem?_perform_of_ne (m : Contents K V) {a : Action K V} {k : K} (h : a.key? ≠ some k) :
    (m.perform a).2[k]? = m[k]? := by
  cases hkey : a.key? with
  | none =>
    cases a with
    | start | commit | drop => rfl
    | get | contains | put | remove => cases hkey
  | some k' =>
    have hne : k' ≠ k := fun e => h (hkey.trans (congrArg some e))
    rw [m.perform_write hkey]
    cases a.write? m[k']? with
    | none => rfl
    | some v => exact (m.getElem?_write k' k v).trans (if_neg hne)

/-! ## Writes in any order -/

/-- A key that is not written keeps its value. -/
theorem getElem?_writeAll_of_not_mem (m : Contents K V) {writes : List (K × Option V)} {k : K}
    (h : ∀ w ∈ writes, w.1 ≠ k) : (m.writeAll writes)[k]? = m[k]? := by
  induction writes generalizing m with
  | nil => rfl
  | cons w rest ih =>
    have hw : w.1 ≠ k := h w List.mem_cons_self
    calc ((m.write w.1 w.2).writeAll rest)[k]?
        = (m.write w.1 w.2)[k]? := ih _ fun w' hw' => h w' (List.mem_cons_of_mem w hw')
      _ = m[k]? := by rw [getElem?_write, if_neg hw]

/-- A key that is written once has the value written. -/
theorem getElem?_writeAll_of_mem (m : Contents K V) {writes : List (K × Option V)}
    (hd : writes.Pairwise fun a b => a.1 ≠ b.1) {k : K} {v : Option V} (h : (k, v) ∈ writes) :
    (m.writeAll writes)[k]? = v := by
  induction writes generalizing m with
  | nil => cases h
  | cons w rest ih =>
    obtain ⟨hne, hrest⟩ := List.pairwise_cons.mp hd
    rcases List.mem_cons.mp h with rfl | h
    · calc ((m.write k v).writeAll rest)[k]?
          = (m.write k v)[k]? := getElem?_writeAll_of_not_mem _ fun w' hw' => (hne w' hw').symm
        _ = v := by rw [getElem?_write, if_pos rfl]
    · exact ih _ hrest h

omit [DecidableEq K] in
/-- No key is written twice by the entries of a map. -/
theorem pairwise_toList_ne {α : Type} (w : Contents K α) : w.toList.Pairwise fun a b => a.1 ≠ b.1 :=
  w.distinct_keys_toList.imp fun h e => h (Std.compare_eq_iff_eq.mpr e)

/-- When the writes of a map are carried out, in whatever order, a key has the value written if there is one, and else its
own. -/
theorem getElem?_writeAll (m : Contents K V) {w : Contents K (Option V)} {writes : List (K × Option V)}
    (h : writes.Perm w.toList) (k : K) : (m.writeAll writes)[k]? = w[k]?.getD m[k]? := by
  have hmem : ∀ v, (k, v) ∈ writes ↔ w[k]? = some v := fun v =>
    h.mem_iff.trans Std.ExtTreeMap.mem_toList_iff_getElem?_eq_some
  cases hk : w[k]? with
  | some v =>
    have hd : writes.Pairwise fun a b => a.1 ≠ b.1 :=
      (h.pairwise_iff fun hne => Ne.symm hne).mpr (pairwise_toList_ne w)
    exact getElem?_writeAll_of_mem m hd ((hmem v).mpr hk)
  | none =>
    apply getElem?_writeAll_of_not_mem m
    rintro ⟨k', v⟩ hw rfl
    cases hk.symm.trans ((hmem v).mp hw)

/-- Under writes, a key has the value written if there is one, and else its own. -/
theorem getElem?_overlay (m : Contents K V) (w : Contents K (Option V)) (k : K) :
    (m.overlay w)[k]? = w[k]?.getD m[k]? :=
  m.getElem?_writeAll (List.Perm.refl _) k

/-- Nothing laid over a map leaves it as it is. -/
@[simp] theorem overlay_empty (m : Contents K V) : m.overlay ∅ = m := by
  apply Std.ExtTreeMap.ext_getElem?
  intro k
  simp [getElem?_overlay]

/-- One more write laid over a map is a write to what there was before. -/
theorem overlay_insert (m : Contents K V) (w : Contents K (Option V)) (k : K) (v : Option V) :
    m.overlay (w.insert k v) = (m.overlay w).write k v := by
  apply Std.ExtTreeMap.ext_getElem?
  intro k'
  have hk : compare k k' = .eq ↔ k = k' := Std.compare_eq_iff_eq
  simp only [getElem?_overlay, getElem?_write, Std.ExtTreeMap.getElem?_insert, hk]
  split <;> rfl

end Contents

/-! ## Replays -/

variable {K V : Type} [Ord K] [Std.TransOrd K]

/-- Calls, each with the answer on record, lead from one map to another. -/
def Replays (m : Contents K V) : List (Call K V) → Contents K V → Prop
  | [], m' => m = m'
  | c :: rest, m' => (m.perform c.action).1 = c.answer ∧ Replays (m.perform c.action).2 rest m'

/-- Calls, each with the answer that a plain map gives to it when they are carried out one after another. -/
def Contents.record (m : Contents K V) : List (Action K V) → List (Call K V)
  | [] => []
  | a :: rest => ⟨a, (m.perform a).1⟩ :: Contents.record (m.perform a).2 rest

namespace Replays

/-- The calls of a replay are what a plain map has on record of them. -/
theorem eq_record {m m' : Contents K V} {calls : List (Call K V)} (h : Replays m calls m') :
    calls = m.record (calls.map Call.action) := by
  induction calls generalizing m with
  | nil => rfl
  | cons c rest ih =>
    obtain ⟨hanswer, hrest⟩ := h
    rw [List.map_cons, Contents.record, hanswer, ← ih hrest]

/-- Replays follow one another. -/
theorem append {m m₁ m₂ : Contents K V} {calls more : List (Call K V)} (h : Replays m calls m₁)
    (h' : Replays m₁ more m₂) : Replays m (calls ++ more) m₂ := by
  induction calls generalizing m with
  | nil =>
    cases h
    exact h'
  | cons c rest ih => exact ⟨h.1, ih h.2⟩

/-- A replay leads to what the calls do to the map. -/
theorem eq_performAll {m m' : Contents K V} {calls : List (Call K V)} (h : Replays m calls m') :
    m' = m.performAll (calls.map Call.action) := by
  induction calls generalizing m with
  | nil => exact h.symm
  | cons c rest ih => exact ih h.2

variable [Std.LawfulEqOrd K] [DecidableEq K]

/-- The replay of one call on a key. -/
theorem single (m : Contents K V) {a : Action K V} {k : K} (h : a.key? = some k) :
    Replays m [⟨a, a.answer m[k]?⟩] (((a.write? m[k]?).map (m.write k)).getD m) :=
  ⟨m.perform_answer h, m.perform_write h⟩

end Replays

/-! ## Entries gained and lost -/

/-- How many calls put a value at an absent key. -/
def insertions (calls : List (Call K V)) : Nat :=
  calls.countP Call.inserts

/-- How many calls took a present key away. -/
def removals (calls : List (Call K V)) : Nat :=
  calls.countP Call.removes

omit [Ord K] [Std.TransOrd K] in
theorem insertions_append_singleton (calls : List (Call K V)) (c : Call K V) :
    insertions (calls ++ [c]) = insertions calls + if c.inserts then 1 else 0 := by
  rw [insertions, List.countP_append, List.countP_singleton]
  rfl

omit [Ord K] [Std.TransOrd K] in
theorem removals_append_singleton (calls : List (Call K V)) (c : Call K V) :
    removals (calls ++ [c]) = removals calls + if c.removes then 1 else 0 := by
  rw [removals, List.countP_append, List.countP_singleton]
  rfl

/-- One call changes the number of entries as its answer says. -/
theorem Contents.size_perform (m : Contents K V) (a : Action K V) :
    (m.perform a).2.size + (if Call.removes ⟨a, (m.perform a).1⟩ then 1 else 0) =
      m.size + (if Call.inserts ⟨a, (m.perform a).1⟩ then 1 else 0) := by
  cases a with
  | get | contains | start | commit | drop => rfl
  | put k v =>
    have hmem : k ∈ m ↔ m[k]?.isSome := Std.ExtTreeMap.mem_iff_isSome_getElem?
    cases hk : m[k]? with
    | none => simp [perform, Call.removes, Call.inserts, Std.ExtTreeMap.size_insert, hmem, hk]
    | some v' => simp [perform, Call.removes, Call.inserts, Std.ExtTreeMap.size_insert, hmem, hk]
  | remove k =>
    have hmem : k ∈ m ↔ m[k]?.isSome := Std.ExtTreeMap.mem_iff_isSome_getElem?
    cases hk : m[k]? with
    | none => simp [perform, Call.removes, Call.inserts, Std.ExtTreeMap.size_erase, hmem, hk]
    | some v =>
      have hne : m.size ≠ 0 := by
        intro h
        have hm : k ∈ m := hmem.mpr (by rw [hk]; rfl)
        rw [Std.ExtTreeMap.eq_empty_iff_size_eq_zero.mpr h] at hm
        exact Std.ExtTreeMap.not_mem_empty hm
      simp [perform, Call.removes, Call.inserts, Std.ExtTreeMap.size_erase, hmem, hk]
      omega

/-- A replay changes the number of entries by the keys put new less the keys taken away. -/
theorem Replays.size {m m' : Contents K V} {calls : List (Call K V)} (h : Replays m calls m') :
    m'.size + removals calls = m.size + insertions calls := by
  induction calls generalizing m with
  | nil =>
    cases h
    rfl
  | cons c rest ih =>
    obtain ⟨ha, hrest⟩ := h
    have hc := m.size_perform c.action
    have hr := ih hrest
    rw [ha] at hc
    change _ + (if c.removes then 1 else 0) = _ + (if c.inserts then 1 else 0) at hc
    simp only [removals, insertions, List.countP_cons] at hr ⊢
    omega

end TxnBench
