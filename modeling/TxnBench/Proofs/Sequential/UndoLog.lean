import TxnBench.Collection.Faulty
import TxnBench.Proofs.Sequential.Basic

/-!
# Collections with an undo log

On the locked collection a transaction changes the entries in place, and its undo log leads back to where it began: every
call either keeps the map that a rollback would give (`Locked.rollback_call`), or does nothing at all. So a transaction that
ends without a commit leaves no trace, wherever it ends, and a commit keeps all it did (`Locked.all_or_nothing`). The faulty
collection makes the same calls unless it is told to fail, so both are plain maps to transactions that do not overlap
(`Locked.sequential`, `Faulty.sequential`).
-/

namespace TxnBench

/-- To write back what a key held undoes a write. -/
theorem Contents.write_write {K V : Type} [Ord K] [Std.TransOrd K] [Std.LawfulEqOrd K] [DecidableEq K] (m : Contents K V)
    (k : K) (v : Option V) : (m.write k v).write k m[k]? = m := by
  apply Std.ExtTreeMap.ext_getElem?
  intro k'
  simp only [getElem?_write]
  split
  · rename_i e
    rw [e]
  · rfl

namespace Locked

variable {K V : Type} [Ord K] [Std.TransOrd K] [Std.LawfulEqOrd K] [DecidableEq K]

/-- A call on a key is answered as on a plain map, and does to the entries what it does there. -/
theorem call_eq (undo : Undo K V) (m : Contents K V) {a : Action K V} {k : K} (hk : a.key? = some k) :
    ((collection K V).call undo m a).1 = (m.perform a).1 ∧ ((collection K V).call undo m a).2.2 = (m.perform a).2 := by
  cases a with
  | start | commit | drop => cases hk
  | get | contains | put => exact ⟨rfl, rfl⟩
  | remove k =>
    have hw := m.perform_write (a := .remove k) rfl
    cases hm : m[k]? with
    | some v => simp [Collection.call, collection, remove, Contents.perform, Answer.ofValue, hm]
    | none =>
      rw [hm] at hw
      simp only [Collection.call, collection, remove, hm]
      exact ⟨congrArg Answer.value hm.symm, hw.symm⟩

/-- A call changes nothing of what a rollback leads to. -/
theorem rollback_call (undo : Undo K V) (m : Contents K V) (a : Action K V) :
    rollback ((collection K V).call undo m a).2.1 ((collection K V).call undo m a).2.2 = rollback undo m := by
  cases a with
  | start | commit | drop | get | contains => rfl
  | put k v => exact congrArg (Contents.writeAll · undo) (m.write_write k (some v))
  | remove k =>
    cases hm : m[k]? with
    | none => simp only [Collection.call, collection, remove, hm]
    | some v =>
      have hback := m.write_write k none
      rw [hm] at hback
      simp only [Collection.call, collection, remove, hm]
      exact congrArg (Contents.writeAll · undo) hback

/-- The locked collection is a plain map, and a rollback of its only open transaction leads back to the map it began on. -/
def sequential (K V : Type) [Ord K] [Std.TransOrd K] [Std.LawfulEqOrd K] [DecidableEq K] :
    Sequential (collection K V) where
  Rests s m := s = m
  Runs undo s m₀ m := s = m ∧ rollback undo s = m₀
  start h := ⟨h, h⟩
  call {undo s m₀ m a k} h hk := by
    obtain ⟨rfl, rfl⟩ := h
    obtain ⟨hanswer, hentries⟩ := call_eq undo s hk
    exact Or.inl ⟨hanswer, hentries, rollback_call undo s a⟩
  commit h := Or.inl ⟨rfl, h.1⟩
  drop h := h.2
  find h k := by
    cases h
    rfl

/-- The locked collection refuses nothing. -/
theorem steady : (sequential K V).Steady where
  call {undo s m₀ m a} h hk := by
    obtain ⟨k, hk⟩ := Option.isSome_iff_exists.mp hk
    rw [(call_eq undo s hk).1]
    exact Contents.isSuccess_perform _ a
  commit _ := rfl

theorem truthful : (sequential K V).Truthful := by
  rintro s m rfl
  rfl

/-- A transaction is carried out as a whole or not at all. It may begin on any entries and make any calls, each on a key. Every
call is answered as on the plain map on which the calls before it were carried out, and what it changes is in its log, which
leads back from the entries there are to those on which the transaction began. A commit keeps the entries of the plain map. If
the transaction is dropped instead, at whatever point and be it because its holder breaks off, every key has the value that it
had at first. -/
theorem all_or_nothing {Name : Type} [DecidableEq Name] (t : Name) (m : Contents K V) (calls : List (Action K V))
    (hk : ∀ a ∈ calls, a.key?.isSome) :
    let begun := ((⟨m, []⟩ : Session (collection K V) Name).perform t .start).2
    let made := begun.performAll (calls.map (Prod.mk t))
    made.1 = m.answers calls ∧
      (∃ undo, made.2 = ⟨m.performAll calls, [(t, undo)]⟩ ∧ rollback undo (m.performAll calls) = m) ∧
      made.2.perform t .commit = (.done, ⟨m.performAll calls, []⟩) ∧
      made.2.perform t .drop = (.done, ⟨m, []⟩) ∧
      made.2.dropAll = m := by
  intro begun made
  have hstart : (sequential K V).Runs (K := K) (V := V) [] m m m := ⟨rfl, rfl⟩
  obtain ⟨undo, entries, hmade, rfl, hback⟩ := steady.calls t hstart hk
  have hmade : made = (m.answers calls, ⟨m.performAll calls, [(t, undo)]⟩) := hmade
  have hopen : made.2.txn? t = some undo := by
    rw [hmade]
    simp [Session.txn?]
  have hothers : made.2.others t = [] := by
    rw [hmade]
    simp [Session.others]
  refine ⟨by rw [hmade], ⟨undo, by rw [hmade], hback⟩, ?_, ?_, ?_⟩
  · rw [Session.perform_commit _ hopen, hothers, hmade]
    rfl
  · rw [Session.perform_drop _ hopen, hothers, hmade]
    exact congrArg (fun entries => (Answer.done, Session.mk entries [])) hback
  · rw [hmade]
    exact hback

/-- A transaction changes a key twice, puts one that is absent twice over and takes it away again, and takes away an absent
one. -/
theorem log_with_repeated_keys :
    let m : Contents UInt64 UInt64 := Contents.performAll ∅ [.put 1 10, .put 2 20]
    let calls : List (Action UInt64 UInt64) :=
      [.put 1 11, .remove 1, .remove 2, .put 3 30, .put 3 31, .contains 3, .remove 3, .remove 4, .get 2]
    let begun := ((⟨m, []⟩ : Session (collection UInt64 UInt64) Nat).perform 0 .start).2
    let made := begun.performAll (calls.map (Prod.mk 0))
    (∀ a ∈ calls, a.key?.isSome) ∧
      made.1 = [.value (some 10), .value (some 11), .value (some 20), .value none, .value (some 30), .present true,
        .value (some 31), .value none, .value none] ∧
      (made.2.perform 0 .commit).2.state = (∅ : Contents UInt64 UInt64) ∧ (made.2.perform 0 .drop).2.state = m := by
  intro m calls begun made
  have hk : ∀ a ∈ calls, a.key?.isSome := by decide
  obtain ⟨hanswers, -, hcommit, hdrop, -⟩ := all_or_nothing 0 m calls hk
  refine ⟨hk, hanswers.trans (by decide +kernel), ?_, congrArg (fun done => done.2.state) hdrop⟩
  exact (congrArg (fun done => done.2.state) hcommit).trans (Std.ExtTreeMap.eq_empty_iff_size_eq_zero.mpr (by decide +kernel))

end Locked

namespace Faulty

variable (f : Failures)

/-- A call breaks off or is turned down, and does nothing, or it is the call of the locked collection. -/
theorem call_eq (undo : Txn) (s : State) {a : Action UInt64 UInt64} {k : UInt64} (hk : a.key? = some k) :
    (collection f).call undo s a =
      if f.breaking = some k then (.faulted .injected, undo, s)
      else if strikes f.poison k.toNat then (.aborted (.readConflict k.toNat), undo, s)
      else
        let (answer, undo, entries) := (Locked.collection UInt64 UInt64).call undo s.entries a
        (answer, undo, { s with entries }) := by
  cases a with
  | start | commit | drop => cases hk
  | get | contains | put | remove =>
    cases hk
    simp only [Collection.call, Collection.contains, collection, guarded]
    split
    · rfl
    · split <;> rfl

/-- A commit counts, and is turned down when its number strikes. -/
theorem commit_eq (undo : Txn) (s : State) :
    (collection f).commit undo s =
      if strikes f.period (s.commits + 1) then
        (.abort (.validation (s.commits + 1)), ⟨Locked.rollback undo s.entries, s.commits + 1⟩)
      else (.value (), ⟨s.entries, s.commits + 1⟩) := by
  simp only [Collection.commit, collection, settle]
  rfl

/-- The faulty collection is a plain map that may refuse, and a rollback of its only open transaction leads back to the map
it began on. -/
def sequential : Sequential (collection f) where
  Rests s m := s.entries = m
  Runs undo s m₀ m := s.entries = m ∧ Locked.rollback undo s.entries = m₀
  start h := ⟨h, h⟩
  call {undo s m₀ m a k} h hk := by
    rw [call_eq f undo s hk]
    split
    · exact Or.inr ⟨rfl, h⟩
    · split
      · exact Or.inr ⟨rfl, h⟩
      · obtain ⟨rfl, rfl⟩ := h
        obtain ⟨hanswer, hentries⟩ := Locked.call_eq undo s.entries hk
        exact Or.inl ⟨hanswer, hentries, Locked.rollback_call undo s.entries a⟩
  commit {undo s m₀ m} h := by
    rw [commit_eq f undo s]
    split
    · exact Or.inr ⟨nofun, h.2⟩
    · exact Or.inl ⟨rfl, h.1⟩
  drop h := h.2
  find h k := by
    cases h
    rfl

/-- Unless it is told to break at a key, the faulty collection does not break off. -/
theorem unbroken (hf : f.breaking = none) : (sequential f).Unbroken where
  call {undo s m₀ m a} h hk e he := by
    obtain ⟨k, hk⟩ := Option.isSome_iff_exists.mp hk
    rw [call_eq f undo s hk, hf, if_neg nofun] at he
    split at he
    · cases he
    · have hok := Contents.isSuccess_perform s.entries a
      rw [← (Locked.call_eq undo s.entries hk).1] at hok
      change ((Locked.collection UInt64 UInt64).call undo s.entries a).1 = _ at he
      rw [he] at hok
      cases hok
  commit {undo s m₀ m} _ e he := by
    rw [commit_eq f undo s] at he
    split at he <;> cases he

end Faulty

end TxnBench
