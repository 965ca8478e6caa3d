import TxnBench.Proofs.Populate
import TxnBench.Proofs.Sequential.Batches

/-!
# Populating a collection that no one else uses

The open transaction of a populate sees the map with the entries put so far. So either all entries drawn are kept in the end,
and the count is by how many the map has grown, or one of them or the commit is turned down, and the map is as it was before
(`Unbroken.populate`). A collection that refuses nothing keeps them.
-/

namespace TxnBench

/-- Insertions take no key away. -/
theorem Attempt.removals_callsOf_of_insert {made : List (Task × Answer UInt64)} (h : ∀ e ∈ made, e.1.kind = .insert) :
    removals (callsOf made) = 0 := by
  rw [removals, List.countP_eq_zero]
  intro call hcall
  obtain ⟨e, he, rfl⟩ := List.mem_map.mp hcall
  rw [Task.action_of_insert (h e he)]
  exact Bool.false_ne_true

/-- There are no more insertions than there are calls. -/
theorem Attempt.insertions_callsOf_le (made : List (Task × Answer UInt64)) : insertions (callsOf made) ≤ made.length := by
  have hle := List.countP_le_length (p := Call.inserts) (l := callsOf made)
  rwa [callsOf, List.length_map] at hle

namespace Sequential

variable {C : Collection UInt64 UInt64} {Q : Sequential C} {s s' : C.State} {t t' : C.Txn} {m₀ m : Contents UInt64 UInt64}

/-- A put is turned down, if it does not go through, and changes nothing of what is seen. -/
theorem Unbroken.put_of_halt (hQ : Q.Unbroken) (h : Q.Runs t s m₀ m) {k v : UInt64} {reply : Reply (Option UInt64)} {e : Halt}
    (hput : C.put t s k v = (reply, t', s')) (he : reply.halt? = some e) :
    (∃ why, e = .failed (.populate why)) ∧ Q.Runs t' s' m₀ m ∧ ¬Q.Steady := by
  have hcall : C.call t s (.put k v) = (.ofValue reply, t', s') := by
    simp only [Collection.call, hput]
  cases reply with
  | value previous => cases he
  | fault f => exact absurd (congrArg Prod.fst hcall) (hQ.call h rfl f)
  | abort why =>
    cases he
    refine ⟨⟨why, rfl⟩, call_of_refusal h (k := k) rfl hcall rfl, ?_⟩
    intro hsteady
    have hok := hsteady.call h (a := .put k v) rfl
    rw [hcall] at hok
    cases hok

/-- A commit is turned down, if it does not go through, and leaves what there was before. -/
theorem Unbroken.commit_of_halt (hQ : Q.Unbroken) (h : Q.Runs t s m₀ m) {reply : Reply Unit} {e : Halt}
    (hcommit : C.commit t s = (reply, s')) (he : reply.halt? = some e) :
    (∃ why, e = .failed (.populate why)) ∧ Q.Rests s' m₀ ∧ ¬Q.Steady := by
  cases reply with
  | value => cases he
  | fault f => exact absurd (congrArg Prod.fst hcommit) (hQ.commit h f)
  | abort why =>
    cases he
    refine ⟨⟨why, rfl⟩, commit_of_refusal h hcommit nofun, ?_⟩
    intro hsteady
    cases (congrArg Prod.fst hcommit).symm.trans (hsteady.commit h)

/-- A populate either keeps all entries, and counts by how many the map has grown, or is turned down and changes nothing. -/
theorem Unbroken.of_outcome (hQ : Q.Unbroken) {n : Nat} {tried : List Task} {result : Except Halt UInt64} (h : Q.Rests s m)
    (hkinds : ∀ task ∈ tried, task.kind = .insert) (ho : Populate.Outcome C n s tried result s') :
    (∃ count, result = .ok count ∧ tried.length = n ∧ count.toNat ≤ n ∧ Q.Rests s' (m.performAll (tried.map Task.action)) ∧
        (m.performAll (tried.map Task.action)).size = m.size + count.toNat) ∨
      ∃ why, result = .error (.failed (.populate why)) ∧ Q.Rests s' m ∧ ¬Q.Steady := by
  cases ho with
  | @keep made t s₁ s' count opened all counted committed =>
    obtain ⟨seen, hruns, hreplays⟩ := runs_of_opened h opened
    have hnone : removals (Attempt.callsOf made) = 0 :=
      Attempt.removals_callsOf_of_insert fun e he => hkinds e.1 (List.mem_map_of_mem he)
    have hsize := hreplays.size
    have hle := Attempt.insertions_callsOf_le made
    have hseen := hreplays.eq_performAll
    rw [Attempt.map_action_callsOf] at hseen
    rw [← hseen]
    exact Or.inl ⟨count, rfl, by rw [List.length_map, all], by omega, commit_of_value hruns committed, by omega⟩
  | discard opened all committed halts =>
    obtain ⟨seen, hruns, -⟩ := runs_of_opened h opened
    obtain ⟨⟨why, rfl⟩, hrests, hnot⟩ := hQ.commit_of_halt hruns committed halts
    exact Or.inr ⟨why, rfl, hrests, hnot⟩
  | refuse opened within called halts =>
    obtain ⟨seen, hruns, -⟩ := runs_of_opened h opened
    obtain ⟨⟨why, rfl⟩, hruns', hnot⟩ := hQ.put_of_halt hruns called halts
    exact Or.inr ⟨why, rfl, Q.drop hruns', hnot⟩

/-- Populating either keeps all entries drawn, and counts by how many the map has grown, or is turned down and changes
nothing. -/
theorem Unbroken.populate (hQ : Q.Unbroken) {G : Type} [Source G] {range : KeyRange} {n : UInt64} {g g' : G}
    {entries : List Task} (h : Q.Rests s m)
    (hdraw : Task.drawAll range (List.replicate n.toNat .insert) g = some (entries, g')) :
    (∃ count s', TxnBench.populate C n range s g = (.ok count, s', g') ∧
        Q.Rests s' (m.performAll (entries.map Task.action)) ∧
        (m.performAll (entries.map Task.action)).size = m.size + count.toNat ∧ count.toNat ≤ n.toNat) ∨
      ∃ why s' g₁, TxnBench.populate C n range s g = (.error (.failed (.populate why)), s', g₁) ∧ Q.Rests s' m ∧
        ¬Q.Steady := by
  obtain ⟨tried, houtcome, htried⟩ := Populate.exists_outcome C s hdraw
  have hkinds : ∀ task ∈ tried, task.kind = .insert := Task.kind_of_drawAll_insert htried
  rcases hran : TxnBench.populate C n range s g with ⟨result, s', g₁⟩
  rw [hran] at houtcome htried
  rcases hQ.of_outcome h hkinds houtcome with ⟨count, rfl, hall, hle, hrests, hsize⟩ | ⟨why, rfl, hrests, hnot⟩
  · rw [hall] at htried
    cases hdraw.symm.trans htried
    exact Or.inl ⟨count, s', rfl, hrests, hsize, hle⟩
  · exact Or.inr ⟨why, s', g₁, rfl, hrests, hnot⟩

/-- Populating a collection that refuses nothing goes through. -/
theorem Steady.exists_populate (hQ : Q.Steady) {G : Type} [Source G] {range : KeyRange} {n : UInt64} {g g' : G}
    {entries : List Task} (h : Q.Rests s m)
    (hdraw : Task.drawAll range (List.replicate n.toNat .insert) g = some (entries, g')) :
    ∃ count, (TxnBench.populate C n range s g).1 = .ok count := by
  rcases hQ.unbroken.populate h hdraw with ⟨count, s', hran, -⟩ | ⟨why, s', g₁, -, -, hnot⟩
  · exact ⟨count, congrArg Prod.fst hran⟩
  · exact absurd hQ hnot

end Sequential

end TxnBench
