import Mathlib.Data.Finset.Card
import Mathlib.Data.Finset.Dedup
import TxnBench.Proofs.Sequential.KeptBatches
import TxnBench.Proofs.Sequential.Populate

/-!
# The new keys among those drawn

Entries drawn for a collection at rest may have keys that it holds already, and may have one key many times. If they are all
put, it has the keys it had and those drawn, so it grows by the distinct keys drawn that were new (`Contents.size_insertions`),
and that is what a populate counts (`AtRest.populates_atomically`).
-/

namespace TxnBench

namespace Contents

variable {K V : Type} [Ord K] [Std.TransOrd K] [Std.LawfulEqOrd K]

/-- Calls on other keys leave a key as it is. -/
theorem getElem?_performAll_of_ne [DecidableEq K] (m : Contents K V) {calls : List (Action K V)} {k : K}
    (h : ∀ a ∈ calls, a.key? ≠ some k) : (m.performAll calls)[k]? = m[k]? := by
  induction calls generalizing m with
  | nil => rfl
  | cons a rest ih =>
    have hrest := ih (m.perform a).2 fun b hb => h b (List.mem_cons_of_mem a hb)
    exact hrest.trans (m.getElem?_perform_of_ne (h a List.mem_cons_self))

omit [Std.LawfulEqOrd K] in
/-- The number of entries is that of the keys. -/
theorem card_keys [DecidableEq K] (m : Contents K V) : m.keys.toFinset.card = m.size := by
  rw [List.toFinset_card_of_nodup Std.ExtTreeMap.nodup_keys, Std.ExtTreeMap.length_keys]

end Contents

section Insertions

variable {tasks : List Task}

/-- The keys there are after insertions are those there were and those inserted. -/
theorem Contents.mem_insertions (hkinds : ∀ task ∈ tasks, task.kind = .insert) (m : Contents UInt64 UInt64) (k : UInt64) :
    k ∈ m.performAll (tasks.map Task.action) ↔ k ∈ m ∨ k ∈ tasks.map Task.key := by
  induction tasks generalizing m with
  | nil => simp [performAll]
  | cons task rest ih =>
    have hstep : m.performAll ((task :: rest).map Task.action) =
        Contents.performAll (m.insert task.key task.value) (rest.map Task.action) := by
      rw [List.map_cons, Task.action_of_insert (hkinds task List.mem_cons_self)]
      rfl
    have hinsert : k ∈ Std.ExtTreeMap.insert m task.key task.value ↔ task.key = k ∨ k ∈ m := by
      rw [Std.ExtTreeMap.mem_insert, Std.compare_eq_iff_eq]
    rw [hstep, ih (fun task' h => hkinds task' (List.mem_cons_of_mem task h)), hinsert, List.map_cons, List.mem_cons]
    constructor
    · rintro ((rfl | h) | h)
      · exact Or.inr (Or.inl rfl)
      · exact Or.inl h
      · exact Or.inr (Or.inr h)
    · rintro (h | rfl | h)
      · exact Or.inl (Or.inr h)
      · exact Or.inl (Or.inl rfl)
      · exact Or.inr h

/-- After insertions there are more entries by as many as there are distinct keys among them that were new. -/
theorem Contents.size_insertions (hkinds : ∀ task ∈ tasks, task.kind = .insert) (m : Contents UInt64 UInt64) :
    (m.performAll (tasks.map Task.action)).size =
      m.size + ((tasks.map Task.key).toFinset.filter fun k => m[k]? = none).card := by
  have hkeys : (m.performAll (tasks.map Task.action)).keys.toFinset = (tasks.map Task.key).toFinset ∪ m.keys.toFinset := by
    ext k
    rw [Finset.mem_union, List.mem_toFinset, List.mem_toFinset, List.mem_toFinset, Std.ExtTreeMap.mem_keys,
      Std.ExtTreeMap.mem_keys, mem_insertions hkinds, or_comm]
  have hnew : (tasks.map Task.key).toFinset.filter (fun k => m[k]? = none) =
      (tasks.map Task.key).toFinset \ m.keys.toFinset := by
    ext k
    rw [Finset.mem_filter, Finset.mem_sdiff, List.mem_toFinset (l := m.keys), Std.ExtTreeMap.mem_keys,
      Std.ExtTreeMap.mem_iff_isSome_getElem?, Option.not_isSome_iff_eq_none]
  rw [← card_keys, hkeys, ← Finset.card_sdiff_add_card, hnew, card_keys, Nat.add_comm]

/-- After insertions a key has the value inserted last. -/
theorem Contents.getElem?_insertions_of_last {before after : List Task} {task : Task} (hkind : task.kind = .insert)
    (hlast : ∀ later ∈ after, later.key ≠ task.key) (m : Contents UInt64 UInt64) :
    (m.performAll ((before ++ task :: after).map Task.action))[task.key]? = some task.value := by
  have hsplit : m.performAll ((before ++ task :: after).map Task.action) =
      Contents.performAll ((m.performAll (before.map Task.action)).insert task.key task.value) (after.map Task.action) := by
    rw [List.map_append, performAll_append, List.map_cons, Task.action_of_insert hkind]
    rfl
  rw [hsplit, getElem?_performAll_of_ne, Std.ExtTreeMap.getElem?_insert_self]
  intro a ha hkey
  obtain ⟨later, hlater, rfl⟩ := List.mem_map.mp ha
  rw [Task.key?_action] at hkey
  exact hlast later hlater (Option.some.inj hkey)

/-- Tasks leave a key as it is that none of them has. -/
theorem Contents.getElem?_performAll_action_of_ne (m : Contents UInt64 UInt64) {k : UInt64} (h : ∀ task ∈ tasks, task.key ≠ k) :
    (m.performAll (tasks.map Task.action))[k]? = m[k]? := by
  refine m.getElem?_performAll_of_ne ?_
  intro a ha hkey
  obtain ⟨task, htask, rfl⟩ := List.mem_map.mp ha
  rw [Task.key?_action] at hkey
  exact h task htask (Option.some.inj hkey)

end Insertions

namespace AtRest

variable {G : Type} [Source G]

/-- Populating a collection at rest counts the new keys, and is all or nothing. Let no draw for the `n` entries give up. If it goes
through, exactly `n` insertions were drawn; the count is the number of distinct keys drawn that the collection did not hold, and
the number of its entries has grown by that, like the size that it states; every key drawn has the last value drawn for it, and
every other key is as it was. If it fails, the entries are those there were before; and either a put was turned down and no task
was drawn after it, so as many as puts were made, or the commit was turned down after all `n`. The striped collection, with any
stripes, and the locked one never fail it. -/
theorem populates_atomically (n : UInt64) (range : KeyRange) {drawn : List Task} {g g' : G}
    (hdraw : Task.drawAll range (List.replicate n.toNat .insert) g = some (drawn, g')) :
    (∀ {C s m}, AtRest C s m →
      let ran := populate C n range s g
      (∀ k, C.find s k = m[k]?) ∧
      (∀ count, ran.1 = .ok count → ∃ left : Contents UInt64 UInt64, (∀ k, C.find ran.2.1 k = left[k]?) ∧
        drawn.length = n.toNat ∧ (∀ task ∈ drawn, task.kind = .insert) ∧ ran.2.2 = g' ∧
        count.toNat = ((drawn.map Task.key).toFinset.filter fun k => m[k]? = none).card ∧
        left.size = m.size + count.toNat ∧ C.size ran.2.1 = C.size s + count ∧
        (∀ before task after, drawn = before ++ task :: after → (∀ later ∈ after, later.key ≠ task.key) →
          left[task.key]? = some task.value) ∧
        ∀ k, (∀ task ∈ drawn, task.key ≠ k) → left[k]? = m[k]?) ∧
      ∀ e, ran.1 = .error e → (∀ k, C.find ran.2.1 k = m[k]?) ∧ C.size ran.2.1 = C.size s ∧
        ∃ why, e = .failed (.populate why) ∧
          ((∃ made task t s₁ t' s', Worker.Opened C 0 s made t s₁ ∧
              C.put t s₁ task.key task.value = (.abort why, t', s') ∧ made.map Prod.fst ++ [task] <+: drawn ∧
              Task.drawAll range (List.replicate (made.length + 1) .insert) g = some (made.map Prod.fst ++ [task], ran.2.2)) ∨
            ∃ made t s₁ s', Worker.Opened C 0 s made t s₁ ∧ C.commit t s₁ = (.abort why, s') ∧
              made.map Prod.fst = drawn ∧ ran.2.2 = g')) ∧
    (∀ {stripes : Nat} (place : UInt64 → Fin stripes) (before : List (Nat × Action UInt64 UInt64)),
      ∃ count, (populate (Striped.collection place) n range
        (Session.quietAfter (Striped.collection place) before).state g).1 = .ok count) ∧
    ∀ m : Contents UInt64 UInt64, ∃ count, (populate (Locked.collection UInt64 UInt64) n range m g).1 = .ok count := by
  have hkinds := Task.kind_of_drawAll_insert hdraw
  have hlength : drawn.length = n.toNat := by
    simpa using congrArg List.length (Task.map_kind_of_drawAll hdraw)
  refine ⟨?_, fun place before => ?_, fun m => ?_⟩
  · intro C s m h
    obtain ⟨Q, offset, hQ, hrests, hstated⟩ := h.exists_unbroken
    dsimp only
    refine ⟨Q.find hrests, ?_⟩
    rcases hQ.populate hrests hdraw with ⟨count, s', hran, hrests', hsize, -⟩ | ⟨why, s', g₁, hran, hrests', -⟩
    · rw [hran]
      refine ⟨?_, nofun⟩
      intro _ hcount
      cases hcount
      have hnew := Contents.size_insertions hkinds m
      refine ⟨_, Q.find hrests', hlength, hkinds, rfl, by omega, hsize, ?_, ?_, fun k => m.getElem?_performAll_action_of_ne⟩
      · rw [hstated hrests', hstated hrests, hsize, UInt64.ofNat_add, UInt64.ofNat_toNat]
        ac_rfl
      · rintro before task after rfl hlast
        exact Contents.getElem?_insertions_of_last (hkinds task (by simp)) hlast m
    · have hlast := Populate.of_failed hdraw (congrArg Prod.fst hran)
      rw [hran] at hlast ⊢
      refine ⟨nofun, ?_⟩
      intro _ he
      cases he
      exact ⟨Q.find hrests', by rw [hstated hrests', hstated hrests], why, rfl, hlast⟩
  · exact (Striped.steady place).exists_populate ⟨Striped.sound_quietAfter before, rfl⟩ hdraw
  · exact Locked.steady.exists_populate rfl hdraw

/-- Two of the five keys drawn come twice and one is there already, so two are counted; and where the second put is turned down,
the first is undone and the other three tasks are not drawn. -/
theorem repeated_keys_count_once :
    let range : KeyRange := ⟨1, 8, by decide⟩
    let g : Stepping := ⟨0, 0x5555555555555556⟩
    let m : Contents UInt64 UInt64 := Contents.performAll ∅ [.put 3 30, .put 7 70]
    let kept := populate (Locked.collection UInt64 UInt64) 5 range m g
    let f : Failures := { poison := 6, offset := 100 }
    let failed := populate (Faulty.collection f) 5 range ⟨m, 1⟩ g
    ∃ drawn g', Task.drawAll range (List.replicate 5 .insert) g = some (drawn, g') ∧
      (kept.1 = .ok 2 ∧ kept.2.2 = g' ∧ drawn.map Task.key = [1, 6, 3, 1, 6] ∧
        (2 : UInt64).toNat = ((drawn.map Task.key).toFinset.filter fun k => m[k]? = none).card ∧
        (Locked.collection UInt64 UInt64).find kept.2.1 1 = some 0x555555555555555A ∧
        (Locked.collection UInt64 UInt64).find kept.2.1 7 = some 70) ∧
      failed.1 = .error (.failed (.populate (.readConflict 6))) ∧ failed.2.2.value = 4 * g.step ∧
        ∀ k, (Faulty.collection f).find failed.2.1 k = m[k]? := by
  intro range g m kept f failed
  have hdraws : (Task.drawAll range (List.replicate 5 .insert) g).isSome := by decide +kernel
  obtain ⟨⟨drawn, g'⟩, hdraw⟩ := Option.isSome_iff_exists.mp hdraws
  have hkeys : (Task.drawAll range (List.replicate 5 .insert) g).map (fun d => d.1.map Task.key) = some [1, 6, 3, 1, 6] := by
    decide +kernel
  rw [hdraw] at hkeys
  obtain ⟨hrest, -, -⟩ := populates_atomically 5 range hdraw
  obtain ⟨-, hkept, -⟩ := hrest (.locked m)
  obtain ⟨-, -, hfailed⟩ := hrest (.faulty f rfl m 1)
  obtain ⟨left, -, -, -, hsource, hcount, -⟩ := hkept 2 (by decide +kernel)
  obtain ⟨hfind, -⟩ := hfailed (.failed (.populate (.readConflict 6))) (by decide +kernel)
  exact ⟨drawn, g', hdraw, ⟨by decide +kernel, hsource, Option.some.inj hkeys, hcount, by decide +kernel, by decide +kernel⟩,
    by decide +kernel, by decide +kernel, hfind⟩

end AtRest

end TxnBench
