import TxnBench.Proofs.Striped.Conflicts

/-!
# Writes covered by reads

A commit validates what its transaction has read, and that is enough to catch two transactions that write to the same stripe: every
key that a transaction is to write lies in a stripe that it has read. This holds of every open transaction in every state
(`writes_are_covered`), whatever calls of it were turned down.

A transaction that is to take a key away has called for its removal and was told a value, since a key that is there goes by a removal
only (`Replays.exists_removal`). A key comes by a put only, so unless the transaction had put it before, it was there when the
transaction began (`Replays.getElem?_of_removed`), and it still is as long as nobody has committed to its stripe.
-/

namespace TxnBench

section Replays

variable {K V : Type}

/-- A call that wrote to a key either put a value there or found one and took it away. -/
theorem Call.eq_of_writes {c : Call K V} {k : K} (hk : c.action.key? = some k) (hw : c.writes = true) :
    (∃ v, c.action = .put k v) ∨ ∃ v, c = ⟨.remove k, .value (some v)⟩ := by
  obtain ⟨a, answer⟩ := c
  cases a with
  | start | commit | drop | get | contains => cases hw
  | put k' v =>
    cases hk
    exact .inl ⟨v, rfl⟩
  | remove k' =>
    cases hk
    cases answer with
    | value found =>
      cases found with
      | none => cases hw
      | some v => exact .inr ⟨v, rfl⟩
    | done | present | aborted | faulted | unknown => cases hw

variable [Ord K] [Std.TransOrd K] [Std.LawfulEqOrd K] [DecidableEq K] {m m' : Contents K V} {k : K} {v : V}

/-- A key comes by a put only. -/
theorem Contents.getElem?_of_perform {a : Action K V} (ha : ∀ v', a ≠ .put k v') (h : (m.perform a).2[k]? = some v) :
    m[k]? = some v := by
  by_cases hkey : a.key? = some k
  · rw [m.getElem?_perform hkey] at h
    cases a with
    | start | commit | drop => cases hkey
    | get | contains => exact h
    | put k' v' =>
      cases hkey
      exact absurd rfl (ha v')
    | remove k' => cases hfound : m[k]? <;> rw [hfound] at h <;> cases h
  · rwa [m.getElem?_perform_of_ne hkey] at h

/-- A key that is there goes by a removal only. -/
theorem Contents.eq_remove_of_perform {a : Action K V} (hm : m[k]? = some v) (h : (m.perform a).2[k]? = none) :
    a = .remove k := by
  by_cases hkey : a.key? = some k
  · rw [m.getElem?_perform hkey, hm] at h
    cases a with
    | start | commit | drop => cases hkey
    | get | contains | put => cases h
    | remove k' =>
      cases hkey
      rfl
  · rw [m.getElem?_perform_of_ne hkey, hm] at h
    cases h

namespace Replays

variable {calls first rest : List (Call K V)}

/-- A key that is there first and not last was taken away by a removal that found it. -/
theorem exists_removal (h : Replays m calls m') (hm : m[k]? = some v) (hm' : m'[k]? = none) :
    ∃ v', ⟨.remove k, .value (some v')⟩ ∈ calls := by
  induction calls generalizing m v with
  | nil =>
    cases h
    cases hm.symm.trans hm'
  | cons c rest ih =>
    obtain ⟨hanswer, hrest⟩ := h
    cases hnext : (m.perform c.action).2[k]? with
    | some v' =>
      obtain ⟨found, hfound⟩ := ih hrest hnext
      exact ⟨found, List.mem_cons_of_mem c hfound⟩
    | none =>
      obtain ⟨a, answer⟩ := c
      obtain rfl : a = .remove k := Contents.eq_remove_of_perform hm hnext
      obtain rfl : .value m[k]? = answer := hanswer
      rw [hm]
      exact ⟨v, List.mem_cons_self⟩

/-- A key that a call puts and that is not there last was taken away by a removal that found it. -/
theorem exists_removal_of_put (h : Replays m calls m') (hm' : m'[k]? = none) {c : Call K V} (hc : c ∈ calls)
    (hput : c.action = .put k v) : ∃ v', ⟨.remove k, .value (some v')⟩ ∈ calls := by
  induction calls generalizing m with
  | nil => cases hc
  | cons c' rest ih =>
    obtain ⟨-, hrest⟩ := h
    obtain ⟨found, hfound⟩ : ∃ v', ⟨.remove k, .value (some v')⟩ ∈ rest := by
      rcases List.mem_cons.mp hc with rfl | hc
      · rw [hput] at hrest
        exact hrest.exists_removal (m.getElem?_perform rfl) hm'
      · exact ih hrest hc
    exact ⟨found, List.mem_cons_of_mem c' hfound⟩

/-- A value that a removal found, and that no call before it has put, was there from the first. -/
theorem getElem?_of_removed (h : Replays m (first ++ ⟨.remove k, .value (some v)⟩ :: rest) m')
    (hput : ∀ c ∈ first, ∀ v', c.action ≠ .put k v') : m[k]? = some v := by
  induction first generalizing m with
  | nil => exact Answer.value.inj h.1
  | cons c first ih =>
    have hlater := ih h.2 fun c' hc' => hput c' (List.mem_cons_of_mem c hc')
    exact Contents.getElem?_of_perform (hput c List.mem_cons_self) hlater

end Replays

end Replays

namespace Striped

variable {K V Name : Type} [Ord K] [Std.TransOrd K] [Std.LawfulEqOrd K] [DecidableEq K] [DecidableEq Name] {n : Nat}
  {place : K → Fin n}

/-- A transaction that is to take a key away has called for its removal and was told a value, which it had put before or which was
there when it began. -/
theorem Live.exists_removal {s₀ s : Striped K V n} {calls : List (Call K V)} {x : Txn K V n} (h : Live place s₀ calls x s) {k : K}
    (hk : x.writeSet[k]? = some none) :
    ∃ first v rest, calls = first ++ ⟨.remove k, .value (some v)⟩ :: rest ∧
      ((∃ c ∈ first, ∃ v', c.action = .put k v') ∨ s₀.contents[k]? = some v) := by
  have hreplay : Replays s₀.contents calls (s₀.contents.overlay x.writeSet) := h.tracks.replays _ fun _ _ => rfl
  have hgone : (s₀.contents.overlay x.writeSet)[k]? = none := by
    rw [Contents.getElem?_overlay, hk, Option.getD_some]
  have hmem : k ∈ x.writeSet := Contents.mem_of_getElem? hk
  obtain ⟨c, hc, hck, hw⟩ := (h.tracks.mem_writeSet k).mp hmem
  obtain ⟨v, hremoval⟩ : ∃ v, ⟨.remove k, .value (some v)⟩ ∈ calls := by
    rcases Call.eq_of_writes hck hw with ⟨v, hput⟩ | ⟨v, rfl⟩
    · exact hreplay.exists_removal_of_put hgone hc hput
    · exact ⟨v, hc⟩
  obtain ⟨first, rest, rfl⟩ := List.append_of_mem hremoval
  refine ⟨first, v, rest, rfl, ?_⟩
  by_cases hput : ∃ c ∈ first, ∃ v', c.action = .put k v'
  · exact .inl hput
  · exact .inr (hreplay.getElem?_of_removed fun c hc v' hput' => hput ⟨c, hc, v', hput'⟩)

/-- What was there when a transaction began is there as long as nobody has committed to the stripe of the key. -/
theorem Live.mem_contents {s₀ s : Striped K V n} {calls : List (Call K V)} {x : Txn K V n} (h : Live place s₀ calls x s)
    (hs : Sound place s) {k : K} {v : V} (hk : s₀.contents[k]? = some v) (hv : (s.word (place k)).version ≤ s₀.clock) :
    k ∈ s.contents := by
  rw [Std.ExtTreeMap.mem_iff_isSome_getElem?, h.later.getElem?_contents h.origin hs hv, hk]
  rfl

/-- What a transaction is to write is covered by what it has read. Take any schedule and any transaction `x` open at its end. Every
key that it is to write lies in a stripe that it has read. If it is to take a key away, and nobody has committed to the stripe of the
key since the transaction began, then a call of the transaction removed the key, and a call before that one had put it or the key is
still there. -/
theorem writes_are_covered (place : K → Fin n) (schedule : List (Name × Action K V)) :
    let now := ((Session.fresh (collection place) Name).performAll schedule).2
    ∀ t, ∀ x : Txn K V n, now.txn? t = some x →
      (∀ k ∈ x.writeSet, place k ∈ x.readSet) ∧
      ∃ before during, schedule = before ++ (t, .start) :: during ∧ (∀ step ∈ during, step.1 = t → step.2.key?.isSome) ∧
        let began := (((Session.fresh (collection place) Name).performAll before).2.perform t .start).2
        ∀ k, x.writeSet[k]? = some none → ¬CommitsTo place began during (place k) →
          ∃ first v rest, made t (began.events during) = first ++ ⟨.remove k, .value (some v)⟩ :: rest ∧
            ((∃ c ∈ first, ∃ v', c.action = .put k v') ∨ k ∈ contents (n := n) now.state) := by
  intro now t x hx
  have hnow : Sound place now.state := sound_performAll sound_fresh schedule
  obtain ⟨before, during, hschedule, hduring, hs, hsplit, hl⟩ := exists_live hx
  refine ⟨fun k hk => hl.tracks.covered hk, before, during, hschedule, hduring, ?_⟩
  intro began k hk hcommits
  rw [← clock_lt_version_iff hs, Nat.not_lt] at hcommits
  change now = _ at hsplit
  rw [← hsplit] at hcommits hl
  obtain ⟨first, v, rest, hcalls, hfound⟩ := hl.exists_removal hk
  exact ⟨first, v, rest, hcalls, hfound.imp_right fun hv => hl.mem_contents hnow hv hcommits⟩

/-- A transaction has put a key and taken it away again, has taken away a key that was there, and has removed one that was not. Others
have committed to a further stripe, so a read there is turned down. Both removals are held, of keys in stripes that were read: the one
key was put before, and the other is still there. -/
theorem held_removals_are_covered :
    let place : Nat → Fin 3 := fun k => Fin.ofNat 3 k
    let before : List (Nat × Action Nat Nat) := [(0, .start), (0, .put 2 20), (0, .commit)]
    let during : List (Nat × Action Nat Nat) :=
      [(1, .put 1 10), (1, .remove 1), (1, .remove 2), (1, .remove 4), (2, .start), (2, .put 3 30), (2, .commit), (1, .get 6)]
    let began := (((Session.fresh (collection place) Nat).performAll before).2.perform 1 .start).2
    let now := ((Session.fresh (collection place) Nat).performAll (before ++ (1, .start) :: during)).2
    ∃ x : Txn Nat Nat 3, now.txn? 1 = some x ∧
      (∀ k, k = 1 ∨ k = 2 → x.writeSet[k]? = some none ∧ place k ∈ x.readSet ∧ ¬CommitsTo place began during (place k) ∧
        ∃ first v rest, made 1 (began.events during) = first ++ ⟨.remove k, .value (some v)⟩ :: rest ∧
          ((∃ c ∈ first, ∃ v', c.action = .put k v') ∨ k ∈ contents (n := 3) now.state)) ∧
      1 ∉ contents (n := 3) now.state ∧ 2 ∈ contents (n := 3) now.state := by
  intro place before during began now
  obtain ⟨x, hx⟩ : ∃ x : Txn Nat Nat 3, now.txn? 1 = some x := Option.isSome_iff_exists.mp (by decide +kernel)
  obtain ⟨hcovered, before', during', hsplit, -, hremovals⟩ :=
    writes_are_covered place (before ++ (1, .start) :: during) 1 x hx
  obtain ⟨rfl, -, rfl⟩ := (List.append_cons_inj_of_notMem (by decide) (by decide)).mp hsplit
  have hheld : ∀ k, k = 1 ∨ k = 2 → x.writeSet[k]? = some none := by
    have hall : ∀ k, k = 1 ∨ k = 2 → ((now.txn? 1).bind fun y : Txn Nat Nat 3 => y.writeSet[k]?) = some none := by
      rintro k (rfl | rfl) <;> decide +kernel
    intro k hk
    have h := hall k hk
    rw [hx] at h
    exact h
  have hcommits : ∀ k, k = 1 ∨ k = 2 → ¬CommitsTo place began during (place k) := by
    intro k hk
    rw [← clock_lt_version_iff (sound_performAll sound_fresh before) 1 during]
    rcases hk with rfl | rfl <;> decide +kernel
  refine ⟨x, hx, fun k hk => ?_, by decide +kernel, by decide +kernel⟩
  have hmem : k ∈ x.writeSet := Contents.mem_of_getElem? (hheld k hk)
  exact ⟨hheld k hk, hcovered k hmem, hcommits k hk, hremovals k (hheld k hk) (hcommits k hk)⟩

end Striped

end TxnBench
