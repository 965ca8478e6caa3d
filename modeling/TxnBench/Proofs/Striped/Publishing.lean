import TxnBench.Proofs.Striped.Commit

/-!
# Publishing in any order

A commit goes through what it has to write in whatever order its writes happen to be held. No two of them are to the same key, so
each key of a stripe comes out the same in every order (`getElem?_entries_writeAll`), and a commit has one outcome
(`publishes_in_any_order`). Nothing is asked of the state: stripes may be held, and keys may lie where they do not belong.
-/

namespace TxnBench.Striped

variable {K V : Type} [Ord K] [Std.TransOrd K] {n : Nat}

/-- What a commit has yet to publish is what its transaction has to write. -/
theorem writes_of_ready {place : K → Fin n} {t : Txn K V n} {s s' : Striped K V n} {p : Pending K V n}
    (h : prepare place t s = .ready p s') : p.writes = t.writeSet.toList := by
  unfold prepare at h
  split at h
  · cases h
  · split at h
    · cases h
    · dsimp only at h
      split at h
      · cases h
      · cases h
        rfl

variable [Std.LawfulEqOrd K] [DecidableEq K] (place : K → Fin n)

/-- The writes of a map, carried out in two orders, lead to the same state. -/
theorem writeAll_eq_of_perm (s : Striped K V n) {w : Contents K (Option V)} {writes others : List (K × Option V)}
    (h : writes.Perm w.toList) (h' : others.Perm w.toList) : s.writeAll place writes = s.writeAll place others := by
  apply ext_stripes
  · rw [clock_writeAll, clock_writeAll]
  · intro i
    rw [word_writeAll, word_writeAll]
  · intro i
    apply Std.ExtTreeMap.ext_getElem?
    intro k
    rw [getElem?_entries_writeAll place s h, getElem?_entries_writeAll place s h']

/-- Publishing does not depend on the order of the writes. Whatever the state and whatever there is to write to whatever keys, any
two orders lead to the same state: in its own stripe, a key that is written has what there was to write, a value or none, and
everywhere else a stripe has what it had. So a commit whose writes are held in one order ends like one that holds them in
another. -/
theorem publishes_in_any_order (s : Striped K V n) (w : Contents K (Option V)) {writes others : List (K × Option V)}
    (h : writes.Perm w.toList) (h' : others.Perm w.toList) :
    let s' := s.writeAll place writes
    s' = s.writeAll place others ∧
      (∀ k v, w[k]? = some v → (s'.entries (place k))[k]? = v) ∧
      (∀ i k, k ∉ w ∨ place k ≠ i → (s'.entries i)[k]? = (s.entries i)[k]?) ∧
      ∀ t s₀ p, t.writeSet = w → prepare place t s₀ = .ready p s →
        (collection place).commit t s₀ = (.value (), publish place ⟨writes, p.held, p.time⟩ s) := by
  intro s'
  refine ⟨writeAll_eq_of_perm place s h h', ?_, fun i k hk => getElem?_entries_writeAll_of_not_mem place s h hk, ?_⟩
  · intro k v hk
    rw [getElem?_entries_writeAll place s h, if_pos rfl, hk, Option.getD_some]
  · rintro t s₀ p rfl hp
    have hwrites : p.writes.Perm t.writeSet.toList := List.Perm.of_eq (writes_of_ready hp)
    have hpublish : publish place p s = publish place ⟨writes, p.held, p.time⟩ s := by
      rw [publish, publish, writeAll_eq_of_perm place s hwrites h]
    exact (Collection.commit_of_ready hp).trans (congrArg _ hpublish)

/-- In one stripe a key comes and another goes, in the other stripe a value changes and a key goes, and a key that lies in the
wrong stripe stays there, whether this is done forwards or backwards. -/
theorem publishes_backwards :
    let place : Nat → Fin 2 := fun k => Fin.ofNat 2 k
    let s : Striped Nat Nat 2 := ⟨7, #v[⟨⟨3, true⟩, {(2, 2), (5, 5)}⟩, ⟨⟨5, false⟩, {(1, 1), (3, 3)}⟩]⟩
    let w : Contents Nat (Option Nat) := {(1, some 10), (2, none), (3, none), (4, some 40)}
    let s' := s.writeAll place w.toList.reverse
    w.toList.reverse ≠ w.toList ∧ s' = s.writeAll place w.toList ∧
      (s'.entries 0)[4]? = some 40 ∧ (s'.entries 0)[2]? = none ∧ (s'.entries 1)[1]? = some 10 ∧ (s'.entries 1)[3]? = none ∧
        (s'.entries 0)[5]? = some 5 := by
  intro place s w s'
  obtain ⟨horder, hwritten, hsame, -⟩ :=
    publishes_in_any_order place s w (List.reverse_perm w.toList) (List.Perm.refl w.toList)
  refine ⟨by decide +kernel, horder, ?_, ?_, ?_, ?_, ?_⟩
  · exact hwritten 4 (some 40) (by decide +kernel)
  · exact hwritten 2 none (by decide +kernel)
  · exact hwritten 1 (some 10) (by decide +kernel)
  · exact hwritten 3 none (by decide +kernel)
  · exact (hsame 0 5 (.inr (by decide))).trans (by decide +kernel)

end TxnBench.Striped
