import TxnBench.Proofs.Striped.Commit

/-!
# Sound states, and states later than others

Between calls nobody holds a stripe, no stripe has a version from the future, and every key lies in its own stripe: a state
like that is `Sound`. A commit leads from sound states to sound states, so all that transactions do to a collection can be
said of its entries taken together (`contents`), and a commit either leaves them as they are or lays its writes over them
(`commit_cases`).

`Later` relates a state to those that come after it. It is what makes a version mean something: a stripe whose version is no
later than the earlier state has not been touched since (`Later.getElem?_contents`).
-/

namespace TxnBench.Striped

variable {K V : Type} [Ord K] {n : Nat}

/-- `s'` comes after `s`: the clock has not gone back, and every stripe is as it was or has a version from after `s`. -/
structure Later (s s' : Striped K V n) : Prop where
  clock_le : s.clock ≤ s'.clock
  stripe : ∀ i, (s'.word i = s.word i ∧ s'.entries i = s.entries i) ∨ s.clock < (s'.word i).version

namespace Later

variable {s s' s'' : Striped K V n}

theorem refl (s : Striped K V n) : Later s s :=
  ⟨Nat.le_refl _, fun _ => Or.inl ⟨rfl, rfl⟩⟩

theorem trans (h : Later s s') (h' : Later s' s'') : Later s s'' := by
  refine ⟨Nat.le_trans h.clock_le h'.clock_le, ?_⟩
  intro i
  rcases h'.stripe i with ⟨hw', he'⟩ | hv'
  · rw [hw', he']
    exact h.stripe i
  · exact Or.inr (Nat.lt_of_le_of_lt h.clock_le hv')

/-- A tick of the clock comes after what was before it. -/
theorem ticked (s : Striped K V n) : Later s s.ticked :=
  ⟨Nat.le_succ _, fun _ => Or.inl ⟨rfl, rfl⟩⟩

end Later

variable [Std.TransOrd K]

/-- What holds between calls. -/
structure Sound (place : K → Fin n) (s : Striped K V n) : Prop where
  /-- Nobody holds a stripe. -/
  unlocked : ∀ i, (s.word i).locked = false
  /-- No stripe has a version from the future. -/
  version_le : ∀ i, (s.word i).version ≤ s.clock
  /-- Every key lies in its own stripe. -/
  home : ∀ {i k}, k ∈ s.entries i → place k = i

/-- In a sound state a stripe is stale exactly if it has changed after the time given. -/
theorem Sound.isStale_iff {place : K → Fin n} {s : Striped K V n} (h : Sound place s) (i : Fin n) (time : Nat) :
    (s.word i).isStale time = true ↔ time < (s.word i).version := by
  simp [StripeWord.isStale, h.unlocked i]

/-- All entries, whatever stripe they lie in. -/
def contents (s : Striped K V n) : Contents K V :=
  Std.ExtTreeMap.ofList ((List.finRange n).flatMap fun i => (s.entries i).toList) compare

theorem sound_empty (place : K → Fin n) : Sound place (empty K V n) where
  unlocked i := by simp [word, empty]
  version_le i := by simp [word, empty]
  home {i k} hk := by
    simp only [entries, empty, Fin.getElem_fin, Vector.getElem_replicate] at hk
    exact absurd hk Std.ExtTreeMap.not_mem_empty

theorem Sound.ticked {place : K → Fin n} {s : Striped K V n} (h : Sound place s) : Sound place s.ticked where
  unlocked := h.unlocked
  version_le i := Nat.le_succ_of_le (h.version_le i)
  home := h.home

/-! ## The state after a commit -/

section Written

variable (place : K → Fin n) (s : Striped K V n) (t : Txn K V n)

@[simp] theorem clock_written : (s.written place t).clock = s.clock + 1 := by
  simp [written, ticked]

/-- The stripes written to have the time of the commit, and the others the word they had. -/
theorem word_written (i : Fin n) :
    (s.written place t).word i = if i ∈ writeStripes place t then ⟨s.clock + 1, false⟩ else s.word i := by
  rw [written, word_release_withWords _ _ (nodup_writeStripes place t), word_writeAll]
  rfl

variable [Std.LawfulEqOrd K] [DecidableEq K]

/-- A stripe has its own keys as they were written, and the others as they were. -/
theorem getElem?_entries_written (i : Fin n) (k : K) :
    ((s.written place t).entries i)[k]? =
      if place k = i then t.writeSet[k]?.getD (s.entries i)[k]? else (s.entries i)[k]? := by
  rw [written, entries_release]
  exact getElem?_entries_writeAll place s.ticked (List.Perm.refl _) i k

/-- A stripe that is not written to has the entries it had. -/
theorem entries_written_of_not_mem {i : Fin n} (hi : i ∉ writeStripes place t) :
    (s.written place t).entries i = s.entries i := by
  apply Std.ExtTreeMap.ext_getElem?
  intro k
  rw [getElem?_entries_written]
  split
  · rename_i hp
    cases hk : t.writeSet[k]? with
    | none => rfl
    | some v =>
      have hmem : k ∈ t.writeSet := Contents.mem_of_getElem? hk
      exact absurd ((mem_writeStripes place).mpr ⟨k, hmem, hp⟩) hi
  · rfl

/-- What a commit publishes comes after what was before it. -/
theorem Later.written : Later s (s.written place t) := by
  refine ⟨by simp, ?_⟩
  intro i
  by_cases hi : i ∈ writeStripes place t
  · right
    rw [word_written, if_pos hi]
    exact Nat.lt_succ_self _
  · left
    rw [word_written, if_neg hi]
    exact ⟨rfl, entries_written_of_not_mem place s t hi⟩

variable {place s}

theorem Sound.written (h : Sound place s) : Sound place (s.written place t) where
  unlocked i := by
    rw [word_written]
    split
    · rfl
    · exact h.unlocked i
  version_le i := by
    rw [word_written, clock_written]
    split
    · exact Nat.le_refl _
    · exact Nat.le_succ_of_le (h.version_le i)
  home {i k} hk := by
    rw [Std.ExtTreeMap.mem_iff_isSome_getElem?, getElem?_entries_written] at hk
    split at hk
    · rename_i hp
      exact hp
    · exact h.home (Std.ExtTreeMap.mem_iff_isSome_getElem?.mpr hk)

end Written

/-! ## All entries together -/

section Contents

variable {place : K → Fin n} {s s' : Striped K V n}

/-- A tick of the clock changes no entry. -/
theorem contents_ticked (s : Striped K V n) : s.ticked.contents = s.contents :=
  rfl

omit [Std.TransOrd K] in
/-- The number of entries, stripe by stripe. -/
theorem size_eq_sum (s : Striped K V n) : s.size = ((List.finRange n).map fun i => (s.entries i).size).sum := by
  have hstripes : s.stripes.toList = (List.finRange n).map fun i => s.stripes[i] :=
    List.ext_getElem (by simp) fun i hi hi' => by simp
  rw [size, hstripes, List.sum, List.foldr_map, List.foldr_map]
  rfl

variable [Std.LawfulEqOrd K]

/-- The entries listed stripe by stripe. -/
theorem mem_listed {k : K} {v : V} :
    (k, v) ∈ ((List.finRange n).flatMap fun i => (s.entries i).toList) ↔ ∃ i, (s.entries i)[k]? = some v := by
  simp [Std.ExtTreeMap.mem_toList_iff_getElem?_eq_some]

/-- No key is listed twice, since it is listed only under its own stripe. -/
theorem Sound.pairwise_listed (h : Sound place s) :
    ((List.finRange n).flatMap fun i => (s.entries i).toList).Pairwise fun a b => ¬compare a.1 b.1 = .eq := by
  have hplace : ∀ i, ∀ x ∈ (s.entries i).toList, place x.1 = i := fun i x hx => by
    have hx' := Std.ExtTreeMap.mem_toList_iff_getElem?_eq_some.mp hx
    exact h.home (Contents.mem_of_getElem? hx')
  refine List.pairwise_flatMap.mpr ⟨fun i _ => Std.ExtTreeMap.distinct_keys_toList, ?_⟩
  refine (List.nodup_finRange n).imp fun {i j} hij x hx y hy e => hij ?_
  rw [← hplace i x hx, ← hplace j y hy, Std.compare_eq_iff_eq.mp e]

/-- The entries of a sound state are as many as it says. -/
theorem Sound.size_contents (h : Sound place s) : s.contents.size = s.size := by
  rw [contents, Std.ExtTreeMap.size_ofList h.pairwise_listed, List.length_flatMap, size_eq_sum]
  simp

variable [DecidableEq K]

/-- The entries of a sound state are what it finds at each key. -/
theorem Sound.getElem?_contents (h : Sound place s) (k : K) : s.contents[k]? = s.find place k := by
  change _ = (s.entries (place k))[k]?
  cases hk : (s.entries (place k))[k]? with
  | some v => exact Std.ExtTreeMap.getElem?_ofList_of_mem Std.compare_self h.pairwise_listed (mem_listed.mpr ⟨_, hk⟩)
  | none =>
    apply Std.ExtTreeMap.getElem?_ofList_of_contains_eq_false
    rw [List.contains_eq_mem, decide_eq_false_iff_not]
    intro hmem
    obtain ⟨⟨k', v⟩, hl, rfl⟩ := List.mem_map.mp hmem
    obtain ⟨i, hi⟩ := mem_listed.mp hl
    have hp : place k' = i := h.home (Contents.mem_of_getElem? hi)
    rw [hp, hi] at hk
    cases hk

/-- Stripes without entries hold the empty map. -/
theorem contents_empty (place : K → Fin n) : (empty K V n).contents = ∅ := by
  apply Std.ExtTreeMap.ext_getElem?
  intro k
  have hfind : (empty K V n).find place k = none := by
    simp [find, empty]
  rw [(sound_empty place).getElem?_contents, hfind, Std.ExtTreeMap.getElem?_empty]

/-- A commit lays its writes over the entries. -/
theorem Sound.contents_written (h : Sound place s) (t : Txn K V n) :
    (s.written place t).contents = s.contents.overlay t.writeSet := by
  apply Std.ExtTreeMap.ext_getElem?
  intro k
  rw [(h.written t).getElem?_contents, Contents.getElem?_overlay, h.getElem?_contents]
  exact (getElem?_entries_written place s t (place k) k).trans (if_pos rfl)

/-- A stripe whose version is no later than an earlier state has the entries it had there. -/
theorem Later.getElem?_contents (hl : Later s s') (h : Sound place s) (h' : Sound place s') {k : K}
    (hv : (s'.word (place k)).version ≤ s.clock) : s'.contents[k]? = s.contents[k]? := by
  rw [h.getElem?_contents, h'.getElem?_contents]
  rcases hl.stripe (place k) with ⟨-, he⟩ | hv'
  · exact congrArg (fun m : Contents K V => m[k]?) he
  · omega

end Contents

/-! ## The outcomes of a commit -/

/-- A commit from a sound state does nothing, or fails to validate, or publishes. -/
theorem commit_cases {place : K → Fin n} {s : Striped K V n} (h : Sound place s) (t : Txn K V n) :
    (t.writeSet = ∅ ∧ (collection place).commit t s = (.value (), s)) ∨
    (t.writeSet ≠ ∅ ∧ ∃ i, s.outdated t = some i ∧
      (collection place).commit t s = (.abort (.validation i), s.ticked)) ∨
    (t.writeSet ≠ ∅ ∧ s.outdated t = none ∧ (collection place).commit t s = (.value (), s.written place t)) := by
  have hfree : ((writeStripes place t).find? fun i => (s.word i).locked) = none :=
    List.find?_eq_none.mpr fun i _ => by simp [h.unlocked i]
  rw [commit_eq, hfree]
  by_cases he : t.writeSet = ∅
  · left
    exact ⟨he, if_pos (Std.ExtTreeMap.isEmpty_iff.mpr he)⟩
  · right
    rw [if_neg fun h => he (Std.ExtTreeMap.isEmpty_iff.mp h)]
    cases ho : s.outdated t with
    | some i => exact Or.inl ⟨he, i, rfl, rfl⟩
    | none => exact Or.inr ⟨he, rfl, rfl⟩

/-- A commit leads to a sound state that comes after the one before. -/
theorem Sound.commit [Std.LawfulEqOrd K] [DecidableEq K] {place : K → Fin n} {s : Striped K V n} (h : Sound place s)
    (t : Txn K V n) :
    Sound place ((collection place).commit t s).2 ∧ Later s ((collection place).commit t s).2 := by
  rcases commit_cases h t with ⟨-, hc⟩ | ⟨-, i, -, hc⟩ | ⟨-, -, hc⟩
  · rw [hc]
    exact ⟨h, Later.refl s⟩
  · rw [hc]
    exact ⟨h.ticked, Later.ticked s⟩
  · rw [hc]
    exact ⟨h.written t, Later.written place s t⟩

/-- The state that a commit has led to is sound and comes after the one before. -/
theorem Sound.of_commit [Std.LawfulEqOrd K] [DecidableEq K] {place : K → Fin n} {s s' : Striped K V n} (h : Sound place s)
    {t : Txn K V n} {reply : Reply Unit} (hc : (collection place).commit t s = (reply, s')) :
    Sound place s' ∧ Later s s' := by
  have hcommit := h.commit t
  rwa [hc] at hcommit

end TxnBench.Striped
