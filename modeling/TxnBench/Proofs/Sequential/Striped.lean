import TxnBench.Proofs.Sequential.UndoLog
import TxnBench.Proofs.Striped.Sessions

/-!
# The striped collection without overlap

A transaction that overlaps no other began at the time of the clock, and no stripe has a version after that, so nothing it
reads is stale and its commit validates: the striped collection refuses it nothing. What it sees is the entries under the
writes it holds (`Striped.sequential`). The striped and the locked collection can thus stand in for each other as long as
transactions run one after another (`Striped.interchangeable`).
-/

namespace TxnBench.Striped

variable {K V : Type} [Ord K] [Std.TransOrd K] [Std.LawfulEqOrd K] [DecidableEq K] {n : Nat} (place : K → Fin n)
  {s : Striped K V n} {t : Txn K V n}

variable {place} in
/-- A call of a transaction that began at the time of the clock is answered as what it sees has it, and what it writes is
written there. -/
theorem call_of_began (hs : Sound place s) (hb : t.began = s.clock) {a : Action K V} {k : K} (hk : a.key? = some k) :
    ∃ t', (collection place).call t s a = (((s.contents.overlay t.writeSet).perform a).1, t', s) ∧ t'.began = s.clock ∧
      s.contents.overlay t'.writeSet = ((s.contents.overlay t.writeSet).perform a).2 := by
  have hcall := call_eq place t s hk
  rw [Contents.perform_answer _ hk, Contents.perform_write _ hk]
  rcases read_cases place hs t k with ⟨held, hw, hr⟩ | ⟨-, hv, -⟩ | ⟨hw, -, hr⟩
  · have hseen : (s.contents.overlay t.writeSet)[k]? = held := by
      rw [Contents.getElem?_overlay, hw, Option.getD_some]
    rw [hr] at hcall
    rw [hseen]
    refine ⟨_, hcall, (Txn.began_holding ..).trans hb, ?_⟩
    rw [Txn.overlay_holding]
  · have hle := hs.version_le (place k)
    omega
  · have hseen : (s.contents.overlay t.writeSet)[k]? = s.find place k := by
      rw [Contents.getElem?_overlay, hw, Option.getD_none, hs.getElem?_contents]
    rw [hr] at hcall
    rw [hseen]
    refine ⟨_, hcall, (Txn.began_holding ..).trans hb, ?_⟩
    rw [Txn.overlay_holding]
    rfl

variable {place} in
/-- A commit of a transaction that began at the time of the clock goes through and leaves what the transaction sees. -/
theorem commit_of_began (hs : Sound place s) (hb : t.began = s.clock) :
    ((collection place).commit t s).1 = .value () ∧ Sound place ((collection place).commit t s).2 ∧
      contents (n := n) ((collection place).commit t s).2 = s.contents.overlay t.writeSet := by
  rcases commit_cases hs t with ⟨hw, hc⟩ | ⟨-, i, ho, -⟩ | ⟨-, -, hc⟩
  · rw [hc, hw, Contents.overlay_empty]
    exact ⟨rfl, hs, rfl⟩
  · rw [outdated, if_pos hb.symm] at ho
    cases ho
  · rw [hc]
    exact ⟨rfl, hs.written t, hs.contents_written t⟩

/-- The striped collection is a plain map, of which an open transaction sees the entries under its writes. -/
def sequential : Sequential (collection (V := V) place) where
  Rests s m := Sound place s ∧ contents (n := n) s = m
  Runs t s m₀ m := Sound place s ∧ Txn.began (n := n) t = clock (n := n) s ∧ contents (n := n) s = m₀ ∧
    (contents (n := n) s).overlay (Txn.writeSet (n := n) t) = m
  start {s m} h := ⟨h.1, rfl, h.2, (Contents.overlay_empty _).trans h.2⟩
  call {t s m₀ m a k} h hk := by
    obtain ⟨hs, hb, rfl, rfl⟩ := h
    obtain ⟨t', hcall, hb', hseen⟩ := call_of_began hs hb hk
    rw [hcall]
    exact Or.inl ⟨rfl, hs, hb', rfl, hseen⟩
  commit {t s m₀ m} h := by
    obtain ⟨hs, hb, rfl, rfl⟩ := h
    exact Or.inl (commit_of_began hs hb)
  drop h := ⟨h.1, h.2.2.1⟩
  find {s m} h k := by
    obtain ⟨hs, rfl⟩ := h
    exact (hs.getElem?_contents k).symm

/-- The striped collection refuses nothing to transactions that do not overlap. -/
theorem steady : (sequential (V := V) place).Steady where
  call {t s m₀ m a} h hk := by
    obtain ⟨k, hk⟩ := Option.isSome_iff_exists.mp hk
    obtain ⟨t', hcall, -⟩ := call_of_began h.1 h.2.1 hk
    rw [hcall]
    exact Contents.isSuccess_perform _ a
  commit h := (commit_of_began h.1 h.2.1).1

theorem truthful : (sequential (V := V) place).Truthful := by
  rintro s m ⟨hs, rfl⟩
  exact congrArg UInt64.ofNat hs.size_contents.symm

/-! ## The striped and the locked collection -/

/-- The transaction that puts entries and commits. -/
def filling (entries : List (K × V)) : Transaction K V where
  calls := entries.map fun e => .put e.1 e.2
  onKeys a ha := by
    obtain ⟨e, -, rfl⟩ := List.mem_map.mp ha
    rfl
  commits := true

/-- To put the entries of a map where there are none gives the map. -/
theorem after_filling (m : Contents K V) : (filling m.toList).after ∅ = m := by
  have hwrites : ∀ (m₀ : Contents K V) (entries : List (K × V)),
      m₀.performAll (entries.map fun e => .put e.1 e.2) = m₀.writeAll (entries.map fun e => (e.1, some e.2)) := by
    intro m₀ entries
    induction entries generalizing m₀ with
    | nil => rfl
    | cons e rest ih => exact ih _
  unfold Transaction.after filling
  rw [if_pos rfl, hwrites]
  apply Std.ExtTreeMap.ext_getElem?
  intro k
  cases hk : m[k]? with
  | some v =>
    have hmem : (k, v) ∈ m.toList := Std.ExtTreeMap.mem_toList_iff_getElem?_eq_some.mpr hk
    refine Contents.getElem?_writeAll_of_mem ∅ ?_ (List.mem_map.mpr ⟨(k, v), hmem, rfl⟩)
    exact List.pairwise_map.mpr (Contents.pairwise_toList_ne m)
  | none =>
    rw [Contents.getElem?_writeAll_of_not_mem]
    · exact Std.ExtTreeMap.getElem?_empty
    · intro w hw e
      obtain ⟨e', he', rfl⟩ := List.mem_map.mp hw
      have hfound := Std.ExtTreeMap.mem_toList_iff_getElem?_eq_some.mp he'
      rw [show e'.1 = k from e, hk] at hfound
      cases hfound

theorem rests_empty : (sequential (V := V) place).Rests (empty K V n) ∅ :=
  ⟨sound_empty place, contents_empty place⟩

/-- A quiet striped collection can hold any entries. -/
theorem exists_quiet_with_contents (m : Contents K V) :
    ∃ before : List (Nat × Action K V), contents (n := n) (Session.quietAfter (collection place) before).state = m := by
  obtain ⟨s, hperform, -, hcontents⟩ := (steady place).transaction 0 (filling m.toList) (rests_empty place)
  refine ⟨(filling m.toList).steps 0, ?_⟩
  have hfresh : Session.fresh (collection (V := V) place) Nat = ⟨empty K V n, []⟩ := rfl
  unfold Session.quietAfter
  rw [hfresh, hperform]
  exact hcontents.trans (after_filling m)

variable {Name : Type} [DecidableEq Name]

/-- The striped and the locked collection are interchangeable as long as transactions do not overlap. Let the striped
collection be in any state in which a schedule has left it, which may hold any entries, and the locked collection hold the
same entries, and let any transactions run on both, one after another. Every step goes through, and is answered by both as
by a plain map; and in the end both hold the entries of the plain map on which the calls of the transactions that committed
were carried out in order, and state their number. -/
theorem interchangeable :
    (∀ m : Contents K V, ∃ before : List (Nat × Action K V),
      contents (n := n) (Session.quietAfter (collection place) before).state = m) ∧
    ∀ (before : List (Name × Action K V)) (txns : List (Name × Transaction K V)),
      let σ := Session.quietAfter (collection (V := V) place) before
      let m : Contents K V := contents (n := n) σ.state
      let striped := σ.performAll (serially txns)
      let locked := (⟨m, []⟩ : Session (Locked.collection K V) Name).performAll (serially txns)
      let left : Contents K V := m.performAll ((txns.filter fun x => x.2.commits).flatMap fun x => x.2.calls)
      (striped.1 = m.serialAnswers (txns.map Prod.snd) ∧ locked.1 = m.serialAnswers (txns.map Prod.snd)) ∧
        (∀ answer ∈ striped.1, answer.isSuccess) ∧
        (∀ k, (collection place).find striped.2.state k = left[k]? ∧
          (Locked.collection K V).find locked.2.state k = left[k]?) ∧
        (collection place).size striped.2.state = UInt64.ofNat left.size ∧
        (Locked.collection K V).size locked.2.state = UInt64.ofNat left.size := by
  refine ⟨exists_quiet_with_contents place, ?_⟩
  intro before txns σ m striped locked left
  have hleft : left = m.afterTransactions (txns.map Prod.snd) := by
    simp only [left, Contents.afterTransactions, List.filter_map, List.flatMap_map]
    rfl
  obtain ⟨s, hstriped, hs⟩ := (steady place).transactions txns (s := σ.state) (m := m) ⟨sound_quietAfter before, rfl⟩
  have hsame : (Locked.sequential K V).Rests m m := rfl
  obtain ⟨l, hlocked, hl⟩ := Locked.steady.transactions txns hsame
  rw [← hleft] at hs hl
  have hstriped : striped = (m.serialAnswers (txns.map Prod.snd), ⟨s, []⟩) := hstriped
  have hlocked : locked = (m.serialAnswers (txns.map Prod.snd), ⟨l, []⟩) := hlocked
  rw [hstriped, hlocked]
  refine ⟨⟨rfl, rfl⟩, ?_, ?_, truthful place hs, Locked.truthful hl⟩
  · intro answer h
    exact Contents.isSuccess_of_mem_serialAnswers h
  · intro k
    exact ⟨(sequential place).find hs k, (Locked.sequential K V).find hl k⟩

/-- A transaction writes a key twice and removes an absent one; the next removes a key and is dropped. Both collections answer
alike, and the key is there again. -/
theorem dropped_removal_comes_back :
    let place : UInt64 → Fin 2 := fun k => Fin.ofNat 2 k.toNat
    let before : List (Nat × Action UInt64 UInt64) := [(0, .start), (0, .put 1 10), (0, .commit)]
    let txns : List (Nat × Transaction UInt64 UInt64) :=
      [(0, ⟨[.put 2 20, .put 2 21, .remove 3, .get 2], by decide, true⟩),
        (1, ⟨[.remove 1, .contains 1], by decide, false⟩)]
    let σ := Session.quietAfter (collection (V := UInt64) place) before
    let striped := σ.performAll (serially txns)
    let locked :=
      (⟨contents (n := 2) σ.state, []⟩ : Session (Locked.collection UInt64 UInt64) Nat).performAll (serially txns)
    striped.1 = [.done, .value none, .value (some 20), .value none, .value (some 21), .done, .done, .value (some 10),
        .present false, .done] ∧
      locked.1 = striped.1 ∧ (collection place).find striped.2.state 1 = some 10 ∧
      (collection place).size striped.2.state = 2 := by
  intro place before txns σ striped locked
  obtain ⟨⟨hs, hl⟩, -⟩ := (interchangeable (V := UInt64) place).2 before txns
  exact ⟨by decide +kernel, hl.trans hs.symm, by decide +kernel, by decide +kernel⟩

end TxnBench.Striped
