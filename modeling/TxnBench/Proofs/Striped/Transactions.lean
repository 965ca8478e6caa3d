import TxnBench.Proofs.Histories
import TxnBench.Proofs.Striped.Soundness

/-!
# What an open transaction knows

`Tracks place s₀ calls t` says that the transaction `t`, which began in the state `s₀`, has made the calls `calls`: it has
read the stripes of their keys and holds their writes, and on every plain map that agrees with `s₀` on those stripes the
calls answer as they did and leave that map with the writes laid over it. Reads alone thus say what the transaction depends
on.

A call either meets a stripe that has changed since `s₀` and does nothing, or answers as `s₀` under the writes held has it,
and is tracked (`Live.call`). A commit that publishes does so from a state that agrees with `s₀` on everything read, so
the calls can be replayed there (`Live.replays_written`).
-/

namespace TxnBench.Striped

variable {K V : Type} [Ord K] [Std.TransOrd K] {n : Nat}

namespace Txn

/-- The transaction, with a stripe noted as read. -/
def noted (t : Txn K V n) (i : Fin n) : Txn K V n :=
  { t with readSet := t.readSet.insert i }

/-- The transaction, with what there is to write to a key held for it. -/
def holding (t : Txn K V n) (k : K) : Option (Option V) → Txn K V n
  | none => t
  | some v => { t with writeSet := t.writeSet.insert k v }

omit [Std.TransOrd K] in
theorem noted_of_mem [Std.LawfulEqOrd K] {t : Txn K V n} {i : Fin n} (h : i ∈ t.readSet) : t.noted i = t := by
  obtain ⟨began, readSet, writeSet⟩ := t
  have hset : readSet.insert i = readSet := by
    apply Std.ExtTreeSet.ext_mem
    intro j
    simp only [Std.ExtTreeSet.mem_insert, Std.compare_eq_iff_eq]
    exact ⟨fun hj => hj.elim (fun e => e ▸ h) id, Or.inr⟩
  rw [noted, hset]

@[simp] theorem began_holding (t : Txn K V n) (k : K) (w : Option (Option V)) : (t.holding k w).began = t.began := by
  cases w <;> rfl

@[simp] theorem readSet_holding (t : Txn K V n) (k : K) (w : Option (Option V)) :
    (t.holding k w).readSet = t.readSet := by
  cases w <;> rfl

theorem mem_writeSet_holding [Std.LawfulEqOrd K] (t : Txn K V n) (k k' : K) (w : Option (Option V)) :
    k' ∈ (t.holding k w).writeSet ↔ (k = k' ∧ w.isSome = true) ∨ k' ∈ t.writeSet := by
  cases w with
  | none => simp [holding]
  | some v => simp [holding, Std.ExtTreeMap.mem_insert]

/-- To hold a write and lay all over a map is to write last. -/
theorem overlay_holding [Std.LawfulEqOrd K] [DecidableEq K] (t : Txn K V n) (m : Contents K V) (k : K)
    (w : Option (Option V)) :
    m.overlay (t.holding k w).writeSet =
      (w.map ((m.overlay t.writeSet).write k)).getD (m.overlay t.writeSet) := by
  cases w with
  | none => rfl
  | some v => exact m.overlay_insert t.writeSet k v

end Txn

variable (place : K → Fin n)

/-- A call on a key reads it, and holds what there is to write. -/
theorem call_eq (t : Txn K V n) (s : Striped K V n) {a : Action K V} {k : K} (ha : a.key? = some k) :
    (collection place).call t s a =
      match read place t s k with
      | (.value previous, t) => (a.answer previous, t.holding k (a.write? previous), s)
      | (.abort why, t) => (.aborted why, t, s)
      | (.fault f, t) => (.faulted f, t, s) := by
  obtain ⟨reply, t', hr⟩ : ∃ reply t', read place t s k = (reply, t') := ⟨_, _, rfl⟩
  rw [hr]
  cases a with
  | start | commit | drop => cases ha
  | get | contains =>
    cases ha
    cases reply <;> simp only [Collection.call, Collection.contains, collection, hr] <;> rfl
  | put | remove =>
    cases ha
    cases reply with
    | value previous =>
      cases previous <;> simp only [Collection.call, collection, put, remove, hr] <;> rfl
    | abort | fault =>
      simp only [Collection.call, collection, put, remove, hr]
      rfl

/-- What is read at a key: a write held for it, or else its stripe, unless that has changed since the transaction began. -/
theorem read_cases {s : Striped K V n} (h : Sound place s) (t : Txn K V n) (k : K) :
    (∃ held, t.writeSet[k]? = some held ∧ read place t s k = (.value held, t)) ∨
    (t.writeSet[k]? = none ∧ t.began < (s.word (place k)).version ∧
      read place t s k = (.abort (.readConflict (place k)), t)) ∨
    (t.writeSet[k]? = none ∧ (s.word (place k)).version ≤ t.began ∧
      read place t s k = (.value (s.find place k), t.noted (place k))) := by
  cases hk : t.writeSet[k]? with
  | some held =>
    left
    exact ⟨held, rfl, by simp only [read, hk]⟩
  | none =>
    right
    by_cases hv : t.began < (s.word (place k)).version
    · left
      have hstale := (h.isStale_iff (place k) t.began).mpr hv
      exact ⟨rfl, hv, by simp only [read, hk, hstale, if_true]⟩
    · right
      have hfresh : (s.word (place k)).isStale t.began = false :=
        Bool.eq_false_iff.mpr fun hs => hv ((h.isStale_iff (place k) t.began).mp hs)
      refine ⟨rfl, Nat.le_of_not_lt hv, ?_⟩
      simp only [read, hk, hfresh, Bool.false_eq_true, if_false]
      rfl

/-! ## Transactions with their calls -/

/-- `t` began in the state `s₀` and has made the calls `calls`. -/
structure Tracks (s₀ : Striped K V n) (calls : List (Call K V)) (t : Txn K V n) : Prop where
  began : t.began = s₀.clock
  /-- The stripes read are those of the keys called upon. -/
  mem_readSet : ∀ i, i ∈ t.readSet ↔ ∃ c ∈ calls, ∃ k, c.action.key? = some k ∧ place k = i
  /-- The keys written are those that a call wrote to. -/
  mem_writeSet : ∀ k, k ∈ t.writeSet ↔ ∃ c ∈ calls, c.action.key? = some k ∧ c.writes = true
  /-- The calls depend on the stripes read only, and do what is held. -/
  replays : ∀ m : Contents K V, (∀ k, place k ∈ t.readSet → m[k]? = s₀.contents[k]?) →
    Replays m calls (m.overlay t.writeSet)

namespace Tracks

variable {place} [Std.LawfulEqOrd K] [DecidableEq K] {s₀ s : Striped K V n} {calls : List (Call K V)} {t : Txn K V n}

/-- A transaction that has just begun has made no calls. -/
theorem start (s₀ : Striped K V n) : Tracks place s₀ [] s₀.start where
  began := rfl
  mem_readSet i := by simp [Striped.start]
  mem_writeSet k := by simp [Striped.start]
  replays m _ := by simp [Striped.start, Replays]

omit [Std.LawfulEqOrd K] [DecidableEq K] in
/-- Every key written lies in a stripe that was read. -/
theorem covered (h : Tracks place s₀ calls t) {k : K} (hk : k ∈ t.writeSet) : place k ∈ t.readSet := by
  obtain ⟨c, hc, hck, -⟩ := (h.mem_writeSet k).mp hk
  exact (h.mem_readSet _).mpr ⟨c, hc, k, hck, rfl⟩

omit [Std.LawfulEqOrd K] [DecidableEq K] in
/-- A transaction has nothing to write exactly if no call of it wrote. -/
theorem writeSet_eq_empty (h : Tracks place s₀ calls t) : t.writeSet = ∅ ↔ calls.any Call.writes = false := by
  rw [Std.ExtTreeMap.eq_empty_iff_forall_not_mem, List.any_eq_false]
  constructor
  · intro hw c hc hcw
    obtain ⟨k, hk⟩ := Call.exists_key_of_writes hcw
    exact hw k ((h.mem_writeSet k).mpr ⟨c, hc, hk, hcw⟩)
  · intro hc k hk
    obtain ⟨c, hcm, -, hcw⟩ := (h.mem_writeSet k).mp hk
    exact hc c hcm hcw

/-- One more call, which answers as what the transaction began with has it under the writes held. -/
theorem extend (h : Tracks place s₀ calls t) {a : Action K V} {k : K} (ha : a.key? = some k) {previous : Option V}
    (hp : previous = (s₀.contents.overlay t.writeSet)[k]?) :
    Tracks place s₀ (calls ++ [⟨a, a.answer previous⟩]) ((t.noted (place k)).holding k (a.write? previous)) where
  began := by
    rw [Txn.began_holding]
    exact h.began
  mem_readSet i := by
    have hi : i ∈ t.readSet.insert (place k) ↔ place k = i ∨ i ∈ t.readSet := by
      rw [Std.ExtTreeSet.mem_insert, Std.compare_eq_iff_eq]
    rw [Txn.readSet_holding]
    refine hi.trans ?_
    simp only [h.mem_readSet i, List.mem_append, List.mem_singleton, or_and_right, exists_or, exists_eq_left, ha,
      Option.some.injEq, exists_eq_left']
    exact or_comm
  mem_writeSet k' := by
    rw [Txn.mem_writeSet_holding]
    change _ ∨ k' ∈ t.writeSet ↔ _
    simp only [h.mem_writeSet k', List.mem_append, List.mem_singleton, or_and_right, exists_or, exists_eq_left, ha,
      Option.some.injEq, Call.writes_answer ha]
    exact or_comm
  replays m hm := by
    have hsub : ∀ i ∈ t.readSet, i ∈ ((t.noted (place k)).holding k (a.write? previous)).readSet := fun i hi => by
      rw [Txn.readSet_holding]
      exact Std.ExtTreeSet.mem_insert.mpr (Or.inr hi)
    have hself : place k ∈ ((t.noted (place k)).holding k (a.write? previous)).readSet := by
      rw [Txn.readSet_holding]
      exact Std.ExtTreeSet.mem_insert_self
    have hread : (m.overlay t.writeSet)[k]? = previous := by
      rw [hp, Contents.getElem?_overlay, Contents.getElem?_overlay, hm k hself]
    have hstep := Replays.single (m.overlay t.writeSet) ha
    rw [hread] at hstep
    rw [Txn.overlay_holding]
    exact (h.replays m fun k' hk' => hm k' (hsub _ hk')).append hstep

end Tracks

/-! ## Transactions in the states they go through -/

/-- The transaction `t` is open in the state `s`: it began in a sound state before `s`, and its calls are tracked. -/
structure Live (s₀ : Striped K V n) (calls : List (Call K V)) (t : Txn K V n) (s : Striped K V n) : Prop where
  origin : Sound place s₀
  later : Later s₀ s
  tracks : Tracks place s₀ calls t

namespace Live

variable {place} [Std.LawfulEqOrd K] [DecidableEq K] {s₀ s s' : Striped K V n} {calls : List (Call K V)}
  {t : Txn K V n}

theorem start (h : Sound place s) : Live place s [] s.start s :=
  ⟨h, Later.refl s, Tracks.start s⟩

omit [Std.LawfulEqOrd K] [DecidableEq K] in
/-- Whatever others do, an open transaction stays what it is. -/
theorem mono (h : Live place s₀ calls t s) (hl : Later s s') : Live place s₀ calls t s' :=
  ⟨h.origin, h.later.trans hl, h.tracks⟩

/-- What an open transaction sees at a key: its own write, or what was there when it began. -/
theorem call (h : Live place s₀ calls t s) (hs : Sound place s) {a : Action K V} {k : K} (ha : a.key? = some k) :
    (k ∉ t.writeSet ∧ s₀.clock < (s.word (place k)).version ∧
      (collection place).call t s a = (.aborted (.readConflict (place k)), t, s)) ∨
    ((k ∈ t.writeSet ∨ (s.word (place k)).version ≤ s₀.clock) ∧ ∃ t',
      (collection place).call t s a = (a.answer (s₀.contents.overlay t.writeSet)[k]?, t', s) ∧
      Live place s₀ (calls ++ [⟨a, a.answer (s₀.contents.overlay t.writeSet)[k]?⟩]) t' s) := by
  have hext := h.tracks.extend ha rfl
  rw [call_eq place t s ha]
  rcases read_cases place hs t k with ⟨held, hk, hr⟩ | ⟨hk, hv, hr⟩ | ⟨hk, hv, hr⟩
  · right
    have hmem : k ∈ t.writeSet := Contents.mem_of_getElem? hk
    have hseen : (s₀.contents.overlay t.writeSet)[k]? = held := by
      rw [Contents.getElem?_overlay, hk, Option.getD_some]
    rw [hseen, Txn.noted_of_mem (h.tracks.covered hmem)] at hext
    rw [hr, hseen]
    exact ⟨Or.inl hmem, _, rfl, h.origin, h.later, hext⟩
  · left
    rw [h.tracks.began] at hv
    rw [hr]
    refine ⟨fun hmem => ?_, hv, rfl⟩
    rw [Std.ExtTreeMap.mem_iff_isSome_getElem?, hk] at hmem
    cases hmem
  · right
    rw [h.tracks.began] at hv
    have hseen : (s₀.contents.overlay t.writeSet)[k]? = s.find place k := by
      rw [Contents.getElem?_overlay, hk, Option.getD_none, ← h.later.getElem?_contents h.origin hs hv,
        hs.getElem?_contents]
    rw [hseen] at hext
    rw [hr, hseen]
    exact ⟨Or.inr hv, _, rfl, h.origin, h.later, hext⟩

/-- When a commit validates, everything read is as it was when the transaction began. -/
theorem agrees (h : Live place s₀ calls t s) (hs : Sound place s) (ho : s.outdated t = none) :
    ∀ k, place k ∈ t.readSet → s.contents[k]? = s₀.contents[k]? := by
  intro k hk
  apply h.later.getElem?_contents h.origin hs
  unfold outdated at ho
  split at ho
  · rename_i hclock
    rw [← h.tracks.began, ← hclock]
    exact hs.version_le (place k)
  · have hfresh := List.find?_eq_none.mp ho (place k) (Std.ExtTreeSet.mem_toList.mpr hk)
    rw [hs.isStale_iff, h.tracks.began] at hfresh
    exact Nat.le_of_not_lt hfresh

/-- When a commit validates, the calls of the transaction can be replayed where it publishes. -/
theorem replays_written (h : Live place s₀ calls t s) (hs : Sound place s) (ho : s.outdated t = none) :
    Replays s.contents calls (s.written place t).contents := by
  rw [hs.contents_written]
  exact h.tracks.replays _ (h.agrees hs ho)

/-- A transaction that has nothing to write can be replayed where it began. -/
theorem replays_start (h : Live place s₀ calls t s) (hw : t.writeSet = ∅) : Replays s₀.contents calls s₀.contents := by
  have hr := h.tracks.replays s₀.contents fun _ _ => rfl
  rwa [hw, Contents.overlay_empty] at hr

end Live

end TxnBench.Striped
