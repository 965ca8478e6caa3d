import Mathlib.Order.Bounds.Basic
import Mathlib.Order.Fin.Basic
import Mathlib.Order.WellFounded
import TxnBench.Proofs.Striped.Sessions

/-!
# Conflicts on the striped collection

A transaction is turned down exactly when others have got in its way since it began. `CommitsTo σ schedule i` says that, in
the course of a schedule, a transaction with a write to stripe `i` commits. From the time a transaction begins, a stripe has
a version from after that time exactly if such a commit went through (`clock_lt_version_iff`), so what a transaction
compares times for is what others have done (`turned_down_iff`).

Since no state between calls has a version from its future, a commit that finds the clock where its transaction began has
nothing to validate: to skip that changes nothing (`prepare_eq_validating`).
-/

namespace TxnBench.Striped

variable {K V Name : Type} [Ord K] [Std.TransOrd K] [DecidableEq Name] {n : Nat} {place : K → Fin n}

/-! ## The stripe that fails -/

/-- The first stripe of a set that has a property is the least that has it. -/
theorem find?_toList_eq_some_iff {r : Std.ExtTreeSet (Fin n) compare} {p : Fin n → Bool} {i : Fin n} :
    r.toList.find? p = some i ↔ IsLeast {i | i ∈ r ∧ p i = true} i := by
  have least : ∀ {i}, r.toList.find? p = some i → IsLeast {i | i ∈ r ∧ p i = true} i := fun {i} h => by
    obtain ⟨hp, first, rest, hl, hfirst⟩ := List.find?_eq_some_iff_append.mp h
    refine ⟨⟨Std.ExtTreeSet.mem_toList.mp (List.mem_of_find?_eq_some h), hp⟩, ?_⟩
    rintro j ⟨hj, hpj⟩
    have hmem : j ∈ first ++ i :: rest := hl ▸ Std.ExtTreeSet.mem_toList.mpr hj
    have hordered : (first ++ i :: rest).Pairwise fun a b => compare a b = .lt := hl ▸ Std.ExtTreeSet.ordered_toList
    rcases List.mem_append.mp hmem with hj | hj
    · have := hfirst j hj
      rw [hpj] at this
      cases this
    · rcases List.mem_cons.mp hj with rfl | hj
      · exact le_refl _
      · have hlt := (List.pairwise_cons.mp (List.pairwise_append.mp hordered).2.1).1 j hj
        exact Nat.le_of_lt (Nat.compare_eq_lt.mp hlt)
  refine ⟨least, ?_⟩
  intro h
  cases hf : r.toList.find? p with
  | none => exact absurd h.1.2 (List.find?_eq_none.mp hf i (Std.ExtTreeSet.mem_toList.mpr h.1.1))
  | some j => rw [(least hf).unique h]

/-- Among stripes there is a least that has a property, if any has it. -/
theorem exists_isLeast {p : Fin n → Prop} (h : ∃ i, p i) : ∃ i, IsLeast {i | p i} i :=
  ⟨wellFounded_lt.min _ h, wellFounded_lt.min_mem _ h, fun _ hj => wellFounded_lt.min_le hj⟩

/-- The stripe that a commit from a sound state names is the least of those read that have changed since the transaction
began. -/
theorem Sound.outdated_eq_some_iff {s : Striped K V n} (h : Sound place s) {t : Txn K V n} {i : Fin n} :
    s.outdated t = some i ↔ IsLeast {i | i ∈ t.readSet ∧ t.began < (s.word i).version} i := by
  unfold outdated
  split
  · rename_i hclock
    apply iff_of_false nofun
    intro hi
    have hle := h.version_le i
    have hlt := hi.1.2
    omega
  · rw [find?_toList_eq_some_iff]
    simp only [h.isStale_iff]

/-! ## The validation that is skipped -/

/-- The first half of a commit as it would be if it always validated. -/
def prepareValidating (place : K → Fin n) (t : Txn K V n) (s : Striped K V n) : Prepared (Pending K V n) (Striped K V n) :=
  if t.writeSet.isEmpty then .settled (.value ()) s
  else
    match s.acquire [] (writeStripes place t) with
    | (s, held, some i) => .settled (.abort (.lockBusy i)) (s.release held)
    | (s, held, none) =>
      let time := s.clock + 1
      let s := { s with clock := time }
      match s.invalid t held with
      | some i => .settled (.abort (.validation i)) (s.release held)
      | none => .ready ⟨t.writeSet.toList, held, time⟩ s

/-- From a sound state, the validation that is skipped would have found nothing. -/
theorem prepare_eq_validating {s : Striped K V n} (h : Sound place s) (t : Txn K V n) :
    prepare place t s = prepareValidating place t s := by
  have hfree := s.acquire_of_unlocked (nodup_writeStripes place t) fun i _ => h.unlocked i
  have hnothing : s.clock + 1 = t.began + 1 → ({ s.lockAll (writeStripes place t) with clock := s.clock + 1 }).invalid t
      (withWords s.word (writeStripes place t)) = none := fun hclock => by
    have hword := s.wordBefore_of_unlocked place t fun i _ => h.unlocked i
    apply List.find?_eq_none.mpr
    intro i _ hstale
    have hlt := (h.isStale_iff i t.began).mp ((congrArg (·.isStale t.began) (hword i)).symm.trans hstale)
    have hle := h.version_le i
    omega
  unfold prepare prepareValidating
  split
  · rfl
  · simp only [hfree, clock_lockAll]
    by_cases hclock : s.clock + 1 = t.began + 1
    · simp only [hclock, if_true] at hnothing ⊢
      rw [hnothing trivial]
    · simp only [hclock, if_false]
      cases Striped.invalid _ t (withWords s.word (writeStripes place t)) <;> rfl

/-! ## What others have committed -/

/-- In the course of a schedule, a transaction that has a write to stripe `i` commits. -/
def CommitsTo (place : K → Fin n) (σ : Session (collection (V := V) place) Name) (schedule : List (Name × Action K V))
    (i : Fin n) : Prop :=
  ∃ first u rest, ∃ x : Txn K V n, schedule = first ++ (u, .commit) :: rest ∧ (σ.performAll first).2.txn? u = some x ∧
    (∃ k ∈ x.writeSet, place k = i) ∧ ((σ.performAll first).2.perform u .commit).1 = .done

/-- The calls read stripe `i`. -/
def ReadFrom (place : K → Fin n) (calls : List (Call K V)) (i : Fin n) : Prop :=
  ∃ c ∈ calls, ∃ k, c.action.key? = some k ∧ place k = i

variable {σ : Session (collection (V := V) place) Name}

theorem not_commitsTo_nil (i : Fin n) : ¬CommitsTo place σ [] i := by
  rintro ⟨first, u, rest, x, h, -⟩
  simp at h

/-- A schedule commits to a stripe with its first action or with the rest. -/
theorem commitsTo_cons (u : Name) (a : Action K V) (rest : List (Name × Action K V)) (i : Fin n) :
    CommitsTo place σ ((u, a) :: rest) i ↔ CommitsTo place σ [(u, a)] i ∨ CommitsTo place (σ.perform u a).2 rest i := by
  constructor
  · rintro ⟨first, v, last, x, hsplit, hx, hk, ha⟩
    cases first with
    | nil =>
      cases hsplit
      exact Or.inl ⟨[], u, [], x, rfl, hx, hk, ha⟩
    | cons step first =>
      obtain ⟨rfl, rfl⟩ := List.cons.inj hsplit
      exact Or.inr ⟨first, v, last, x, rfl, hx, hk, ha⟩
  · rintro (⟨first, v, last, x, hsplit, hx, hk, ha⟩ | ⟨first, v, last, x, rfl, hx, hk, ha⟩)
    · cases first with
      | nil =>
        cases hsplit
        exact ⟨[], u, rest, x, rfl, hx, hk, ha⟩
      | cons step first => simp at hsplit
    · exact ⟨(u, a) :: first, v, last, x, rfl, hx, hk, ha⟩

/-- A schedule of one action commits to a stripe if it is a commit that goes through. -/
theorem commitsTo_singleton {u : Name} {a : Action K V} {i : Fin n} :
    CommitsTo place σ [(u, a)] i ↔
      a = .commit ∧ (∃ x : Txn K V n, σ.txn? u = some x ∧ ∃ k ∈ x.writeSet, place k = i) ∧ (σ.perform u a).1 = .done := by
  constructor
  · rintro ⟨first, v, last, x, hsplit, hx, hk, ha⟩
    cases first with
    | nil =>
      cases hsplit
      exact ⟨rfl, ⟨x, hx, hk⟩, ha⟩
    | cons step first => simp at hsplit
  · rintro ⟨rfl, ⟨x, hx, hk⟩, ha⟩
    exact ⟨[], u, [], x, rfl, hx, hk, ha⟩

variable [Std.LawfulEqOrd K]

/-- A commit moves the version of a stripe past a time that has been exactly if it goes through and has a write to the
stripe. -/
theorem lt_version_commit_iff {s : Striped K V n} (h : Sound place s) (x : Txn K V n) (i : Fin n) {time : Nat}
    (htime : time ≤ s.clock) :
    time < (word (n := n) ((collection place).commit x s).2 i).version ↔
      time < (s.word i).version ∨
        (∃ k ∈ x.writeSet, place k = i) ∧ ((collection place).commit x s).1 = .value () := by
  rcases commit_cases h x with ⟨hw, hc⟩ | ⟨-, j, -, hc⟩ | ⟨-, -, hc⟩
  · have hnone : ¬∃ k ∈ x.writeSet, place k = i := by simp [hw]
    rw [hc]
    exact ⟨Or.inl, fun h => h.elim id fun h => absurd h.1 hnone⟩
  · rw [hc]
    exact ⟨Or.inl, fun h => h.elim id fun h => by cases h.2⟩
  · rw [hc]
    change time < ((s.written place x).word i).version ↔ _
    rw [word_written, ← mem_writeStripes place]
    split
    · rename_i hi
      exact iff_of_true (Nat.lt_succ_of_le htime) (Or.inr ⟨hi, rfl⟩)
    · rename_i hi
      exact ⟨Or.inl, fun h => h.elim id fun h => absurd h.1 hi⟩

variable [DecidableEq K]

/-- One action moves the version of a stripe past a time that has been exactly if it commits to the stripe. -/
theorem lt_version_perform_iff (hs : Sound place σ.state) (u : Name) (a : Action K V) (i : Fin n) {time : Nat}
    (htime : time ≤ clock (n := n) σ.state) :
    time < (word (n := n) (σ.perform u a).2.state i).version ↔
      time < (word (n := n) σ.state i).version ∨ CommitsTo place σ [(u, a)] i := by
  by_cases ha : a = .commit
  · subst ha
    rcases Option.eq_none_or_eq_some (σ.txn? u : Option (Txn K V n)) with hx | ⟨x, hx⟩
    · have hstate : (σ.perform u .commit).2 = σ := by rw [σ.perform_of_none hx .commit nofun]
      have hnone : ¬CommitsTo place σ [(u, .commit)] i := fun h => by
        obtain ⟨-, ⟨x, hx', -⟩, -⟩ := commitsTo_singleton.mp h
        cases hx.symm.trans hx'
      rw [hstate]
      exact ⟨Or.inl, fun h => h.resolve_right hnone⟩
    · have hdone : (∃ y : Txn K V n, σ.txn? u = some y ∧ ∃ k ∈ y.writeSet, place k = i) ↔ ∃ k ∈ x.writeSet, place k = i :=
        ⟨fun ⟨y, hy, h⟩ => by cases hx.symm.trans hy; exact h, fun h => ⟨x, hx, h⟩⟩
      have hreply : Answer.ofUnit (V := V) ((collection place).commit x σ.state).1 = .done ↔
          ((collection place).commit x σ.state).1 = .value () := by
        cases ((collection place).commit x σ.state).1 <;> simp [Answer.ofUnit]
      rw [commitsTo_singleton, hdone, σ.perform_commit hx, hreply]
      exact (lt_version_commit_iff hs x i htime).trans (by simp)
  · have hnone : ¬CommitsTo place σ [(u, a)] i := fun h => ha (commitsTo_singleton.mp h).1
    rw [state_perform u ha]
    exact ⟨Or.inl, fun h => h.resolve_right hnone⟩

/-- A run moves the version of a stripe past a time that has been exactly if it commits to the stripe. -/
theorem lt_version_performAll_iff (hs : Sound place σ.state) (schedule : List (Name × Action K V)) (i : Fin n) {time : Nat}
    (htime : time ≤ clock (n := n) σ.state) :
    time < (word (n := n) (σ.performAll schedule).2.state i).version ↔
      time < (word (n := n) σ.state i).version ∨ CommitsTo place σ schedule i := by
  induction schedule generalizing σ with
  | nil => exact ⟨Or.inl, fun h => h.resolve_right (not_commitsTo_nil i)⟩
  | cons step rest ih =>
    obtain ⟨u, a⟩ := step
    obtain ⟨hs', hlater⟩ := sound_perform hs u a
    rw [Session.performAll_cons, ih hs' (Nat.le_trans htime hlater.clock_le), lt_version_perform_iff hs u a i htime,
      commitsTo_cons u a rest i, or_assoc]

/-- From the beginning of a transaction, a stripe has a version from after it exactly if others commit to the stripe. -/
theorem clock_lt_version_iff (hs : Sound place σ.state) (t : Name) (schedule : List (Name × Action K V)) (i : Fin n) :
    clock (n := n) σ.state < (word (n := n) ((σ.perform t .start).2.performAll schedule).2.state i).version ↔
      CommitsTo place (σ.perform t .start).2 schedule i := by
  rw [lt_version_performAll_iff (sound_perform hs t .start).1 schedule i (Nat.le_refl (clock (n := n) σ.state))]
  exact ⟨fun h => h.resolve_left (Nat.not_lt.mpr (hs.version_le i)), Or.inr⟩

/-! ## What is turned down -/

omit [Std.LawfulEqOrd K] [DecidableEq K] in
/-- No call and no commit meets a stripe that is held. -/
theorem perform_ne_lockBusy (hs : Sound place σ.state) (u : Name) (a : Action K V) (i : Nat) :
    (σ.perform u a).1 ≠ .aborted (.lockBusy i) := by
  by_cases ha : a = .start
  · subst ha
    nofun
  rcases Option.eq_none_or_eq_some (σ.txn? u : Option (Txn K V n)) with hx | ⟨x, hx⟩
  · rw [σ.perform_of_none hx a ha]
    nofun
  cases hk : a.key? with
  | some k =>
    rw [σ.perform_call hx (by rw [hk]; rfl)]
    change ((collection place).call x σ.state a).1 ≠ _
    rw [call_eq place x σ.state hk]
    rcases read_cases place hs x k with ⟨held, -, hr⟩ | ⟨-, -, hr⟩ | ⟨-, -, hr⟩
    · rw [hr]
      exact fun e => by cases a <;> cases e
    · rw [hr]
      nofun
    · rw [hr]
      exact fun e => by cases a <;> cases e
  | none =>
    cases a with
    | get | contains | put | remove => cases hk
    | start => exact absurd rfl ha
    | drop =>
      rw [σ.perform_drop hx]
      nofun
    | commit =>
      rcases perform_commit_cases hs hx with ⟨-, hd, -⟩ | ⟨-, j, -, hd, -⟩ | ⟨-, -, hd, -⟩ <;>
      · rw [hd]
        nofun

/-- A call of an open transaction is turned down exactly if it has to read a stripe that has changed since the transaction
began. -/
theorem call_aborted_iff (hs : Sound place σ.state) {t : Name} {x : Txn K V n} {s₀ : Striped K V n}
    {calls : List (Call K V)} (hx : σ.txn? t = some x) (h : Live place s₀ calls x σ.state) {a : Action K V} {k : K}
    (hk : a.key? = some k) (why : Abort) :
    (σ.perform t a).1 = .aborted why ↔
      (k ∉ x.writeSet ∧ s₀.clock < (word (n := n) σ.state (place k)).version) ∧ why = .readConflict (place k) := by
  rcases live_perform_call hs hx h hk with ⟨hw, hv, ha, -⟩ | ⟨hor, ha, -⟩
  · rw [ha, Answer.aborted.injEq]
    exact ⟨fun e => ⟨⟨hw, hv⟩, e.symm⟩, fun e => e.2.symm⟩
  · rw [ha]
    constructor
    · intro e
      have hok := Action.isSuccess_answer a (s₀.contents.overlay x.writeSet)[k]?
      rw [e] at hok
      cases hok
    · rintro ⟨⟨hw, hv⟩, -⟩
      rcases hor with hmem | hle
      · exact absurd hmem hw
      · exact absurd hv (Nat.not_lt.mpr hle)

omit [Std.LawfulEqOrd K] [DecidableEq K] in
/-- A commit is turned down exactly if the transaction writes and a stripe that it has read has changed since it began; it
names the least of these. -/
theorem commit_aborted_iff (hs : Sound place σ.state) {t : Name} {x : Txn K V n} (hx : σ.txn? t = some x) (why : Abort) :
    (σ.perform t .commit).1 = .aborted why ↔
      x.writeSet ≠ ∅ ∧
        ∃ i, IsLeast {i | i ∈ x.readSet ∧ x.began < (word (n := n) σ.state i).version} i ∧ why = .validation i := by
  rcases perform_commit_cases hs hx with ⟨hw, ha, -⟩ | ⟨hw, j, ho, ha, -⟩ | ⟨-, ho, ha, -⟩
  · rw [ha]
    exact iff_of_false nofun fun h => h.1 hw
  · have hj := hs.outdated_eq_some_iff.mp ho
    rw [ha, Answer.aborted.injEq]
    constructor
    · intro e
      exact ⟨hw, j, hj, e.symm⟩
    · rintro ⟨-, i, hi, e⟩
      rw [e, hi.unique hj]
  · rw [ha]
    apply iff_of_false nofun
    rintro ⟨-, i, hi, -⟩
    cases ho.symm.trans (hs.outdated_eq_some_iff.mpr hi)

/-- The striped collection turns down exactly what is in conflict. Take any schedule and any transaction `x` open at its
end, and look at what was done since the transaction began. A call on a key is turned down exactly if the transaction has no
write to the key and others have committed to its stripe since, and the stripe is named. A commit is turned down exactly if
the transaction writes and others have committed since to a stripe that calls of it have read, and the least of these is
named. Always to validate would change nothing. And nobody ever finds a stripe held. -/
theorem turned_down_iff (place : K → Fin n) (schedule : List (Name × Action K V)) :
    let now := ((Session.fresh (collection place) Name).performAll schedule).2
    (∀ t, ∀ x : Txn K V n, now.txn? t = some x →
      ∃ before during, schedule = before ++ (t, .start) :: during ∧ (∀ step ∈ during, step.1 = t → step.2.key?.isSome) ∧
        let began := (((Session.fresh (collection place) Name).performAll before).2.perform t .start).2
        (∀ a k, a.key? = some k → ∀ why, (now.perform t a).1 = .aborted why ↔
          (k ∉ x.writeSet ∧ CommitsTo place began during (place k)) ∧ why = .readConflict (place k)) ∧
        (∀ why, (now.perform t .commit).1 = .aborted why ↔
          x.writeSet ≠ ∅ ∧ ∃ i, IsLeast {i | ReadFrom place (made t (began.events during)) i ∧
            CommitsTo place began during i} i ∧ why = .validation i) ∧
        prepare place x now.state = prepareValidating place x now.state) ∧
      ∀ u a i, (now.perform u a).1 ≠ .aborted (.lockBusy i) := by
  intro now
  have hnow : Sound place now.state := sound_performAll sound_fresh schedule
  refine ⟨?_, perform_ne_lockBusy hnow⟩
  intro t x hx
  obtain ⟨before, during, hschedule, hduring, hs, hsplit, hl⟩ := exists_live hx
  have hchanged := clock_lt_version_iff hs t during
  change now = _ at hsplit
  rw [← hsplit] at hchanged hl
  refine ⟨before, during, hschedule, hduring, ?_, ?_, prepare_eq_validating hnow x⟩
  · intro a k hk why
    rw [call_aborted_iff hnow hx hl hk, hchanged]
  · intro why
    rw [commit_aborted_iff hnow hx, hl.tracks.began]
    simp only [hchanged, hl.tracks.mem_readSet, ReadFrom]

/-- A transaction has read the first stripe and the second and written to the first, and two others have committed to the
second since: the second is the least in conflict. -/
theorem validation_names_overwritten_stripe :
    let schedule : List (Nat × Action Nat Nat) :=
      [(0, .start), (0, .put 1 10), (0, .commit), (1, .start), (1, .get 1), (1, .put 2 20), (2, .start), (2, .put 3 30),
        (3, .start), (3, .put 6 60), (2, .commit), (3, .drop)]
    let now := ((Session.fresh (collection fun k : Nat => Fin.ofNat 2 k) Nat).performAll schedule).2
    (now.perform 1 .commit).1 = .aborted (.validation 1) ∧
      ∃ x : Txn Nat Nat 2, now.txn? 1 = some x ∧
        ∃ before during, schedule = before ++ (1, .start) :: during ∧
          let began := (((Session.fresh (collection fun k : Nat => Fin.ofNat 2 k) Nat).performAll before).2.perform 1 .start).2
          x.writeSet ≠ ∅ ∧
            ∃ i, IsLeast {i | ReadFrom (fun k : Nat => Fin.ofNat 2 k) (made 1 (began.events during)) i ∧
              CommitsTo (fun k : Nat => Fin.ofNat 2 k) began during i} i ∧ Abort.validation 1 = .validation i := by
  intro schedule now
  have hturned : (now.perform 1 .commit).1 = .aborted (.validation 1) := by decide +kernel
  have hopen : (now.txn? 1).isSome := by decide +kernel
  obtain ⟨x, hx⟩ : ∃ x : Txn Nat Nat 2, now.txn? 1 = some x := Option.isSome_iff_exists.mp hopen
  obtain ⟨before, during, hsplit, -, -, hcommit, -⟩ := (turned_down_iff (fun k : Nat => Fin.ofNat 2 k) schedule).1 1 x hx
  exact ⟨hturned, x, hx, before, during, hsplit, (hcommit (.validation 1)).mp hturned⟩

end TxnBench.Striped
