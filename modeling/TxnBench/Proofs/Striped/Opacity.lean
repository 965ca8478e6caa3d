import TxnBench.Proofs.Striped.Sessions

/-!
# Opacity of the striped collection

Every call that goes through answers from the entries as they were when its transaction began, with what the transaction has
put and removed since laid over them (`answers_from_snapshot`). Nothing is asked of the transaction: it may be turned down
later, be dropped, never end, or have had a call turned down already.
-/

namespace TxnBench.Striped

variable {K V Name : Type} [Ord K] [Std.TransOrd K] [Std.LawfulEqOrd K] [DecidableEq K] [DecidableEq Name] {n : Nat}
  {place : K → Fin n} {σ : Session (collection (V := V) place) Name}

omit [Std.LawfulEqOrd K] [DecidableEq K] in
/-- What an open transaction has under its writes is what its calls that went through do to the entries it began with. -/
theorem Live.overlay_eq_performAll {s₀ s : Striped K V n} {calls : List (Call K V)} {x : Txn K V n}
    (h : Live place s₀ calls x s) :
    s₀.contents.overlay x.writeSet = s₀.contents.performAll ((calls.map Call.action).filter Action.updates) := by
  have hr := h.tracks.replays s₀.contents fun _ _ => rfl
  rw [Contents.performAll_updates]
  exact hr.eq_performAll

/-- A call that goes through for an open transaction answers as a plain map does, on which the calls that went through for
the transaction are carried out first. -/
theorem perform_of_live (hs : Sound place σ.state) {t : Name} {x : Txn K V n} {s₀ : Striped K V n}
    {calls : List (Call K V)} (hx : σ.txn? t = some x) (h : Live place s₀ calls x σ.state) {a : Action K V}
    (ha : a.key?.isSome) (hok : (σ.perform t a).1.isSuccess) :
    (σ.perform t a).1 =
      ((s₀.contents.performAll ((calls.map Call.action).filter Action.updates)).perform a).1 := by
  obtain ⟨k, hk⟩ := Option.isSome_iff_exists.mp ha
  rcases live_perform_call hs hx h hk with ⟨-, -, hp, -⟩ | ⟨-, hp, -⟩
  · rw [hp] at hok
    cases hok
  · rw [hp, ← h.overlay_eq_performAll, Contents.perform_answer _ hk]

/-- The striped collection is opaque: after any schedule, a call that goes through belongs to a transaction that began in
it, and answers as a plain map does that has the entries from when the transaction began and on which the puts and removals
that went through for the transaction since are carried out first. -/
theorem answers_from_snapshot (place : K → Fin n) (schedule : List (Name × Action K V)) (t : Name) (a : Action K V)
    (ha : a.key?.isSome)
    (hok : (((Session.fresh (collection place) Name).performAll schedule).2.perform t a).1.isSuccess) :
    ∃ before during, schedule = before ++ (t, .start) :: during ∧ (∀ step ∈ during, step.1 = t → step.2.key?.isSome) ∧
      let snapshot := ((Session.fresh (collection place) Name).performAll before).2
      let calls := made t ((snapshot.perform t .start).2.events during)
      (((Session.fresh (collection place) Name).performAll schedule).2.perform t a).1 =
        (((contents (n := n) snapshot.state).performAll ((calls.map Call.action).filter Action.updates)).perform a).1 := by
  have hopen : ∃ x, ((Session.fresh (collection place) Name).performAll schedule).2.txn? t = some x := by
    apply Option.ne_none_iff_exists'.mp
    intro hnone
    rw [Session.perform_of_none _ hnone a (by rintro rfl; cases ha)] at hok
    cases hok
  obtain ⟨x, hx⟩ := hopen
  obtain ⟨before, during, hschedule, hduring, hs, hsplit, hl⟩ := exists_live hx
  refine ⟨before, during, hschedule, hduring, ?_⟩
  rw [hsplit] at hx hok ⊢
  exact perform_of_live (sound_performAll (sound_perform hs t .start).1 during) hx hl ha hok

/-- A transaction has written to a key, another has committed to the same stripe, and a call on a further key of that stripe
has been turned down since: the first transaction still reads what it has written. -/
theorem own_write_read_after_conflict :
    let place : Nat → Fin 2 := fun k => Fin.ofNat 2 k
    let schedule : List (Nat × Action Nat Nat) :=
      [(0, .start), (0, .put 1 10), (0, .commit), (1, .start), (1, .put 1 11), (2, .start), (2, .put 3 30), (2, .commit),
        (1, .get 3)]
    let σ := ((Session.fresh (collection place) Nat).performAll schedule).2
    (σ.perform 1 (.get 1)).1 = .value (some 11) ∧
      ∃ before during, schedule = before ++ (1, .start) :: during ∧ (∀ step ∈ during, step.1 = 1 → step.2.key?.isSome) ∧
        let snapshot := ((Session.fresh (collection place) Nat).performAll before).2
        let calls := made 1 ((snapshot.perform 1 .start).2.events during)
        (σ.perform 1 (.get 1)).1 =
          (((contents (n := 2) snapshot.state).performAll ((calls.map Call.action).filter Action.updates)).perform
            (.get 1)).1 :=
  ⟨by decide +kernel, answers_from_snapshot (fun k => Fin.ofNat 2 k) _ 1 (.get 1) rfl (by decide +kernel)⟩

end TxnBench.Striped
