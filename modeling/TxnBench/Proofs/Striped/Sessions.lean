import TxnBench.Proofs.Striped.Transactions

/-!
# Sessions on the striped collection

Whatever a schedule does, the states it goes through are sound and each comes after the ones before (`sound_perform`), so a
transaction that is open stays what it is while others act (`live_perform`). A whole run follows by induction: its states are
sound (`sound_performAll`), an open transaction has made the calls under its name since it began (`live_performAll`,
`exists_live`), and this holds of every open transaction at once (`Chronicle`).
-/

namespace TxnBench.Striped

variable {K V Name : Type} [Ord K] [Std.TransOrd K] [Std.LawfulEqOrd K] [DecidableEq K] [DecidableEq Name] {n : Nat}
  {place : K → Fin n} {σ : Session (collection (V := V) place) Name}

omit [Std.LawfulEqOrd K] [DecidableEq K] in
/-- A call leaves the shared state as it is. -/
theorem state_call (x : Txn K V n) (s : Striped K V n) (a : Action K V) :
    ((collection place).call x s a).2.2 = s := by
  cases hk : a.key? with
  | none =>
    cases a with
    | start | commit | drop => rfl
    | get | contains | put | remove => cases hk
  | some k =>
    rw [call_eq place x s hk]
    split <;> rfl

omit [Std.LawfulEqOrd K] [DecidableEq K] in
/-- Only a commit changes the shared state. -/
theorem state_perform (t : Name) {a : Action K V} (ha : a ≠ .commit) : (σ.perform t a).2.state = σ.state := by
  by_cases hs : a = .start
  · subst hs
    rfl
  · cases hx : σ.txn? t with
    | none => rw [σ.perform_of_none hx a hs]
    | some x =>
      cases a with
      | start => exact absurd rfl hs
      | commit => exact absurd rfl ha
      | get | contains | put | remove =>
        rw [σ.perform_call hx rfl]
        exact state_call _ _ _
      | drop =>
        rw [σ.perform_drop hx]
        rfl

omit [Std.LawfulEqOrd K] [DecidableEq K] in
/-- Only a commit changes the entries. -/
theorem contents_perform (t : Name) {a : Action K V} (ha : a ≠ .commit) :
    contents (n := n) (σ.perform t a).2.state = contents (n := n) σ.state :=
  congrArg (contents (n := n)) (state_perform t ha)

/-- An action leads from a sound state to a sound state that comes after it. -/
theorem sound_perform (h : Sound place σ.state) (t : Name) (a : Action K V) :
    Sound place (σ.perform t a).2.state ∧ Later (n := n) σ.state (σ.perform t a).2.state := by
  by_cases ha : a = .commit
  · subst ha
    cases hx : σ.txn? t with
    | none =>
      rw [σ.perform_of_none hx .commit nofun]
      exact ⟨h, Later.refl _⟩
    | some x =>
      rw [σ.perform_commit hx]
      exact h.commit x
  · rw [state_perform t ha]
    exact ⟨h, Later.refl _⟩

/-- Every state that a run goes through is sound. -/
theorem sound_performAll (h : Sound place σ.state) (schedule : List (Name × Action K V)) :
    Sound place (σ.performAll schedule).2.state := by
  induction schedule generalizing σ with
  | nil => exact h
  | cons step rest ih => exact ih (sound_perform h step.1 step.2).1

omit [Std.LawfulEqOrd K] [DecidableEq K] [DecidableEq Name] in
theorem sound_fresh : Sound place (Session.fresh (collection (V := V) place) Name).state :=
  sound_empty place

/-- Dropping every open transaction changes no entry, and leaves a sound state. -/
theorem sound_quietAfter (before : List (Name × Action K V)) :
    Sound place (Session.quietAfter (collection place) before).state := by
  have hdrop : ∀ (opened : List (Name × Txn K V n)) (s : Striped K V n),
      opened.foldl (fun s o => (collection place).drop o.2 s) s = s := fun opened s => by
    induction opened with
    | nil => rfl
    | cons o rest ih => exact ih
  have h := sound_performAll (σ := Session.fresh (collection (V := V) place) Name) sound_fresh before
  have hstate : (Session.quietAfter (collection (V := V) place) before).state =
      ((Session.fresh (collection (V := V) place) Name).performAll before).2.state := hdrop _ _
  rw [hstate]
  exact h

omit [Std.LawfulEqOrd K] [DecidableEq K] in
/-- A commit of an open transaction does nothing, or fails to validate, or publishes. -/
theorem perform_commit_cases (hs : Sound place σ.state) {t : Name} {x : Txn K V n} (hx : σ.txn? t = some x) :
    (x.writeSet = ∅ ∧ (σ.perform t .commit).1 = .done ∧ (σ.perform t .commit).2.state = σ.state) ∨
    (x.writeSet ≠ ∅ ∧ ∃ i, outdated σ.state x = some i ∧ (σ.perform t .commit).1 = .aborted (.validation i) ∧
      (σ.perform t .commit).2.state = ticked (n := n) σ.state) ∨
    (x.writeSet ≠ ∅ ∧ outdated σ.state x = none ∧ (σ.perform t .commit).1 = .done ∧
      (σ.perform t .commit).2.state = written place σ.state x) := by
  rw [σ.perform_commit hx]
  rcases commit_cases hs x with ⟨hw, hc⟩ | ⟨hw, i, ho, hc⟩ | ⟨hw, ho, hc⟩
  · rw [hc]
    exact Or.inl ⟨hw, rfl, rfl⟩
  · rw [hc]
    exact Or.inr (Or.inl ⟨hw, i, ho, rfl, rfl⟩)
  · rw [hc]
    exact Or.inr (Or.inr ⟨hw, ho, rfl, rfl⟩)

/-! ## One open transaction -/

/-- A call of an open transaction on a key aborts, and changes nothing, or answers as the state it began in has it under the
writes held. -/
theorem live_perform_call (hs : Sound place σ.state) {t : Name} {x : Txn K V n} {s₀ : Striped K V n}
    {calls : List (Call K V)} (hx : σ.txn? t = some x) (h : Live place s₀ calls x σ.state) {a : Action K V} {k : K}
    (hk : a.key? = some k) :
    (k ∉ x.writeSet ∧ s₀.clock < (word (n := n) σ.state (place k)).version ∧
      (σ.perform t a).1 = .aborted (.readConflict (place k)) ∧ (σ.perform t a).2.txn? t = some x) ∨
    ((k ∈ x.writeSet ∨ (word (n := n) σ.state (place k)).version ≤ s₀.clock) ∧
      (σ.perform t a).1 = a.answer (s₀.contents.overlay x.writeSet)[k]? ∧
      ∃ x', (σ.perform t a).2.txn? t = some x' ∧
        Live place s₀ (calls ++ [⟨a, a.answer (s₀.contents.overlay x.writeSet)[k]?⟩]) x' σ.state) := by
  rw [σ.perform_call hx (by rw [hk]; rfl)]
  simp only [Session.txn?_cons_others, if_true]
  rcases h.call hs hk with ⟨hw, hv, hc⟩ | ⟨hw, x', hc, hl⟩
  · rw [hc]
    exact Or.inl ⟨hw, hv, rfl, rfl⟩
  · rw [hc]
    exact Or.inr ⟨hw, rfl, x', rfl, hl⟩

/-- What an action does to an open transaction that it does not end. -/
theorem live_perform (hs : Sound place σ.state) {t u : Name} {x : Txn K V n} {s₀ : Striped K V n}
    {calls : List (Call K V)} (hx : σ.txn? u = some x) (h : Live place s₀ calls x σ.state) {a : Action K V}
    (hd : (⟨t, a, (σ.perform t a).1⟩ : Event Name K V).delimits u = false) :
    ∃ x', (σ.perform t a).2.txn? u = some x' ∧
      Live place s₀ (calls ++ (⟨t, a, (σ.perform t a).1⟩ : Event Name K V).callsOf u) x' (σ.perform t a).2.state := by
  have hlater := (sound_perform hs t a).2
  by_cases e : t = u
  · subst e
    cases hk : a.key? with
    | none =>
      rw [Event.delimits_iff.mpr ⟨rfl, hk⟩] at hd
      cases hd
    | some k =>
      rcases live_perform_call hs hx h hk with ⟨-, -, ha, hx'⟩ | ⟨-, ha, x', hx', hl⟩
      · rw [ha, Event.callsOf_of_abort, List.append_nil]
        exact ⟨x, hx', h.mono hlater⟩
      · rw [ha, Event.callsOf_of_success (by rw [hk]; rfl) (Action.isSuccess_answer a _)]
        exact ⟨x', hx', hl.mono hlater⟩
  · rw [Event.callsOf_of_ne e, List.append_nil]
    exact ⟨x, (Session.txn?_perform_of_ne σ (fun h => e h.symm) a).trans hx, h.mono hlater⟩

/-- What a run does to an open transaction that it does not end. -/
theorem live_performAll (hs : Sound place σ.state) {u : Name} {x : Txn K V n} {s₀ : Striped K V n}
    {calls : List (Call K V)} (hx : σ.txn? u = some x) (h : Live place s₀ calls x σ.state)
    {schedule : List (Name × Action K V)} (hd : ∀ step ∈ schedule, step.1 = u → step.2.key?.isSome) :
    ∃ x', (σ.performAll schedule).2.txn? u = some x' ∧
      Live place s₀ (calls ++ made u (σ.events schedule)) x' (σ.performAll schedule).2.state := by
  induction schedule generalizing σ x calls with
  | nil =>
    rw [Session.events_nil, made, List.flatMap_nil, List.append_nil]
    exact ⟨x, hx, h⟩
  | cons step rest ih =>
    obtain ⟨t, a⟩ := step
    have hstep : (⟨t, a, (σ.perform t a).1⟩ : Event Name K V).delimits u = false := by
      apply Bool.eq_false_iff.mpr
      intro h
      obtain ⟨e, hk⟩ := Event.delimits_iff.mp h
      have hsome := hd (t, a) List.mem_cons_self e
      rw [hk] at hsome
      cases hsome
    obtain ⟨x', hx', hl⟩ := live_perform hs hx h hstep
    have hrest := ih (sound_perform hs t a).1 hx' hl fun step hmem => hd step (List.mem_cons_of_mem _ hmem)
    rw [Session.events_cons, made, List.flatMap_cons, ← List.append_assoc]
    exact hrest

omit [Std.LawfulEqOrd K] [DecidableEq K] in
theorem txn?_perform_start (t : Name) :
    (σ.perform t .start).2.txn? t = some (Striped.start (n := n) σ.state) := by
  rw [Session.perform_start, Session.txn?_cons_others, if_pos rfl]
  rfl

/-- A transaction that begins and is not ended has the calls under its name since it began. -/
theorem live_since_start (hs : Sound place σ.state) (t : Name) {schedule : List (Name × Action K V)}
    (hd : ∀ step ∈ schedule, step.1 = t → step.2.key?.isSome) :
    ∃ x, ((σ.perform t .start).2.performAll schedule).2.txn? t = some x ∧
      Live place σ.state (made t ((σ.perform t .start).2.events schedule)) x
        ((σ.perform t .start).2.performAll schedule).2.state :=
  live_performAll (sound_perform hs t .start).1 (txn?_perform_start t) (Live.start hs) hd

/-- A transaction that is open at the end of a schedule began in it, in a sound state, and has the calls under its name
since. -/
theorem exists_live {schedule : List (Name × Action K V)} {t : Name} {x : Txn K V n}
    (hx : ((Session.fresh (collection (V := V) place) Name).performAll schedule).2.txn? t = some x) :
    ∃ before during, schedule = before ++ (t, .start) :: during ∧ (∀ step ∈ during, step.1 = t → step.2.key?.isSome) ∧
      let first := ((Session.fresh (collection (V := V) place) Name).performAll before).2
      Sound place first.state ∧
        ((Session.fresh (collection (V := V) place) Name).performAll schedule).2 =
          ((first.perform t .start).2.performAll during).2 ∧
        Live place first.state (made t ((first.perform t .start).2.events during)) x
          ((first.perform t .start).2.performAll during).2.state := by
  obtain ⟨before, during, rfl, hduring⟩ := Session.exists_start_of_txn? hx
  have hs : Sound place ((Session.fresh (collection (V := V) place) Name).performAll before).2.state :=
    sound_performAll sound_fresh before
  have hsplit := Session.performAll_append (Session.fresh (collection (V := V) place) Name) before ((t, .start) :: during)
  obtain ⟨y, hy, hl⟩ := live_since_start hs t hduring
  rw [hsplit] at hx
  cases hx.symm.trans hy
  exact ⟨before, during, rfl, hduring, hs, hsplit, hl⟩

/-! ## All open transactions -/

/-- Every open transaction has made the calls under its name since it began. -/
structure Chronicle (place : K → Fin n) (earlier : List (Event Name K V)) (σ : Session (collection (V := V) place) Name) :
    Prop where
  sound : Sound place σ.state
  live : ∀ u x, σ.txn? u = some x → ∃ s₀, Live place s₀ (madeSince u earlier) x σ.state

omit [Std.LawfulEqOrd K] [DecidableEq K] in
/-- A sound state without open transactions. -/
theorem Chronicle.quiet {s : Striped K V n} (h : Sound place s) :
    Chronicle place [] (⟨s, []⟩ : Session (collection (V := V) place) Name) where
  sound := h
  live u x hx := by cases hx

/-- One action more. -/
theorem Chronicle.perform {earlier : List (Event Name K V)} (h : Chronicle place earlier σ) (t : Name) (a : Action K V) :
    Chronicle place (⟨t, a, (σ.perform t a).1⟩ :: earlier) (σ.perform t a).2 where
  sound := (sound_perform h.sound t a).1
  live u x' hx' := by
    rw [madeSince]
    split
    · rename_i hd
      obtain ⟨rfl, hk⟩ := Event.delimits_iff.mp hd
      cases a with
      | get | contains | put | remove => cases hk
      | commit => exact absurd ((σ.txn?_perform_of_end t (Or.inl rfl)).symm.trans hx') nofun
      | drop => exact absurd ((σ.txn?_perform_of_end t (Or.inr rfl)).symm.trans hx') nofun
      | start =>
        rw [Session.perform_start, Session.txn?_cons_others, if_pos rfl] at hx'
        cases hx'
        exact ⟨σ.state, Live.start h.sound⟩
    · rename_i hd
      have hd := Bool.eq_false_iff.mpr hd
      obtain ⟨x, hx⟩ := σ.exists_txn?_of_perform hd hx'
      obtain ⟨s₀, hl⟩ := h.live u x hx
      obtain ⟨x'', hx'', hl'⟩ := live_perform h.sound hx hl hd
      cases hx''.symm.trans hx'
      exact ⟨s₀, hl'⟩

end TxnBench.Striped
