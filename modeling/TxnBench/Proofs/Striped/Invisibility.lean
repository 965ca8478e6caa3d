import TxnBench.Proofs.Striped.Conflicts

/-!
# Transactions that publish nothing

A transaction that is turned down, dropped or left open, or that writes nothing, is invisible to the others
(`unpublished_invisible`): to leave out all its steps changes the outcome of no other step, and no entry. It may still have
moved the clock, when its commit failed to validate, so the two runs have different clocks, different versions, and validate
at different commits.

The runs are related by what transactions make of times. `Counterpart s s' x x'` says that `x` in `s` and `x'` in `s'` have
read and written the same, and that the same stripes have changed since they began. Calls and commits of counterparts have
the same outcome, and every step keeps the transactions that are shown counterparts (`Alike`).
-/

namespace TxnBench

variable {K V Name : Type} [DecidableEq Name]

/-- Whether an action begins a transaction. -/
def Action.begins : Action K V → Bool
  | .start => true
  | _ => false

/-- How many transactions of `t` begin in the steps given. -/
def begun (t : Name) (steps : List (Name × Action K V)) : Nat :=
  steps.countP fun step => step.1 = t ∧ step.2.begins

/-- An event without what came of it. -/
def Event.step (e : Event Name K V) : Name × Action K V :=
  (e.name, e.action)

/-- The events that are no steps of hidden transactions, where `hidden t i` says whether the `i`-th transaction that begins
under the name `t` is hidden; `earlier` is what was before the events. -/
def shownFrom (hidden : Name → Nat → Bool) (earlier : List (Name × Action K V)) :
    List (Event Name K V) → List (Event Name K V)
  | [] => []
  | e :: later =>
    let shown := shownFrom hidden (earlier ++ [e.step]) later
    if hidden e.name (begun e.name (earlier ++ [e.step])) then shown else e :: shown

theorem shownFrom_of_hidden {hidden : Name → Nat → Bool} {earlier : List (Name × Action K V)} {e : Event Name K V}
    (h : hidden e.name (begun e.name (earlier ++ [e.step])) = true) (later : List (Event Name K V)) :
    shownFrom hidden earlier (e :: later) = shownFrom hidden (earlier ++ [e.step]) later :=
  if_pos h

theorem shownFrom_of_shown {hidden : Name → Nat → Bool} {earlier : List (Name × Action K V)} {e : Event Name K V}
    (h : hidden e.name (begun e.name (earlier ++ [e.step])) = false) (later : List (Event Name K V)) :
    shownFrom hidden earlier (e :: later) = e :: shownFrom hidden (earlier ++ [e.step]) later :=
  if_neg (Bool.eq_false_iff.mp h)

/-- A step under one name begins no transaction of another. -/
theorem begun_append_of_ne {t u : Name} (h : u ≠ t) (earlier : List (Name × Action K V)) (a : Action K V) :
    begun u (earlier ++ [(t, a)]) = begun u earlier := by
  have hne : ¬t = u := fun e => h e.symm
  simp [begun, List.countP_append, hne]

/-- A step that is no beginning begins no transaction. -/
theorem begun_append_of_not_begins (t u : Name) (earlier : List (Name × Action K V)) {a : Action K V} (h : a ≠ .start) :
    begun u (earlier ++ [(t, a)]) = begun u earlier := by
  have hb : a.begins = false := by cases a <;> first | rfl | exact absurd rfl h
  simp [begun, List.countP_append, hb]

namespace Striped

variable [Ord K] [Std.TransOrd K] {n : Nat} {place : K → Fin n}

/-! ## Counterparts -/

/-- The transactions `x` in the state `s` and `x'` in the state `s'` have read and written the same, and the same stripes
have changed since they began. -/
structure Counterpart (s s' : Striped K V n) (x x' : Txn K V n) : Prop where
  readSet : x.readSet = x'.readSet
  writeSet : x.writeSet = x'.writeSet
  began_le : x.began ≤ s.clock
  began_le' : x'.began ≤ s'.clock
  changed : ∀ i, x.began < (s.word i).version ↔ x'.began < (s'.word i).version

/-- Two sound states with the same entries. -/
structure Twin (place : K → Fin n) (s s' : Striped K V n) : Prop where
  sound : Sound place s
  sound' : Sound place s'
  entries : ∀ i, s.entries i = s'.entries i

variable {s s' : Striped K V n} {x x' y y' : Txn K V n}

/-- Transactions that begin in twins are counterparts. -/
theorem Twin.start (h : Twin place s s') : Counterpart s s' s.start s'.start where
  readSet := rfl
  writeSet := rfl
  began_le := Nat.le_refl _
  began_le' := Nat.le_refl _
  changed i := iff_of_false (Nat.not_lt.mpr (h.sound.version_le i)) (Nat.not_lt.mpr (h.sound'.version_le i))

omit [Std.TransOrd K] in
/-- Counterparts stay so in states that extend theirs by ticks of the clock. -/
theorem Counterpart.of_ticks {s₁ s₁' : Striped K V n} (h : Counterpart s s' x x') (hc : s.clock ≤ s₁.clock)
    (hc' : s'.clock ≤ s₁'.clock) (hw : ∀ i, s₁.word i = s.word i) (hw' : ∀ i, s₁'.word i = s'.word i) :
    Counterpart s₁ s₁' x x' where
  readSet := h.readSet
  writeSet := h.writeSet
  began_le := Nat.le_trans h.began_le hc
  began_le' := Nat.le_trans h.began_le' hc'
  changed i := by
    rw [hw, hw']
    exact h.changed i

/-- To counterparts the same stripes are stale. -/
theorem Counterpart.isStale (h : Counterpart s s' x x') (ht : Twin place s s') (i : Fin n) :
    (s.word i).isStale x.began = (s'.word i).isStale x'.began :=
  Bool.eq_iff_iff.mpr ((ht.sound.isStale_iff i _).trans ((h.changed i).trans (ht.sound'.isStale_iff i _).symm))

/-- Counterparts read the same, and stay counterparts. -/
theorem Counterpart.read (h : Counterpart s s' x x') (ht : Twin place s s') (k : K) :
    (read place x s k).1 = (read place x' s' k).1 ∧
      Counterpart s s' (read place x s k).2 (read place x' s' k).2 := by
  have hfind : s.stripes[place k].entries[k]? = s'.stripes[place k].entries[k]? :=
    congrArg (fun m : Contents K V => m[k]?) (ht.entries (place k))
  unfold Striped.read
  rw [← h.writeSet]
  cases x.writeSet[k]? with
  | some buffered => exact ⟨rfl, h⟩
  | none =>
    simp only [← h.isStale ht]
    split
    · exact ⟨rfl, h⟩
    · exact ⟨congrArg Reply.value hfind, congrArg (·.insert (place k)) h.readSet, rfl, h.began_le, h.began_le',
        h.changed⟩

/-- Counterparts that hold one more write are counterparts. -/
theorem Counterpart.holding (h : Counterpart s s' x x') (k : K) (w : Option (Option V)) :
    Counterpart s s' (x.holding k w) (x'.holding k w) := by
  cases w with
  | none => exact h
  | some v => exact ⟨h.readSet, congrArg (·.insert k v) h.writeSet, h.began_le, h.began_le', h.changed⟩

/-- A call of counterparts has the same answer, and leaves them counterparts. -/
theorem Counterpart.call (h : Counterpart s s' x x') (ht : Twin place s s') {a : Action K V} {k : K}
    (ha : a.key? = some k) :
    ((collection place).call x s a).1 = ((collection place).call x' s' a).1 ∧
      Counterpart s s' ((collection place).call x s a).2.1 ((collection place).call x' s' a).2.1 := by
  obtain ⟨hreply, hread⟩ := h.read ht k
  rw [call_eq place x s ha, call_eq place x' s' ha]
  rcases hr : Striped.read place x s k with ⟨reply, y⟩
  rcases hr' : Striped.read place x' s' k with ⟨reply', y'⟩
  rw [hr, hr'] at hreply hread
  cases hreply
  cases reply with
  | value previous => exact ⟨rfl, hread.holding k _⟩
  | abort why => exact ⟨rfl, hread⟩
  | fault f => exact ⟨rfl, hread⟩

/-- Counterparts fail to validate on the same stripe. -/
theorem Counterpart.outdated (h : Counterpart s s' x x') (ht : Twin place s s') : s.outdated x = s'.outdated x' := by
  apply Option.ext
  intro i
  rw [ht.sound.outdated_eq_some_iff, ht.sound'.outdated_eq_some_iff]
  simp only [h.readSet, h.changed]

variable [Std.LawfulEqOrd K] [DecidableEq K]

/-- Twins to which counterparts have committed their writes are twins. -/
theorem Twin.written (ht : Twin place s s') (h : Counterpart s s' x x') :
    Twin place (s.written place x) (s'.written place x') where
  sound := ht.sound.written x
  sound' := ht.sound'.written x'
  entries i := by
    apply Std.ExtTreeMap.ext_getElem?
    intro k
    rw [getElem?_entries_written, getElem?_entries_written, h.writeSet, ht.entries i]

omit [Std.LawfulEqOrd K] [DecidableEq K] in
/-- Counterparts stay so when others that are counterparts commit their writes. -/
theorem Counterpart.written (h : Counterpart s s' x x') (hy : Counterpart s s' y y') :
    Counterpart (s.written place y) (s'.written place y') x x' where
  readSet := h.readSet
  writeSet := h.writeSet
  began_le := (clock_written place s y).symm ▸ Nat.le_succ_of_le h.began_le
  began_le' := (clock_written place s' y').symm ▸ Nat.le_succ_of_le h.began_le'
  changed i := by
    have hstripes : writeStripes place y = writeStripes place y' := by rw [writeStripes, hy.writeSet, writeStripes]
    rw [word_written, word_written, hstripes]
    split
    · exact iff_of_true (Nat.lt_succ_of_le h.began_le) (Nat.lt_succ_of_le h.began_le')
    · exact h.changed i

/-- A commit of counterparts has the same outcome and leads to twins, in which all others that were counterparts still are. -/
theorem Counterpart.commit (h : Counterpart s s' x x') (ht : Twin place s s') :
    ((collection place).commit x s).1 = ((collection place).commit x' s').1 ∧
      Twin (n := n) place ((collection place).commit x s).2 ((collection place).commit x' s').2 ∧
      ∀ y y', Counterpart s s' y y' →
        Counterpart (n := n) ((collection place).commit x s).2 ((collection place).commit x' s').2 y y' := by
  have hempty : x.writeSet = ∅ ↔ x'.writeSet = ∅ := by rw [h.writeSet]
  have hsame := h.outdated ht
  rcases commit_cases ht.sound x with ⟨hw, hc⟩ | ⟨hw, i, ho, hc⟩ | ⟨hw, ho, hc⟩ <;>
    rcases commit_cases ht.sound' x' with ⟨hw', hc'⟩ | ⟨hw', i', ho', hc'⟩ | ⟨hw', ho', hc'⟩
  · rw [hc, hc']
    exact ⟨rfl, ht, fun _ _ hy => hy⟩
  · exact absurd (hempty.mp hw) hw'
  · exact absurd (hempty.mp hw) hw'
  · exact absurd (hempty.mpr hw') hw
  · rw [hsame, ho'] at ho
    cases ho
    rw [hc, hc']
    refine ⟨rfl, ⟨ht.sound.ticked, ht.sound'.ticked, ht.entries⟩, ?_⟩
    intro y y' hy
    exact hy.of_ticks (Nat.le_succ _) (Nat.le_succ _) (fun _ => rfl) fun _ => rfl
  · rw [hsame, ho'] at ho
    cases ho
  · exact absurd (hempty.mpr hw') hw
  · rw [hsame, ho'] at ho
    cases ho
  · rw [hc, hc']
    exact ⟨rfl, ht.written h, fun y y' hy => hy.written h⟩

/-! ## Two sessions -/

variable {hidden : Name → Nat → Bool} {earlier : List (Name × Action K V)}
  {σ σ' τ τ' : Session (collection (V := V) place) Name}

/-- Two sessions have no transaction of `t`, or counterparts. -/
def Matched (σ σ' : Session (collection (V := V) place) Name) (t : Name) : Prop :=
  (σ.txn? t = none ∧ σ'.txn? t = none) ∨
    ∃ x x' : Txn K V n, σ.txn? t = some x ∧ σ'.txn? t = some x' ∧ Counterpart σ.state σ'.state x x'

/-- Two sessions that differ in hidden transactions only: after the steps given, the transactions that are shown are
counterparts in twins. -/
structure Alike (hidden : Name → Nat → Bool) (earlier : List (Name × Action K V))
    (σ σ' : Session (collection (V := V) place) Name) : Prop where
  twin : Twin (n := n) place σ.state σ'.state
  matched : ∀ t, hidden t (begun t earlier) = false → Matched σ σ' t

omit [Std.LawfulEqOrd K] [DecidableEq K] in
/-- A step under the name `t` leaves sessions alike if it keeps counterparts and the transactions of `t` match. -/
theorem Alike.extend (h : Alike hidden earlier σ σ') (t : Name) (a : Action K V)
    (htwin : Twin (n := n) place τ.state τ'.state)
    (hkeep : ∀ y y' : Txn K V n, Counterpart σ.state σ'.state y y' → Counterpart τ.state τ'.state y y')
    (hτ : ∀ u, u ≠ t → τ.txn? u = σ.txn? u) (hτ' : ∀ u, u ≠ t → τ'.txn? u = σ'.txn? u)
    (ht : hidden t (begun t (earlier ++ [(t, a)])) = false → Matched τ τ' t) :
    Alike hidden (earlier ++ [(t, a)]) τ τ' := by
  refine ⟨htwin, ?_⟩
  intro u hu
  by_cases e : u = t
  · subst e
    exact ht hu
  · rw [begun_append_of_ne e] at hu
    unfold Matched
    rw [hτ u e, hτ' u e]
    exact (h.matched u hu).imp_right fun ⟨x, x', hx, hx', hc⟩ => ⟨x, x', hx, hx', hkeep x x' hc⟩

/-- Whether a step publishes: it is a commit that goes through, of a transaction with something to write. -/
def publishes (σ : Session (collection (V := V) place) Name) (t : Name) : Action K V → Bool
  | .commit => (σ.perform t .commit).1.isSuccess && (σ.txn? t).any fun x : Txn K V n => !x.writeSet.isEmpty
  | _ => false

/-- Whether no step of a hidden transaction publishes, in a schedule that comes after the steps in `earlier`. -/
def publishNothing (hidden : Name → Nat → Bool) (earlier : List (Name × Action K V))
    (σ : Session (collection (V := V) place) Name) : List (Name × Action K V) → Bool
  | [] => true
  | (t, a) :: rest =>
    !(hidden t (begun t (earlier ++ [(t, a)])) && publishes σ t a)
      && publishNothing hidden (earlier ++ [(t, a)]) (σ.perform t a).2 rest

/-- A hidden step leaves sessions alike when it is left out of one of them, unless it publishes. -/
theorem Alike.hide (h : Alike hidden earlier σ σ') {t : Name} {a : Action K V}
    (ht : hidden t (begun t (earlier ++ [(t, a)])) = true)
    (hquiet : publishes σ t a = false) :
    Alike hidden (earlier ++ [(t, a)]) (σ.perform t a).2 σ' := by
  -- whatever the step is, it moves at most the clock
  obtain ⟨hclock, hword, hentries⟩ :
      clock (n := n) σ.state ≤ clock (n := n) (σ.perform t a).2.state ∧
        (∀ i, word (n := n) (σ.perform t a).2.state i = word (n := n) σ.state i) ∧
        ∀ i, entries (n := n) (σ.perform t a).2.state i = entries (n := n) σ.state i := by
    by_cases ha : a = .commit
    · subst ha
      cases hx : σ.txn? t with
      | none =>
        rw [σ.perform_of_none hx .commit nofun]
        exact ⟨Nat.le_refl _, fun _ => rfl, fun _ => rfl⟩
      | some x =>
        rcases perform_commit_cases h.twin.sound hx with ⟨-, -, hs⟩ | ⟨-, i, -, -, hs⟩ | ⟨hw, -, hd, -⟩
        · rw [hs]
          exact ⟨Nat.le_refl _, fun _ => rfl, fun _ => rfl⟩
        · rw [hs]
          exact ⟨Nat.le_succ _, fun _ => rfl, fun _ => rfl⟩
        · have hsome : x.writeSet.isEmpty = false := Bool.eq_false_iff.mpr fun e => hw (Std.ExtTreeMap.isEmpty_iff.mp e)
          have hpublishes : publishes σ t .commit = true := by
            rw [publishes, hd, hx]
            exact congrArg (!·) hsome
          exact absurd (hpublishes.symm.trans hquiet) nofun
    · rw [state_perform t ha]
      exact ⟨Nat.le_refl _, fun _ => rfl, fun _ => rfl⟩
  refine h.extend t a ⟨(sound_perform h.twin.sound t a).1, h.twin.sound', fun i => (hentries i).trans (h.twin.entries i)⟩
    (fun y y' hy => hy.of_ticks hclock (Nat.le_refl _) hword fun _ => rfl)
    (fun u hu => σ.txn?_perform_of_ne hu a) (fun u _ => rfl) ?_
  intro hf
  rw [ht] at hf
  cases hf

/-- A step that is shown has the same answer in sessions that are alike, and leaves them alike. -/
theorem Alike.perform (h : Alike hidden earlier σ σ') {t : Name} {a : Action K V}
    (ht : hidden t (begun t (earlier ++ [(t, a)])) = false) :
    (σ.perform t a).1 = (σ'.perform t a).1 ∧
      Alike hidden (earlier ++ [(t, a)]) (σ.perform t a).2 (σ'.perform t a).2 := by
  have hτ : ∀ u, u ≠ t → (σ.perform t a).2.txn? u = σ.txn? u := fun u hu => σ.txn?_perform_of_ne hu a
  have hτ' : ∀ u, u ≠ t → (σ'.perform t a).2.txn? u = σ'.txn? u := fun u hu => σ'.txn?_perform_of_ne hu a
  by_cases ha : a = .start
  · subst ha
    refine ⟨rfl, h.extend t .start h.twin (fun _ _ hy => hy) hτ hτ' fun _ => Or.inr ?_⟩
    exact ⟨_, _, txn?_perform_start t, txn?_perform_start t, h.twin.start⟩
  rw [begun_append_of_not_begins t t earlier ha] at ht
  rcases h.matched t ht with ⟨hx, hx'⟩ | ⟨x, x', hx, hx', hc⟩
  · rw [σ.perform_of_none hx a ha, σ'.perform_of_none hx' a ha]
    exact ⟨rfl, h.extend t a h.twin (fun _ _ hy => hy) (fun _ _ => rfl) (fun _ _ => rfl) fun _ => Or.inl ⟨hx, hx'⟩⟩
  · cases hk : a.key? with
    | some k =>
      have hs : (σ.perform t a).2.state = σ.state := state_perform t (by rintro rfl; cases hk)
      have hs' : (σ'.perform t a).2.state = σ'.state := state_perform t (by rintro rfl; cases hk)
      have hp := σ.perform_call hx (a := a) (by rw [hk]; rfl)
      have hp' := σ'.perform_call hx' (a := a) (by rw [hk]; rfl)
      obtain ⟨hanswer, hcall⟩ := hc.call h.twin hk
      have hmatched : Matched (σ.perform t a).2 (σ'.perform t a).2 t := by
        refine Or.inr ⟨_, _, ?_, ?_, by rw [hs, hs']; exact hcall⟩
        · rw [hp]
          exact (σ.txn?_cons_others t t _ _).trans (if_pos rfl)
        · rw [hp']
          exact (σ'.txn?_cons_others t t _ _).trans (if_pos rfl)
      refine ⟨by rw [hp, hp']; exact hanswer, h.extend t a ?_ ?_ hτ hτ' fun _ => hmatched⟩
      · rw [hs, hs']
        exact h.twin
      · rw [hs, hs']
        exact fun _ _ hy => hy
    | none =>
      cases a with
      | start => exact absurd rfl ha
      | get | contains | put | remove => cases hk
      | commit =>
        obtain ⟨hreply, htwin, hkeep⟩ := hc.commit h.twin
        have hmatched : Matched (σ.perform t .commit).2 (σ'.perform t .commit).2 t :=
          Or.inl ⟨σ.txn?_perform_of_end t (Or.inl rfl), σ'.txn?_perform_of_end t (Or.inl rfl)⟩
        have hp := σ.perform_commit hx
        have hp' := σ'.perform_commit hx'
        refine ⟨by rw [hp, hp', hreply], h.extend t .commit ?_ ?_ hτ hτ' fun _ => hmatched⟩
        · rw [hp, hp']
          exact htwin
        · rw [hp, hp']
          exact hkeep
      | drop =>
        have hmatched : Matched (σ.perform t .drop).2 (σ'.perform t .drop).2 t :=
          Or.inl ⟨σ.txn?_perform_of_end t (Or.inr rfl), σ'.txn?_perform_of_end t (Or.inr rfl)⟩
        have hs : (σ.perform t .drop).2.state = σ.state := state_perform t nofun
        have hs' : (σ'.perform t .drop).2.state = σ'.state := state_perform t nofun
        refine ⟨by rw [σ.perform_drop hx, σ'.perform_drop hx'], h.extend t .drop ?_ ?_ hτ hτ' fun _ => hmatched⟩
        · rw [hs, hs']
          exact h.twin
        · rw [hs, hs']
          exact fun _ _ hy => hy

/-- Sessions that are alike stay so when one of them is left without the hidden steps, and what happens in the other
besides them is the same. -/
theorem Alike.performAll (h : Alike hidden earlier σ σ') {schedule : List (Name × Action K V)}
    (hquiet : publishNothing hidden earlier σ schedule) :
    let shown := shownFrom hidden earlier (σ.events schedule)
    σ'.events (shown.map Event.step) = shown ∧
      Alike hidden (earlier ++ schedule) (σ.performAll schedule).2 (σ'.performAll (shown.map Event.step)).2 := by
  induction schedule generalizing σ σ' earlier with
  | nil =>
    rw [List.append_nil]
    exact ⟨rfl, h⟩
  | cons step rest ih =>
    obtain ⟨t, a⟩ := step
    obtain ⟨hfirst, hrest⟩ := Bool.and_eq_true_iff.mp hquiet
    rw [List.append_cons, Session.events_cons]
    cases ht : hidden t (begun t (earlier ++ [(t, a)])) with
    | true =>
      rw [ht, Bool.true_and, Bool.not_eq_true'] at hfirst
      rw [shownFrom_of_hidden (e := ⟨t, a, _⟩) ht]
      exact ih (h.hide ht hfirst) hrest
    | false =>
      obtain ⟨hanswer, hstep⟩ := h.perform ht
      obtain ⟨hevents, halike⟩ := ih hstep hrest
      rw [shownFrom_of_shown (e := ⟨t, a, _⟩) ht]
      refine ⟨?_, halike⟩
      rw [List.map_cons, hanswer]
      exact congrArg _ hevents

/-- Transactions that publish nothing are invisible to the others. Take any schedule and any transactions in it, `hidden t i`
saying whether the `i`-th under the name `t` is one of them, none of which commits with something to write. Then to leave out
all their steps changes the answer to none of the steps that remain, and neither the entries nor the size at the end. -/
theorem unpublished_invisible (place : K → Fin n) (schedule : List (Name × Action K V)) (hidden : Name → Nat → Bool)
    (hquiet : publishNothing hidden [] (Session.fresh (collection place) Name) schedule) :
    let σ := Session.fresh (collection place) Name
    let shown := shownFrom hidden [] (σ.events schedule)
    let final : Striped K V n := (σ.performAll schedule).2.state
    let final' : Striped K V n := (σ.performAll (shown.map Event.step)).2.state
    σ.events (shown.map Event.step) = shown ∧ (∀ k, final'.find place k = final.find place k) ∧
      final'.size = final.size := by
  intro σ shown final final'
  have hfresh : Alike hidden [] σ σ :=
    ⟨⟨sound_fresh, sound_fresh, fun _ => rfl⟩, fun t _ => Or.inl ⟨rfl, rfl⟩⟩
  obtain ⟨hevents, halike⟩ := hfresh.performAll hquiet
  have hentries : ∀ i, final.entries i = final'.entries i := halike.twin.entries
  refine ⟨hevents, ?_, ?_⟩
  · intro k
    exact congrArg (fun m : Contents K V => m[k]?) (hentries (place k)).symm
  · rw [size_eq_sum, size_eq_sum]
    simp only [hentries]

/-- The first transaction under the name 1 fails to validate, and that moves the clock between the beginnings of two others,
of which the first commits and the second is turned down. Without the transaction they fare the same, and so does the next
one under its name. -/
theorem failed_validation_invisible :
    let place : Nat → Fin 2 := fun k => Fin.ofNat 2 k
    let schedule : List (Nat × Action Nat Nat) :=
      [(0, .start), (0, .put 1 10), (0, .commit), (1, .start), (1, .get 1), (1, .put 2 20), (2, .start), (2, .put 3 30),
        (2, .commit), (3, .start), (3, .get 2), (1, .commit), (4, .start), (4, .put 5 50), (3, .put 2 21), (3, .commit),
        (1, .start), (1, .remove 1), (1, .commit), (4, .commit)]
    let hidden : Nat → Nat → Bool := fun t i => t = 1 ∧ i = 1
    let σ := Session.fresh (collection place) Nat
    let shown := shownFrom hidden [] (σ.events schedule)
    publishNothing hidden [] σ schedule ∧ shown.length = 16 ∧
      shown.getLast? = some ⟨4, .commit, .aborted (.validation 1)⟩ ∧ σ.events (shown.map Event.step) = shown := by
  intro place schedule hidden σ shown
  have hquiet : publishNothing hidden [] σ schedule := by decide +kernel
  exact ⟨hquiet, by decide +kernel, by decide +kernel, (unpublished_invisible place schedule hidden hquiet).1⟩

end Striped

end TxnBench
