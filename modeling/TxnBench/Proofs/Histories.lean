import Mathlib.Data.List.Induction
import TxnBench.Proofs.Replay

/-!
# Histories of a session

What a schedule did, step by step, as the clients saw it: an `Event` is an action with the answer it came back with. What a
transaction has done by some point of a history, and what it goes on to do after it, is read off the events under its name.

The lemmas on sessions say what one action does to the open transactions: it concerns the transaction of its own name only.
-/

namespace TxnBench

/-- One call of an open transaction; an action that is no call on a key does nothing here. -/
def Collection.call {K V : Type} (C : Collection K V) (t : C.Txn) (s : C.State) : Action K V → Answer V × C.Txn × C.State
  | .get k =>
    let (reply, t, s) := C.get t s k
    (.ofValue reply, t, s)
  | .contains k =>
    let (reply, t, s) := C.contains t s k
    (.ofPresent reply, t, s)
  | .put k v =>
    let (reply, t, s) := C.put t s k v
    (.ofValue reply, t, s)
  | .remove k =>
    let (reply, t, s) := C.remove t s k
    (.ofValue reply, t, s)
  | .start | .commit | .drop => (.done, t, s)

/-- A step of a history: who did what, and what came of it. -/
structure Event (Name K V : Type) where
  name : Name
  action : Action K V
  answer : Answer V
  deriving DecidableEq, Repr

namespace Event

variable {Name K V : Type} [DecidableEq Name]

/-- Whether an event is a commit that went through. -/
def commits (e : Event Name K V) : Bool :=
  match e.action, e.answer with
  | .commit, .done => true
  | _, _ => false

/-- Whether an event begins or ends a transaction of `t`; the calls between two of these belong to one transaction. -/
def delimits (t : Name) (e : Event Name K V) : Bool :=
  e.name = t ∧ e.action.key?.isNone

/-- The call on a key that an event is for `t`, if it is one that went through. -/
def callsOf (t : Name) (e : Event Name K V) : List (Call K V) :=
  if e.name = t ∧ e.action.key?.isSome ∧ e.answer.isSuccess then [⟨e.action, e.answer⟩] else []

/-- An action delimits the transactions of its name exactly if it is no call on a key. -/
theorem delimits_iff {t u : Name} {a : Action K V} {answer : Answer V} :
    (⟨u, a, answer⟩ : Event Name K V).delimits t = true ↔ u = t ∧ a.key? = none := by
  simp [delimits]

theorem callsOf_of_ne {t u : Name} (h : u ≠ t) (a : Action K V) (answer : Answer V) :
    (⟨u, a, answer⟩ : Event Name K V).callsOf t = [] := by
  simp [callsOf, h]

theorem callsOf_of_success {a : Action K V} {answer : Answer V} (h : a.key?.isSome) (hs : answer.isSuccess = true)
    (t : Name) : (⟨t, a, answer⟩ : Event Name K V).callsOf t = [⟨a, answer⟩] := by
  simp [callsOf, h, hs]

theorem callsOf_of_abort (a : Action K V) (why : Abort) (t u : Name) :
    (⟨u, a, .aborted why⟩ : Event Name K V).callsOf t = [] := by
  simp [callsOf, Answer.isSuccess]

end Event

section Transactions

variable {Name K V : Type} [DecidableEq Name]

/-- The calls that went through for `t`. -/
def made (t : Name) (events : List (Event Name K V)) : List (Call K V) :=
  events.flatMap (Event.callsOf t)

/-- The calls that the open transaction of `t` has made, after the events given, the last of them first. -/
def madeSince (t : Name) : List (Event Name K V) → List (Call K V)
  | [] => []
  | e :: earlier => if e.delimits t then [] else madeSince t earlier ++ e.callsOf t

/-- The calls that the open transaction of `t` goes on to make in the events given, if it then commits. -/
def madeUntilCommit (t : Name) : List (Event Name K V) → Option (List (Call K V))
  | [] => none
  | e :: later =>
    if e.delimits t then if e.commits then some [] else none
    else (madeUntilCommit t later).map (e.callsOf t ++ ·)

/-- The calls of the transaction that has its place in the serial order at an event: a transaction that writes has its place
at its commit, and one that commits and does not write has its place where it began. -/
def placedAt (earlier : List (Event Name K V)) (e : Event Name K V) (later : List (Event Name K V)) : List (Call K V) :=
  match e.action with
  | .start =>
    let calls := (madeUntilCommit e.name later).getD []
    if calls.any Call.writes then [] else calls
  | .commit =>
    let calls := madeSince e.name earlier
    if e.commits ∧ calls.any Call.writes then calls else []
  | _ => []

/-- The calls of all transactions that commit, one transaction after another in the serial order; `earlier` is what was
before the events, the last event first. -/
def serialFrom (earlier : List (Event Name K V)) : List (Event Name K V) → List (Call K V)
  | [] => []
  | e :: later => placedAt earlier e later ++ serialFrom (e :: earlier) later

end Transactions

namespace Session

variable {K V : Type} {C : Collection K V} {Name : Type} [DecidableEq Name]

/-- The collection as a schedule leaves it, with no transaction open. -/
def quietAfter (C : Collection K V) (before : List (Name × Action K V)) : Session C Name :=
  ⟨((fresh C Name).performAll before).2.dropAll, []⟩

/-- What a schedule does, step by step. -/
def events (σ : Session C Name) (schedule : List (Name × Action K V)) : List (Event Name K V) :=
  List.zipWith (fun step answer => ⟨step.1, step.2, answer⟩) schedule (σ.performAll schedule).1

@[simp] theorem events_nil (σ : Session C Name) : σ.events [] = [] :=
  rfl

@[simp] theorem events_cons (σ : Session C Name) (t : Name) (a : Action K V) (rest : List (Name × Action K V)) :
    σ.events ((t, a) :: rest) = ⟨t, a, (σ.perform t a).1⟩ :: (σ.perform t a).2.events rest :=
  rfl

@[simp] theorem performAll_nil (σ : Session C Name) : σ.performAll [] = ([], σ) :=
  rfl

@[simp] theorem performAll_cons (σ : Session C Name) (t : Name) (a : Action K V) (rest : List (Name × Action K V)) :
    (σ.performAll ((t, a) :: rest)).2 = ((σ.perform t a).2.performAll rest).2 :=
  rfl

theorem performAll_append (σ : Session C Name) (first rest : List (Name × Action K V)) :
    (σ.performAll (first ++ rest)).2 = ((σ.performAll first).2.performAll rest).2 := by
  induction first generalizing σ with
  | nil => rfl
  | cons step first ih => exact ih _

/-! ## Open transactions -/

theorem lookup_others (σ : Session C Name) (t u : Name) :
    (σ.others t).lookup u = if u = t then none else σ.txn? u := by
  unfold others txn?
  induction σ.opened with
  | nil => simp
  | cons o rest ih =>
    obtain ⟨v, x⟩ := o
    by_cases hv : v = t
    · subst hv
      rw [List.filter_cons_of_neg (by simp), ih]
      by_cases hu : u = v
      · rw [if_pos hu, if_pos hu]
      · have hb : (u == v) = false := beq_eq_false_iff_ne.mpr hu
        rw [if_neg hu, if_neg hu, List.lookup_cons, hb]
    · rw [List.filter_cons_of_pos (by simpa using hv), List.lookup_cons, List.lookup_cons, ih]
      by_cases hu : u = v
      · rw [hu, beq_self_eq_true]
        exact (if_neg hv).symm
      · have hb : (u == v) = false := beq_eq_false_iff_ne.mpr hu
        rw [hb]

/-- The open transactions once that of `t` is replaced. -/
theorem txn?_cons_others (σ : Session C Name) (t u : Name) (x : C.Txn) (s : C.State) :
    (⟨s, (t, x) :: σ.others t⟩ : Session C Name).txn? u = if u = t then some x else σ.txn? u := by
  have h := σ.lookup_others t u
  rw [txn?, List.lookup_cons]
  by_cases hu : u = t
  · simp [hu]
  · have hne : (u == t) = false := beq_eq_false_iff_ne.mpr hu
    rw [hne, if_neg hu]
    rw [if_neg hu] at h
    exact h

/-- The open transactions once that of `t` is over. -/
theorem txn?_others (σ : Session C Name) (t u : Name) (s : C.State) :
    (⟨s, σ.others t⟩ : Session C Name).txn? u = if u = t then none else σ.txn? u :=
  σ.lookup_others t u

/-- A call of an open transaction on a key. -/
theorem perform_call (σ : Session C Name) {t : Name} {x : C.Txn} (h : σ.txn? t = some x) {a : Action K V}
    (ha : a.key?.isSome) :
    σ.perform t a = ((C.call x σ.state a).1, ⟨(C.call x σ.state a).2.2, (t, (C.call x σ.state a).2.1) :: σ.others t⟩) := by
  cases a with
  | start | commit | drop => cases ha
  | get | contains | put | remove =>
    simp only [perform, Session.call, h]
    rfl

/-- A call of an open transaction leaves it open. -/
theorem txn?_perform_call (σ : Session C Name) {t : Name} {x : C.Txn} (h : σ.txn? t = some x) {a : Action K V}
    (ha : a.key?.isSome) : (σ.perform t a).2.txn? t = some (C.call x σ.state a).2.1 := by
  rw [σ.perform_call h ha, txn?_cons_others, if_pos rfl]

theorem perform_start (σ : Session C Name) (t : Name) :
    σ.perform t .start = (.done, ⟨(C.start σ.state).2, (t, (C.start σ.state).1) :: σ.others t⟩) :=
  rfl

/-- Under a name that has no transaction, there is none to call, to commit or to drop. -/
theorem perform_of_none (σ : Session C Name) {t : Name} (h : σ.txn? t = none) (a : Action K V) (ha : a ≠ .start) :
    σ.perform t a = (.unknown, σ) := by
  cases a with
  | start => exact absurd rfl ha
  | get | contains | put | remove => simp only [perform, Session.call, h]
  | commit | drop => simp only [perform, h]

theorem perform_commit (σ : Session C Name) {t : Name} {x : C.Txn} (h : σ.txn? t = some x) :
    σ.perform t .commit = (.ofUnit (C.commit x σ.state).1, ⟨(C.commit x σ.state).2, σ.others t⟩) := by
  simp only [perform, h]

theorem perform_drop (σ : Session C Name) {t : Name} {x : C.Txn} (h : σ.txn? t = some x) :
    σ.perform t .drop = (.done, ⟨C.drop x σ.state, σ.others t⟩) := by
  simp only [perform, h]

/-- An action concerns the transaction of its own name only. -/
theorem txn?_perform_of_ne (σ : Session C Name) {t u : Name} (h : u ≠ t) (a : Action K V) :
    (σ.perform t a).2.txn? u = σ.txn? u := by
  by_cases ha : a = .start
  · subst ha
    rw [perform_start, txn?_cons_others, if_neg h]
  · cases hx : σ.txn? t with
    | none => rw [σ.perform_of_none hx a ha]
    | some x =>
      cases a with
      | start => exact absurd rfl ha
      | get | contains | put | remove => rw [σ.perform_call hx rfl, txn?_cons_others, if_neg h]
      | commit => rw [σ.perform_commit hx, txn?_others, if_neg h]
      | drop => rw [σ.perform_drop hx, txn?_others, if_neg h]

/-- A transaction that an action leaves open, and does not begin, was open before. -/
theorem exists_txn?_of_perform (σ : Session C Name) {t u : Name} {a : Action K V} {x' : C.Txn}
    (hd : (⟨t, a, (σ.perform t a).1⟩ : Event Name K V).delimits u = false)
    (hx' : (σ.perform t a).2.txn? u = some x') : ∃ x, σ.txn? u = some x := by
  by_cases e : t = u
  · subst e
    cases hx : σ.txn? t with
    | some x => exact ⟨x, rfl⟩
    | none =>
      have ha : a ≠ .start := by
        rintro rfl
        rw [Event.delimits_iff.mpr ⟨rfl, rfl⟩] at hd
        cases hd
      rw [σ.perform_of_none hx a ha] at hx'
      exact absurd (hx.symm.trans hx') nofun
  · exact ⟨x', (σ.txn?_perform_of_ne (fun h => e h.symm) a).symm.trans hx'⟩

/-- A commit or a drop leaves its name without a transaction. -/
theorem txn?_perform_of_end (σ : Session C Name) (t : Name) {a : Action K V} (h : a = .commit ∨ a = .drop) :
    (σ.perform t a).2.txn? t = none := by
  cases hx : σ.txn? t with
  | none =>
    rw [σ.perform_of_none hx a (by rcases h with rfl | rfl <;> nofun)]
    exact hx
  | some x =>
    rcases h with rfl | rfl
    · rw [σ.perform_commit hx, txn?_others, if_pos rfl]
    · rw [σ.perform_drop hx, txn?_others, if_pos rfl]

/-- A transaction open at the end of a schedule began in it, and nothing after that began or ended one of its name. -/
theorem exists_start_of_txn? {schedule : List (Name × Action K V)} {t : Name} {x : C.Txn}
    (h : ((fresh C Name).performAll schedule).2.txn? t = some x) :
    ∃ before during, schedule = before ++ (t, .start) :: during ∧ ∀ step ∈ during, step.1 = t → step.2.key?.isSome := by
  induction schedule using List.reverseRecOn generalizing x with
  | nil => cases h
  | append_singleton schedule step ih =>
    obtain ⟨u, a⟩ := step
    rw [performAll_append, performAll_cons, performAll_nil] at h
    by_cases hd : u = t ∧ a.key? = none
    · obtain ⟨rfl, ha⟩ := hd
      have hstart : a = .start := by
        cases a with
        | start => rfl
        | get | contains | put | remove => cases ha
        | commit => exact absurd ((txn?_perform_of_end _ u (Or.inl rfl)).symm.trans h) nofun
        | drop => exact absurd ((txn?_perform_of_end _ u (Or.inr rfl)).symm.trans h) nofun
      exact ⟨schedule, [], by rw [hstart], by simp⟩
    · obtain ⟨x', hx'⟩ := exists_txn?_of_perform _ (Bool.eq_false_iff.mpr fun e => hd (Event.delimits_iff.mp e)) h
      obtain ⟨before, during, hsplit, hduring⟩ := ih hx'
      refine ⟨before, during ++ [(u, a)], by rw [hsplit, List.append_assoc, List.cons_append], ?_⟩
      intro step hstep e
      rcases List.mem_append.mp hstep with hstep | hstep
      · exact hduring step hstep e
      · cases List.mem_singleton.mp hstep
        exact Option.isSome_iff_ne_none.mpr fun ha => hd ⟨e, ha⟩

end Session

end TxnBench
