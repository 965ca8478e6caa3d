import TxnBench.Bench.Workers
import TxnBench.Proofs.Workers.Moves

/-!
# Workers taking turns

A `Crew` is any number of workers on one collection. A turn is one call of one worker, and a schedule of turns is the list
of the workers whose turn it is, in any order; to run workers one after another is one such schedule (`runEach_eq_turns`).
Whatever the collection answers, the accounts of every worker are kept (`Accounted.turns`), and a worker that has had three
turns for each of its tasks has no effort left (`effort_turns`).
-/

namespace TxnBench

/-- The sum over a list in which one element is replaced. -/
theorem sum_map_set {α : Type} (f : α → Nat) {l : List α} {i : Nat} {a : α} (h : l[i]? = some a) (b : α) :
    ((l.set i b).map f).sum + f a = (l.map f).sum + f b := by
  induction l generalizing i with
  | nil => cases h
  | cons x rest ih =>
    cases i with
    | zero =>
      cases h
      simp only [List.set_cons_zero, List.map_cons, List.sum_cons]
      omega
    | succ i =>
      have := ih h
      simp only [List.set_cons_succ, List.map_cons, List.sum_cons]
      omega

/-- Sums are compared element by element. -/
theorem sum_map_le_sum_map {α β : Type} {f : α → Nat} {g : β → Nat} {l : List α} {m : List β} (hlen : l.length = m.length)
    (h : ∀ (i : Nat) a b, l[i]? = some a → m[i]? = some b → f a ≤ g b) : (l.map f).sum ≤ (m.map g).sum := by
  induction l generalizing m with
  | nil => exact Nat.zero_le _
  | cons a l ih =>
    cases m with
    | nil => cases hlen
    | cons b m =>
      have hhead := h 0 a b rfl rfl
      have hrest := ih (Nat.succ.inj hlen) fun i => h (i + 1)
      simp only [List.map_cons, List.sum_cons]
      omega

/-- Workers on one collection. -/
structure Crew (C : Collection UInt64 UInt64) where
  workers : List (Worker C.Txn)
  state : C.State

namespace Crew

variable {C : Collection UInt64 UInt64}

/-- Workers that have done nothing yet, each with a slice of its own. -/
def fresh (C : Collection UInt64 UInt64) (slices : List (List Task)) (s : C.State) : Crew C :=
  ⟨slices.map Worker.fresh, s⟩

/-- Worker `i` makes its next call; each worker has its own limit. -/
def turn (limit : Nat → UInt64) (crew : Crew C) (i : Nat) : Crew C :=
  match crew.workers[i]? with
  | none => crew
  | some w =>
    let (w, s) := Worker.step C (limit i) w crew.state
    ⟨crew.workers.set i w, s⟩

/-- Workers make calls in the order given. -/
def turns (limit : Nat → UInt64) (crew : Crew C) (schedule : List Nat) : Crew C :=
  schedule.foldl (turn limit) crew

/-- Whether every worker is finished. -/
def finished (crew : Crew C) : Bool :=
  crew.workers.all Worker.finished

/-- What all workers together have counted. -/
def count (crew : Crew C) (c : Counter) : Nat :=
  (crew.workers.map fun w => w.stats.count c).sum

/-- Every worker has its accounts in order. -/
structure Accounted (slices : List (List Task)) (crew : Crew C) : Prop where
  length : crew.workers.length = slices.length
  accounts : ∀ (i : Nat) slice w, slices[i]? = some slice → crew.workers[i]? = some w → Worker.Accounts slice w

variable {limit : Nat → UInt64} {slices : List (List Task)} {crew : Crew C}

/-- Workers that have done nothing have counted nothing. -/
theorem count_fresh (slices : List (List Task)) (s : C.State) (c : Counter) : (fresh C slices s).count c = 0 := by
  induction slices with
  | nil => rfl
  | cons slice rest ih =>
    change (Worker.fresh slice : Worker C.Txn).stats.count c + (fresh C rest s).count c = 0
    rw [ih]
    exact Stats.count_empty c

/-- The turn of a worker that there is. -/
theorem turn_of_getElem? {i : Nat} {w : Worker C.Txn} (hw : crew.workers[i]? = some w) :
    crew.turn limit i =
      ⟨crew.workers.set i (Worker.step C (limit i) w crew.state).1, (Worker.step C (limit i) w crew.state).2⟩ := by
  rw [turn, hw]

/-- The turn of a worker that there is not. -/
theorem turn_of_none {i : Nat} (hw : crew.workers[i]? = none) : crew.turn limit i = crew := by
  rw [turn, hw]

theorem length_turn (crew : Crew C) (i : Nat) : (crew.turn limit i).workers.length = crew.workers.length := by
  rw [turn]
  split
  · rfl
  · exact List.length_set

/-- A turn of one worker is none of another. -/
theorem getElem?_turn_of_ne {i j : Nat} (h : i ≠ j) : (crew.turn limit i).workers[j]? = crew.workers[j]? := by
  rw [turn]
  split
  · rfl
  · exact List.getElem?_set_ne h

/-- After its turn, a worker has made a step. -/
theorem getElem?_turn_self (limit : Nat → UInt64) {i : Nat} {w : Worker C.Txn} (hw : crew.workers[i]? = some w) :
    (crew.turn limit i).workers[i]? = some (Worker.step C (limit i) w crew.state).1 := by
  rw [turn_of_getElem? hw]
  exact List.getElem?_set_self (List.getElem?_eq_some_iff.mp hw).1

/-- What a turn adds to what all have counted is what its worker has counted in it. -/
theorem count_turn (limit : Nat → UInt64) {i : Nat} {w : Worker C.Txn} (hw : crew.workers[i]? = some w) (c : Counter) :
    (crew.turn limit i).count c + w.stats.count c =
      crew.count c + (Worker.step C (limit i) w crew.state).1.stats.count c := by
  rw [turn_of_getElem? hw]
  exact sum_map_set (fun w : Worker C.Txn => w.stats.count c) hw _

theorem Accounted.fresh (s : C.State) : Accounted slices (fresh C slices s) where
  length := List.length_map _
  accounts i slice w hi hw := by
    rw [Crew.fresh, List.getElem?_map, hi] at hw
    cases hw
    exact Worker.Accounts.fresh slice

/-- No counter of all workers together stands higher than there are tasks. -/
theorem Accounted.count_le (h : Accounted slices crew) (c : Counter) : crew.count c ≤ (slices.map List.length).sum :=
  sum_map_le_sum_map h.length fun i w slice hw hslice => (h.accounts i slice w hslice hw).count_le c

variable (hlen : ∀ slice ∈ slices, slice.length < 2 ^ 64)

include hlen in
/-- A turn is a move of its worker. -/
theorem Accounted.move (h : Accounted slices crew) (limit : Nat → UInt64) {i : Nat} {w : Worker C.Txn}
    (hw : crew.workers[i]? = some w) :
    ∃ slice, slices[i]? = some slice ∧ Worker.Accounts slice w ∧
      Worker.Move C (limit i) w crew.state (Worker.step C (limit i) w crew.state).1
        (Worker.step C (limit i) w crew.state).2 := by
  have hi : i < slices.length := h.length ▸ (List.getElem?_eq_some_iff.mp hw).1
  have hslice : slices[i]? = some slices[i] := List.getElem?_eq_getElem hi
  have ha := h.accounts i _ w hslice hw
  exact ⟨_, hslice, ha, Worker.step_moves ha (hlen _ (List.getElem_mem hi)) _⟩

include hlen in
/-- A turn keeps all accounts. -/
theorem Accounted.turn (h : Accounted slices crew) (i : Nat) : Accounted slices (crew.turn limit i) where
  length := (length_turn crew i).trans h.length
  accounts j slice v hj hv := by
    by_cases e : i = j
    · subst e
      cases hw : crew.workers[i]? with
      | none =>
        rw [turn_of_none hw, hw] at hv
        cases hv
      | some w =>
        obtain ⟨_, hslice, ha, hm⟩ := h.move hlen limit hw
        cases hj.symm.trans hslice
        cases (getElem?_turn_self limit hw).symm.trans hv
        exact hm.accounts ha
    · rw [getElem?_turn_of_ne e] at hv
      exact h.accounts j slice v hj hv

include hlen in
/-- A schedule keeps all accounts. -/
theorem Accounted.turns (h : Accounted slices crew) (schedule : List Nat) : Accounted slices (crew.turns limit schedule) := by
  induction schedule generalizing crew with
  | nil => exact h
  | cons i rest ih => exact ih (h.turn hlen i)

include hlen in
/-- A worker has spent effort on each of its turns, until there was none left. -/
theorem effort_turns (h : Accounted slices crew) {schedule : List Nat} {i : Nat} {w w' : Worker C.Txn}
    (hw : crew.workers[i]? = some w) (hw' : (crew.turns limit schedule).workers[i]? = some w') :
    w'.effort ≤ w.effort - schedule.count i := by
  induction schedule generalizing crew w with
  | nil =>
    cases hw.symm.trans hw'
    exact Nat.le_refl _
  | cons j rest ih =>
    by_cases e : j = i
    · subst e
      obtain ⟨_, -, -, hm⟩ := h.move hlen limit hw
      have hstep := hm.effort_le
      have hrest := ih (h.turn hlen j) (getElem?_turn_self limit hw) hw'
      rw [List.count_cons_self]
      omega
    · have hrest := ih (h.turn hlen j) ((getElem?_turn_of_ne e).trans hw) hw'
      rwa [List.count_cons_of_ne e]

include hlen in
/-- A worker that has had three turns for every task of its slice, and did not break off, is finished. -/
theorem finished_of_count (s : C.State) {schedule : List Nat} {i : Nat} {slice : List Task} {w : Worker C.Txn}
    (hslice : slices[i]? = some slice) (hw : ((fresh C slices s).turns limit schedule).workers[i]? = some w)
    (hbroken : ∀ f, w.phase ≠ .broken f) (hcount : 3 * slice.length ≤ schedule.count i) : w.finished := by
  have h : Accounted slices (fresh C slices s) := .fresh s
  have hfirst : (fresh C slices s).workers[i]? = some (Worker.fresh slice) := by
    rw [fresh, List.getElem?_map, hslice]
    rfl
  have heffort : w.effort ≤ 3 * slice.length - schedule.count i := effort_turns hlen h hfirst hw
  exact Worker.finished_of_effort ((h.turns hlen schedule).accounts i slice w hslice hw) hbroken (by omega)

/-- There is a worker for every slice. -/
theorem Accounted.exists_worker (h : Accounted slices crew) {i : Nat} {slice : List Task} (hslice : slices[i]? = some slice) :
    ∃ w, crew.workers[i]? = some w :=
  ⟨_, List.getElem?_eq_getElem (h.length.symm ▸ (List.getElem?_eq_some_iff.mp hslice).1)⟩

/-! ## One worker after another -/

/-- The schedule in which workers, the first of them being worker `i`, do all their work one after another. -/
def oneByOne (i : Nat) : List (List Task) → List Nat
  | [] => []
  | slice :: rest => List.replicate (3 * slice.length) i ++ oneByOne (i + 1) rest

theorem turns_append (limit : Nat → UInt64) (crew : Crew C) (first rest : List Nat) :
    crew.turns limit (first ++ rest) = (crew.turns limit first).turns limit rest :=
  List.foldl_append

/-- Several turns in a row are the steps of one worker. -/
theorem turns_replicate (limit : Nat → UInt64) (steps : Nat) {crew : Crew C} {i : Nat} {w : Worker C.Txn}
    (hw : crew.workers[i]? = some w) :
    crew.turns limit (List.replicate steps i) =
      ⟨crew.workers.set i (Worker.steps C (limit i) steps w crew.state).1,
        (Worker.steps C (limit i) steps w crew.state).2⟩ := by
  induction steps generalizing crew w with
  | zero =>
    obtain ⟨hi, rfl⟩ := List.getElem?_eq_some_iff.mp hw
    exact congrArg (Crew.mk · crew.state) (List.set_getElem_self hi).symm
  | succ steps ih =>
    have hrest := ih (getElem?_turn_self limit hw)
    rw [turn_of_getElem? hw] at hrest
    simp only [List.set_set] at hrest
    rw [List.replicate_succ]
    change (crew.turn limit i).turns limit _ = _
    rw [turn_of_getElem? hw]
    exact hrest

/-- Workers that run one after another, after others that are done, have taken turns one by one. -/
theorem runEach_eq_oneByOne (limit : UInt64) (finished : List (Worker C.Txn)) (slices : List (List Task)) (s : C.State) :
    ∃ workers, (Crew.mk (finished ++ slices.map Worker.fresh) s).turns (fun _ => limit) (oneByOne finished.length slices) =
        ⟨finished ++ workers, (Workers.runEach C limit slices s).2⟩ ∧
      (Workers.runEach C limit slices s).1 = List.zipWith (fun slice w => w.report slice.length) slices workers := by
  induction slices generalizing finished s with
  | nil => exact ⟨[], rfl, rfl⟩
  | cons slice rest ih =>
    rcases hrun : Worker.steps C limit (3 * slice.length) (Worker.fresh slice) s with ⟨w, s'⟩
    obtain ⟨workers, hturns, hreports⟩ := ih (finished ++ [w]) s'
    refine ⟨w :: workers, ?_, ?_⟩
    · have hw : (finished ++ (slice :: rest).map Worker.fresh)[finished.length]? = some (Worker.fresh slice) := by
        simp
      rw [oneByOne, turns_append, turns_replicate (fun _ => limit) _ hw, hrun]
      simp only [List.map_cons, List.append_assoc, List.length_append, List.length_singleton, List.cons_append,
        List.nil_append] at hturns ⊢
      rw [List.set_append_right _ _ (Nat.le_refl _), Nat.sub_self, List.set_cons_zero, hturns]
      simp only [Workers.runEach, Worker.run, hrun]
    · simp only [Workers.runEach, Worker.run, hrun, hreports, List.zipWith_cons_cons]

/-- Workers that run one after another have taken turns one by one. -/
theorem runEach_eq_turns (limit : UInt64) (slices : List (List Task)) (s : C.State) :
    let crew := (fresh C slices s).turns (fun _ => limit) (oneByOne 0 slices)
    Workers.runEach C limit slices s =
      (List.zipWith (fun slice w => w.report slice.length) slices crew.workers, crew.state) := by
  obtain ⟨workers, hturns, hreports⟩ := runEach_eq_oneByOne limit [] slices s
  change (fresh C slices s).turns _ (oneByOne 0 slices) = _ at hturns
  rw [hturns]
  exact Prod.ext hreports rfl

end Crew

end TxnBench
