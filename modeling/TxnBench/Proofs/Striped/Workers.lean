import TxnBench.Proofs.Reports
import TxnBench.Proofs.Striped.Sessions
import TxnBench.Proofs.Workers.Crew

/-!
# Workers on the striped collection

A worker counts what its calls insert and remove, against what was there when its transaction began; when it commits, others
may long have changed the same keys. Still, a commit changes the number of entries by just what was counted
(`Live.size_commit`), since the calls can be replayed where the commit publishes, or where the transaction began if there is
nothing to write. So every move of a worker keeps the balance of the entries there are and those that workers have counted
(`Busy.move`), and so does every schedule (`AtWork.turns`).
-/

namespace TxnBench

/-- The open transaction of a worker. -/
def Worker.txn? {T : Type} (w : Worker T) : Option T :=
  match w.phase with
  | .running t | .closing t => some t
  | _ => none

namespace Striped

variable {n : Nat} {place : UInt64 → Fin n}

/-! ## Transactions and the number of entries -/

section Transactions

variable {K V : Type} [Ord K] [Std.TransOrd K] {place : K → Fin n} {s s' s₀ : Striped K V n} {t : Txn K V n}
  {calls : List (Call K V)}

/-- A commit that is turned down leaves as many entries as there were. -/
theorem size_of_commit_aborted (hs : Sound place s) {why : Abort} (hc : (collection place).commit t s = (.abort why, s')) :
    s'.size = s.size := by
  rcases commit_cases hs t with ⟨-, h⟩ | ⟨-, i, -, h⟩ | ⟨-, -, h⟩
  · cases hc.symm.trans h
  · cases hc.symm.trans h
    rfl
  · cases hc.symm.trans h

/-- A commit does not break off. -/
theorem commit_ne_fault (hs : Sound place s) (t : Txn K V n) (f : Fault) :
    ((collection place).commit t s).1 ≠ .fault f := by
  rcases commit_cases hs t with ⟨-, h⟩ | ⟨-, i, -, h⟩ | ⟨-, -, h⟩ <;>
  · rw [h]
    nofun

variable [Std.LawfulEqOrd K] [DecidableEq K]

/-- A commit that goes through changes the number of entries by what the calls of its transaction inserted and removed. -/
theorem Live.size_commit (h : Live place s₀ calls t s) (hs : Sound place s)
    (hc : (collection place).commit t s = (.value (), s')) : s'.size + removals calls = s.size + insertions calls := by
  rcases commit_cases hs t with ⟨hw, hcommit⟩ | ⟨-, i, -, hcommit⟩ | ⟨-, ho, hcommit⟩
  · cases hc.symm.trans hcommit
    have hreplay := (h.replays_start hw).size
    omega
  · cases hc.symm.trans hcommit
  · cases hc.symm.trans hcommit
    have hreplay := (h.replays_written hs ho).size
    rwa [hs.size_contents, (hs.written t).size_contents] at hreplay

/-- A call of an open transaction does not break off. -/
theorem Live.call_ne_faulted (h : Live place s₀ calls t s) (hs : Sound place s) {a : Action K V} {k : K}
    (ha : a.key? = some k) (f : Fault) : ((collection place).call t s a).1 ≠ .faulted f := by
  rcases h.call hs ha with ⟨-, -, hc⟩ | ⟨-, t', hc, -⟩
  · rw [hc]
    nofun
  · rw [hc]
    intro e
    change a.answer _ = _ at e
    have hok := a.isSuccess_answer (s₀.contents.overlay t.writeSet)[k]?
    rw [e] at hok
    cases hok

/-- A call of an open transaction that goes through is one of its calls from then on. -/
theorem Live.call_of_success (h : Live place s₀ calls t s) (hs : Sound place s) {a : Action K V} {k : K}
    (ha : a.key? = some k) {answer : Answer V} {t' : Txn K V n} (hc : (collection place).call t s a = (answer, t', s'))
    (hok : answer.isSuccess) : s' = s ∧ Live place s₀ (calls ++ [⟨a, answer⟩]) t' s := by
  rcases h.call hs ha with ⟨-, -, hcall⟩ | ⟨-, x, hcall, hl⟩
  · cases hc.symm.trans hcall
    cases hok
  · cases hc.symm.trans hcall
    exact ⟨rfl, hl⟩

end Transactions

/-! ## One worker -/

/-- A worker at work: it did not break off, and its batch has counted what the calls of its open transaction inserted and
removed. -/
structure Busy (place : UInt64 → Fin n) (w : Worker (Txn UInt64 UInt64 n)) (s : Striped UInt64 UInt64 n) : Prop where
  unbroken : ∀ f, w.phase ≠ .broken f
  live : ∀ t, w.txn? = some t → ∃ s₀ calls, Live place s₀ calls t s ∧ insertions calls = w.batch.inserts.toNat ∧
    removals calls = w.batch.removes.toNat

namespace Busy

/-- Whatever others do, a worker at work stays so. -/
theorem mono {w : Worker (Txn UInt64 UInt64 n)} {s s' : Striped UInt64 UInt64 n} (h : Busy place w s) (hl : Later s s') :
    Busy place w s' where
  unbroken := h.unbroken
  live t ht := by
    obtain ⟨s₀, calls, hlive, hi, hr⟩ := h.live t ht
    exact ⟨s₀, calls, hlive.mono hl, hi, hr⟩

/-- A worker without a transaction is at work. -/
theorem idle (s : Striped UInt64 UInt64 n) (todo : List Task) (b : Batch) (stats : Stats) :
    Busy place ⟨todo, .idle, b, stats⟩ s where
  unbroken := nofun
  live := nofun

/-- A move changes the number of entries by what it adds to the counts of entries inserted and removed. -/
theorem move {limit : UInt64} {w w' : Worker (collection (V := UInt64) place).Txn}
    {s s' : (collection (V := UInt64) place).State} (hs : Sound place s) (hb : Busy place w s)
    (hm : Worker.Move (collection place) limit w s w' s') :
    Sound place s' ∧ Later (n := n) s s' ∧ Busy place w' s' ∧
      size (n := n) s' + w.stats.count .inserts + w'.stats.count .removes =
        size (n := n) s + w'.stats.count .inserts + w.stats.count .removes := by
  cases hm with
  | rest | broken => exact ⟨hs, Later.refl s, hb, rfl⟩
  | start =>
    refine ⟨hs, Later.refl s, ⟨nofun, ?_⟩, rfl⟩
    intro t ht
    cases ht
    exact ⟨s, [], Live.start hs, rfl, rfl⟩
  | @carry task todo b b' stats t t' _ _ answer called ok size inserts removes =>
    obtain ⟨s₀, calls, hlive, hi, hr⟩ := hb.live t rfl
    obtain ⟨rfl, hl⟩ := hlive.call_of_success hs task.key?_action called ok
    refine ⟨hs, Later.refl _, ⟨?_, ?_⟩, rfl⟩
    · intro f hf
      cases hfull : Worker.isFull limit b' todo <;> rw [hfull] at hf <;> cases hf
    · intro x hx
      have hx' : x = t' := by
        cases hfull : Worker.isFull limit b' todo <;> rw [hfull] at hx <;> cases hx <;> rfl
      subst hx'
      refine ⟨s₀, _, hl, ?_, ?_⟩
      · rw [inserts, insertions_append_singleton, hi]
      · rw [removes, removals_append_singleton, hr]
  | @refuse task todo b stats stats' size t t' _ s'' why called grown counting =>
    obtain ⟨-, -, hi, hr, -, -⟩ := Stats.count_of_abort counting
    have hstate : s'' = s := (congrArg (·.2.2) called).symm.trans (state_call t s task.action)
    subst hstate
    refine ⟨hs, Later.refl _, idle _ _ _ _, ?_⟩
    dsimp only
    rw [hi, hr]
    rfl
  | @breakOff task todo b stats size t t' _ _ f called grown =>
    obtain ⟨s₀, calls, hlive, -, -⟩ := hb.live t rfl
    exact absurd (congrArg Prod.fst called) (hlive.call_ne_faulted hs task.key?_action f)
  | @commit todo b stats stats' t _ _ committed counting =>
    obtain ⟨s₀, calls, hlive, hi, hr⟩ := hb.live t rfl
    obtain ⟨-, -, hi', hr', -, -⟩ := Stats.count_of_commit counting
    have hsize := hlive.size_commit hs committed
    obtain ⟨hs', hlater⟩ := hs.of_commit committed
    refine ⟨hs', hlater, idle _ _ _ _, ?_⟩
    dsimp only at hi hr hi' hr' ⊢
    omega
  | @fail todo b stats stats' t _ _ why committed counting =>
    obtain ⟨-, -, hi, hr, -, -⟩ := Stats.count_of_abort counting
    obtain ⟨hs', hlater⟩ := hs.of_commit committed
    refine ⟨hs', hlater, idle _ _ _ _, ?_⟩
    dsimp only
    rw [hi, hr, size_of_commit_aborted hs committed]
  | @breakCommit todo b stats t _ _ f committed =>
    exact absurd (congrArg Prod.fst committed) (commit_ne_fault hs t f)

end Busy

/-! ## Workers taking turns -/

/-- Workers at work: the entries there are, and those that were removed, are as many as those there were at first and those
that were inserted. -/
structure AtWork (slices : List (List Task)) (initial : Nat) (crew : Crew (collection (V := UInt64) place)) : Prop where
  accounted : crew.Accounted slices
  sound : Sound place crew.state
  busy : ∀ w ∈ crew.workers, Busy place w crew.state
  balance : size (n := n) crew.state + crew.count .removes = initial + crew.count .inserts

namespace AtWork

variable {slices : List (List Task)} {initial : Nat} {crew : Crew (collection (V := UInt64) place)} {limit : Nat → UInt64}

theorem fresh {s : (collection (V := UInt64) place).State} (h : Sound place s) :
    AtWork slices (size (n := n) s) (Crew.fresh (collection place) slices s) where
  accounted := Crew.Accounted.fresh s
  sound := h
  busy w hw := by
    obtain ⟨slice, -, rfl⟩ := List.mem_map.mp hw
    exact Busy.idle s slice _ _
  balance := by
    rw [Crew.count_fresh, Crew.count_fresh]
    rfl

variable (hlen : ∀ slice ∈ slices, slice.length < 2 ^ 64)

include hlen in
/-- A turn keeps the balance. -/
theorem turn (h : AtWork slices initial crew) (i : Nat) : AtWork slices initial (crew.turn limit i) := by
  cases hw : crew.workers[i]? with
  | none =>
    rw [Crew.turn_of_none hw]
    exact h
  | some w =>
    obtain ⟨_, -, -, hm⟩ := h.accounted.move hlen limit hw
    obtain ⟨hs, hlater, hb, hbalance⟩ := Busy.move h.sound (h.busy w (List.mem_of_getElem? hw)) hm
    have hins := Crew.count_turn limit hw .inserts
    have hrem := Crew.count_turn limit hw .removes
    have hbefore := h.balance
    refine ⟨h.accounted.turn hlen i, ?_, ?_, ?_⟩
    · rw [Crew.turn_of_getElem? hw]
      exact hs
    · intro v hv
      rw [Crew.turn_of_getElem? hw] at hv ⊢
      rcases List.mem_or_eq_of_mem_set hv with hv | rfl
      · exact (h.busy v hv).mono hlater
      · exact hb
    · have hstate : (crew.turn limit i).state = (Worker.step _ (limit i) w crew.state).2 := by
        rw [Crew.turn_of_getElem? hw]
      rw [hstate]
      omega

include hlen in
/-- A schedule keeps the balance. -/
theorem turns (h : AtWork slices initial crew) (schedule : List Nat) :
    AtWork slices initial (crew.turns limit schedule) := by
  induction schedule generalizing crew with
  | nil => exact h
  | cons i rest ih => exact ih (h.turn hlen i)

/-- Workers at work give a report that finds nothing amiss, if the entries and tasks are no more than a signed word can
count. -/
theorem exists_consistent (h : AtWork slices initial crew) (hfit : initial + (slices.map List.length).sum < 2 ^ 63)
    (elapsed : Duration) :
    ∃ r, Report.aggregate (UInt64.ofNat initial) (crew.workers.map fun w => w.stats) ((collection place).size crew.state)
      elapsed = .ok r ∧ r.isConsistent := by
  have hcount : ∀ c, ((crew.workers.map fun w => w.stats).map fun st => st.count c).sum = crew.count c := fun c => by
    rw [List.map_map]
    rfl
  have hins := h.accounted.count_le .inserts
  have hrem := h.accounted.count_le .removes
  have hbalance := h.balance
  have hinitial : (UInt64.ofNat initial).toNat = initial := UInt64.toNat_ofNat_of_lt' (show initial < 2 ^ 64 by omega)
  have hsize : ((collection place).size crew.state).toNat = size (n := n) crew.state :=
    UInt64.toNat_ofNat_of_lt' (show size (n := n) crew.state < 2 ^ 64 by omega)
  obtain ⟨r, hr, hactual, hexpected⟩ := Report.exists_aggregate (UInt64.ofNat initial)
    ((collection place).size crew.state) elapsed
    (fun c => by
      have hle := h.accounted.count_le c
      rw [hcount]
      omega)
    (by
      rw [hcount, hinitial]
      omega)
    (by
      rw [hcount]
      omega)
  refine ⟨r, hr, Report.isConsistent_iff.mpr ?_⟩
  rw [hactual, hexpected, hcount, hcount, hinitial, hsize]
  omega

end AtWork

/-- The size invariant. Let any number of workers, each with a slice and a limit of its own, take turns in any order on the
striped collection, whatever it held before. Nobody breaks off, and whoever has had three turns for each task is finished.
When all are finished, each has counted every task of its slice, and the entries there are, with those that workers have
removed, are as many as those there were at first, with those that workers have inserted; so the report finds the size it
expects, as long as the entries and tasks, which are in memory together, are no more than a signed word can count. -/
theorem size_after_workers (place : UInt64 → Fin n) (before : List (Nat × Action UInt64 UInt64)) (slices : List (List Task))
    (hlen : ∀ slice ∈ slices, slice.length < 2 ^ 64) (limit : Nat → UInt64) (schedule : List Nat) :
    let s := (Session.quietAfter (collection (V := UInt64) place) before).state
    let crew := (Crew.fresh (collection place) slices s).turns limit schedule
    (∀ w ∈ crew.workers, ∀ f, w.phase ≠ .broken f) ∧
      (∀ (i : Nat) slice w, slices[i]? = some slice → crew.workers[i]? = some w →
        3 * slice.length ≤ schedule.count i → w.finished) ∧
      (crew.finished →
        (∀ (i : Nat) slice, slices[i]? = some slice → ∃ w, crew.workers[i]? = some w ∧
          w.report slice.length = .ok w.stats ∧ w.stats.succeeded.toNat + w.stats.failed.toNat = slice.length) ∧
        size (n := n) crew.state + (crew.workers.map fun w => w.stats.removes.toNat).sum =
          size (n := n) s + (crew.workers.map fun w => w.stats.inserts.toNat).sum ∧
        (size (n := n) s + (slices.map List.length).sum < 2 ^ 63 → ∀ elapsed, ∃ r,
          Report.aggregate ((collection (V := UInt64) place).size s) (crew.workers.map fun w => w.stats)
            ((collection place).size crew.state) elapsed = .ok r ∧ r.isConsistent)) := by
  intro s crew
  have h : AtWork slices (size (n := n) s) crew := (AtWork.fresh (sound_quietAfter before)).turns hlen schedule
  refine ⟨?_, ?_, ?_⟩
  · intro w hw
    exact (h.busy w hw).unbroken
  · intro i slice w hslice hw hcount
    exact Crew.finished_of_count hlen s hslice hw (h.busy w (List.mem_of_getElem? hw)).unbroken hcount
  · intro hdone
    refine ⟨?_, h.balance, fun hfit elapsed => h.exists_consistent hfit elapsed⟩
    intro i slice hslice
    obtain ⟨w, hw⟩ := h.accounted.exists_worker hslice
    have ha := h.accounted.accounts i slice w hslice hw
    have hfin : w.finished := List.all_eq_true.mp hdone w (List.mem_of_getElem? hw)
    exact ⟨w, hw, Worker.report_of_finished ha hfin (hlen slice (List.mem_of_getElem? hslice)),
      Worker.counted_of_finished ha hfin⟩

/-- Two workers take turns over the same keys, and a batch of the second is turned down; the sizes still add up. -/
theorem two_workers_keep_size :
    let place : UInt64 → Fin 2 := fun k => Fin.ofNat 2 k.toNat
    let slices : List (List Task) :=
      [[⟨.insert, 2, 20⟩, ⟨.remove, 1, 0⟩], [⟨.contains, 2, 0⟩, ⟨.insert, 4, 40⟩, ⟨.insert, 5, 50⟩]]
    let before : List (Nat × Action UInt64 UInt64) := [(0, .start), (0, .put 1 10), (0, .commit)]
    let s := (Session.quietAfter (collection place) before).state
    let crew := (Crew.fresh (collection (V := UInt64) place) slices s).turns (fun _ => 2)
      ((List.range 9).flatMap fun _ => [0, 1])
    crew.finished ∧ (crew.workers.map fun w => w.stats.aborted) = [0, 1] ∧
      size (n := 2) crew.state + (crew.workers.map fun w => w.stats.removes.toNat).sum =
        size (n := 2) s + (crew.workers.map fun w => w.stats.inserts.toNat).sum := by
  intro place slices before s crew
  have hdone : crew.finished := by decide +kernel
  obtain ⟨-, -, hsettled⟩ := size_after_workers place before slices (by decide) (fun _ => 2)
    ((List.range 9).flatMap fun _ => [0, 1])
  exact ⟨hdone, by decide +kernel, (hsettled hdone).2.1⟩

end Striped

end TxnBench
