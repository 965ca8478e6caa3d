import Mathlib.Algebra.Ring.Int.Defs
import Mathlib.Algebra.Ring.Nat
import TxnBench.Worker.Stats

/-!
# Statistics as counters

The statistics of a worker are six counters. To count what became of a batch is to add the statistics of that batch alone
(`commit_eq_plus`, `abort_eq_plus`), and statistics are added counter by counter: a sum is returned exactly when it is the
true sum of every counter (`plus_eq_ok_iff`, `sum_eq_ok_iff`), and a true sum that fits in its words is returned
(`exists_plus`, `exists_sum`).
-/

namespace TxnBench

/-- Words are added if the sum fits in one. -/
theorem Word.exists_plus {a b : UInt64} (h : a.toNat + b.toNat < 2 ^ 64) : ∃ c, Word.plus a b = .ok c :=
  ⟨a + b, if_pos h⟩

/-- Nothing added leaves a word as it is. -/
theorem Word.plus_zero (a : UInt64) : Word.plus a 0 = .ok a :=
  plus_eq_ok_iff.mpr rfl

/-- What statistics count. -/
inductive Counter where
  | succeeded | failed | inserts | removes | committed | aborted
  deriving DecidableEq, Repr

/-- The statistics of one batch that was committed. -/
def Batch.whenCommitted (b : Batch) : Stats :=
  { succeeded := b.size, inserts := b.inserts, removes := b.removes, committed := 1 }

/-- The statistics of one batch that was turned down. -/
def Batch.whenAborted (b : Batch) : Stats :=
  { failed := b.size, aborted := 1 }

namespace Stats

/-- What one counter stands at. -/
def count (s : Stats) : Counter → Nat
  | .succeeded => s.succeeded.toNat
  | .failed => s.failed.toNat
  | .inserts => s.inserts.toNat
  | .removes => s.removes.toNat
  | .committed => s.committed.toNat
  | .aborted => s.aborted.toNat

/-- The statistics whose counters stand at the numbers given. -/
def ofCounts (f : Counter → Nat) : Stats where
  succeeded := UInt64.ofNat (f .succeeded)
  failed := UInt64.ofNat (f .failed)
  inserts := UInt64.ofNat (f .inserts)
  removes := UInt64.ofNat (f .removes)
  committed := UInt64.ofNat (f .committed)
  aborted := UInt64.ofNat (f .aborted)

/-- Statistics are known by their counters. -/
theorem ext_count {s t : Stats} (h : ∀ c, s.count c = t.count c) : s = t := by
  obtain ⟨⟩ := s
  obtain ⟨⟩ := t
  have := h .succeeded
  have := h .failed
  have := h .inserts
  have := h .removes
  have := h .committed
  have := h .aborted
  simp_all only [count, UInt64.toNat_inj]

theorem count_lt (s : Stats) (c : Counter) : s.count c < 2 ^ 64 := by
  cases c <;> exact UInt64.toNat_lt _

theorem count_ofCounts {f : Counter → Nat} (h : ∀ c, f c < 2 ^ 64) (c : Counter) : (ofCounts f).count c = f c := by
  cases c <;> exact UInt64.toNat_ofNat_of_lt' (h _)

@[simp] theorem count_empty (c : Counter) : count {} c = 0 := by
  cases c <;> rfl

/-- A sum of two statistics is returned exactly when it is the true sum of every counter. -/
theorem plus_eq_ok_iff {s t u : Stats} : s.plus t = .ok u ↔ ∀ c, s.count c + t.count c = u.count c := by
  unfold plus
  simp only [bind_eq_ok_iff, Word.plus_eq_ok_iff]
  constructor
  · rintro ⟨a₁, h₁, a₂, h₂, a₃, h₃, a₄, h₄, a₅, h₅, a₆, h₆, hu⟩ c
    cases hu
    cases c <;> assumption
  · intro h
    exact ⟨_, h .succeeded, _, h .failed, _, h .inserts, _, h .removes, _, h .committed, _, h .aborted, rfl⟩

/-- Statistics are added if every counter of the sum fits in its word. -/
theorem exists_plus {s t : Stats} (h : ∀ c, s.count c + t.count c < 2 ^ 64) : ∃ u, s.plus t = .ok u :=
  ⟨_, plus_eq_ok_iff.mpr fun c => (count_ofCounts h c).symm⟩

/-- To count a committed batch is to add its statistics. -/
theorem commit_eq_plus (s : Stats) (b : Batch) : s.commit b = s.plus b.whenCommitted := by
  unfold commit plus Batch.whenCommitted
  simp only [Word.plus_zero]
  rfl

/-- To count a batch that was turned down is to add its statistics. -/
theorem abort_eq_plus (s : Stats) (b : Batch) : s.abort b = s.plus b.whenAborted := by
  unfold abort plus Batch.whenAborted
  simp only [Word.plus_zero]
  rfl

/-- A committed batch is counted if the counters it adds to have room for it. -/
theorem exists_commit (stats : Stats) (b : Batch) (hs : stats.count .succeeded + b.size.toNat < 2 ^ 64)
    (hi : stats.count .inserts + b.inserts.toNat < 2 ^ 64) (hr : stats.count .removes + b.removes.toNat < 2 ^ 64)
    (hc : stats.count .committed + 1 < 2 ^ 64) : ∃ stats', stats.commit b = .ok stats' := by
  rw [commit_eq_plus]
  apply exists_plus
  intro c
  cases c with
  | succeeded => exact hs
  | inserts => exact hi
  | removes => exact hr
  | committed => exact hc
  | failed | aborted =>
    change stats.count _ + 0 < _
    exact stats.count_lt _

/-- A batch that was turned down is counted if the counters it adds to have room for it. -/
theorem exists_abort (stats : Stats) (b : Batch) (hf : stats.count .failed + b.size.toNat < 2 ^ 64)
    (ha : stats.count .aborted + 1 < 2 ^ 64) : ∃ stats', stats.abort b = .ok stats' := by
  rw [abort_eq_plus]
  apply exists_plus
  intro c
  cases c with
  | failed => exact hf
  | aborted => exact ha
  | succeeded | inserts | removes | committed =>
    change stats.count _ + 0 < _
    exact stats.count_lt _

/-- What the counters stand at when a committed batch has been counted. -/
theorem count_of_commit {stats stats' : Stats} {b : Batch} (h : stats.commit b = .ok stats') :
    stats'.count .succeeded = stats.count .succeeded + b.size.toNat ∧ stats'.count .failed = stats.count .failed ∧
      stats'.count .inserts = stats.count .inserts + b.inserts.toNat ∧
      stats'.count .removes = stats.count .removes + b.removes.toNat ∧
      stats'.count .committed = stats.count .committed + 1 ∧ stats'.count .aborted = stats.count .aborted := by
  rw [commit_eq_plus, plus_eq_ok_iff] at h
  exact ⟨(h .succeeded).symm, (h .failed).symm, (h .inserts).symm, (h .removes).symm, (h .committed).symm,
    (h .aborted).symm⟩

/-- What the counters stand at when a batch that was turned down has been counted. -/
theorem count_of_abort {stats stats' : Stats} {b : Batch} (h : stats.abort b = .ok stats') :
    stats'.count .succeeded = stats.count .succeeded ∧ stats'.count .failed = stats.count .failed + b.size.toNat ∧
      stats'.count .inserts = stats.count .inserts ∧ stats'.count .removes = stats.count .removes ∧
      stats'.count .committed = stats.count .committed ∧ stats'.count .aborted = stats.count .aborted + 1 := by
  rw [abort_eq_plus, plus_eq_ok_iff] at h
  exact ⟨(h .succeeded).symm, (h .failed).symm, (h .inserts).symm, (h .removes).symm, (h .committed).symm,
    (h .aborted).symm⟩

/-- Statistics added to others, one after another. -/
theorem foldlM_plus_eq_ok_iff {l : List Stats} {s total : Stats} :
    l.foldlM plus s = .ok total ↔ ∀ c, s.count c + (l.map fun t => t.count c).sum = total.count c := by
  induction l generalizing s with
  | nil =>
    constructor
    · intro h c
      cases h
      rfl
    · intro h
      exact congrArg Except.ok (ext_count h)
  | cons t rest ih =>
    simp only [List.foldlM_cons, bind_eq_ok_iff, ih, List.map_cons, List.sum_cons]
    constructor
    · rintro ⟨u, hu, h⟩ c
      have := plus_eq_ok_iff.mp hu c
      have := h c
      omega
    · intro h
      have hfit : ∀ c, s.count c + t.count c < 2 ^ 64 := fun c => by
        have := h c
        have := total.count_lt c
        omega
      obtain ⟨u, hu⟩ := exists_plus hfit
      refine ⟨u, hu, ?_⟩
      intro c
      have := plus_eq_ok_iff.mp hu c
      have := h c
      omega

/-- The sum of the statistics of all workers is returned exactly when it is the true sum of every counter. -/
theorem sum_eq_ok_iff {l : List Stats} {total : Stats} :
    sum l = .ok total ↔ ∀ c, (l.map fun t => t.count c).sum = total.count c := by
  simp only [sum, foldlM_plus_eq_ok_iff, count_empty, Nat.zero_add]

/-- The sum of the statistics of all workers is returned if every counter of it fits in its word. -/
theorem exists_sum {l : List Stats} (h : ∀ c, (l.map fun t => t.count c).sum < 2 ^ 64) : ∃ total, sum l = .ok total :=
  ⟨_, sum_eq_ok_iff.mpr fun c => (count_ofCounts h c).symm⟩

/-- Statistics are added without a fault other than the overflow of a counter. -/
theorem overflow_of_plus {s t : Stats} {f : Fault} (h : s.plus t = .error f) : f = .overflow .add := by
  unfold plus at h
  simp only [bind_eq_error_iff, Word.plus_eq_error_iff] at h
  rcases h with ⟨-, h⟩ | ⟨_, -, ⟨-, h⟩ | ⟨_, -, ⟨-, h⟩ | ⟨_, -, ⟨-, h⟩ | ⟨_, -, ⟨-, h⟩ | ⟨_, -, ⟨-, h⟩ | ⟨_, -, ⟨⟩⟩⟩⟩⟩⟩⟩ <;>
    exact h

theorem overflow_of_foldlM {l : List Stats} {s : Stats} {f : Fault} (h : l.foldlM plus s = .error f) :
    f = .overflow .add := by
  induction l generalizing s with
  | nil => cases h
  | cons t rest ih =>
    rw [List.foldlM_cons] at h
    rcases bind_eq_error_iff.mp h with hfirst | ⟨u, -, hrest⟩
    · exact overflow_of_plus hfirst
    · exact ih hrest

/-- The sum of the statistics of all workers faults exactly when the true sum of a counter does not fit in its word, however
the sums on the way to it come out. -/
theorem sum_eq_error_iff {l : List Stats} {f : Fault} :
    sum l = .error f ↔ (∃ c, 2 ^ 64 ≤ (l.map fun t => t.count c).sum) ∧ f = .overflow .add := by
  constructor
  · intro h
    refine ⟨?_, overflow_of_foldlM h⟩
    by_cases hfit : ∀ c, (l.map fun t => t.count c).sum < 2 ^ 64
    · obtain ⟨total, htotal⟩ := exists_sum hfit
      cases htotal.symm.trans h
    · obtain ⟨c, hc⟩ := Classical.not_forall.mp hfit
      exact ⟨c, Nat.not_lt.mp hc⟩
  · rintro ⟨⟨c, hc⟩, rfl⟩
    cases hsum : sum l with
    | error f => rw [overflow_of_foldlM hsum]
    | ok total =>
      have hexact := sum_eq_ok_iff.mp hsum c
      have hlt := total.count_lt c
      omega

/-- The statistics of all workers have the same sum in any order, and the same fault. -/
theorem sum_eq_of_perm {l l' : List Stats} (h : l.Perm l') : sum l = sum l' := by
  have hcount : ∀ c, (l.map fun t => t.count c).sum = (l'.map fun t => t.count c).sum := fun c =>
    (h.map fun t => t.count c).sum_nat
  cases hsum : sum l with
  | error f =>
    simp only [sum_eq_error_iff, hcount] at hsum
    exact (sum_eq_error_iff.mpr hsum).symm
  | ok total =>
    simp only [sum_eq_ok_iff, hcount] at hsum
    exact (sum_eq_ok_iff.mpr hsum).symm

end Stats

end TxnBench
