import TxnBench.Bench.Workers
import TxnBench.Proofs.Partition

/-!
# What workers are given

Every worker has a slice of the tasks, and the slices put together are the tasks (`Workers.flatten_slices`). Whether the workers
are run at all depends on there being room to keep hold of them (`Workers.run_of_room`, `Workers.run_of_no_room`).
-/

namespace TxnBench

namespace Workers

/-- The tasks that each worker is given. -/
def slices (tasks : List Task) (workers : UInt64) : List (List Task) :=
  ((List.range workers.toNat).map (Slice.given (UInt64.ofNat tasks.length) workers)).map fun slice => slice.of tasks

theorem length_slices (tasks : List Task) (workers : UInt64) : (slices tasks workers).length = workers.toNat := by
  simp [slices]

section Slices

variable {tasks : List Task} {count workers : UInt64} (hcount : tasks.length = count.toNat)

include hcount

theorem getElem?_slices {i : Nat} (hi : i < workers.toNat) :
    (slices tasks workers)[i]? = some ((Slice.given count workers i).of tasks) := by
  simp [slices, hcount, hi]

/-- All tasks are given to some worker, and none to two. -/
theorem flatten_slices (hw : workers ≠ 0) : (slices tasks workers).flatten = tasks := by
  have hpos : 0 < workers.toNat := Nat.pos_of_ne_zero fun h => hw (UInt64.toNat_inj.mp h)
  unfold slices
  rw [hcount, UInt64.ofNat_toNat]
  exact Slice.flatten_of_all hcount hpos

theorem sum_length_slices (hw : workers ≠ 0) : ((slices tasks workers).map List.length).sum = tasks.length := by
  rw [← List.length_flatten, flatten_slices hcount hw]

theorem length_lt_of_mem_slices (hw : workers ≠ 0) {slice : List Task} (h : slice ∈ slices tasks workers) :
    slice.length < 2 ^ 64 := by
  have hle := (List.sublist_flatten_of_mem h).length_le
  have hlt := count.toNat_lt
  rw [flatten_slices hcount hw, hcount] at hle
  omega

end Slices

/-- When no worker broke off, all are waited for. -/
theorem join_ok (i : Nat) (workers : List Stats) : join i (workers.map .ok) = .ok workers := by
  induction workers generalizing i with
  | nil => rfl
  | cons stats rest ih =>
    rw [List.map_cons, join, ih]
    rfl

/-- Without room to keep hold of the workers, none is run. -/
theorem run_of_no_room (C : Collection UInt64 UInt64) (tasks : List Task) {workers : UInt64} (limit : UInt64) (s : C.State)
    (hw : workers ≠ 0) (hroom : Capacity.limit < workers.toNat * handleBytes) :
    runWorkers C tasks workers limit s = (.error (.fault .capacity), s) := by
  have hreserve : Capacity.reserve workers.toNat handleBytes = .error .capacity :=
    Capacity.reserve_eq_error_iff.mpr ⟨hroom, rfl⟩
  simp only [runWorkers, if_neg hw, hreserve]
  rfl

/-- With room to keep hold of the workers, each is run on its slice. -/
theorem run_of_room (C : Collection UInt64 UInt64) (tasks : List Task) {workers : UInt64} (limit : UInt64) (s : C.State)
    (hw : workers ≠ 0) (hroom : workers.toNat * handleBytes ≤ Capacity.limit) :
    runWorkers C tasks workers limit s =
      let ran := runEach C limit (slices tasks workers) s
      ((join 0 ran.1).mapError .failed, ran.2) := by
  have hreserve : Capacity.reserve workers.toNat handleBytes = .ok () := Capacity.reserve_eq_ok_iff.mpr hroom
  simp only [runWorkers, if_neg hw, hreserve, Slice.all_eq]
  rfl

end Workers

end TxnBench
