import Mathlib.Data.List.Basic
import TxnBench.Collection.Faulty
import TxnBench.Proofs.Workers.Slices

/-!
# Who is blamed when workers break off

A run of workers fails exactly if one of them broke off (`ends_join`), and it is blamed on one worker. If just one broke off, it
is the one. If more than one did, it is worker 0, whichever they are (`blamed`): waiting stops at the first that broke off, and
those left over are found broken without being told apart. So the blame may fall on a worker that came to its end
(`blames_broken_worker`).
-/

namespace TxnBench.Workers

/-- The worker that is blamed, of those that broke off. -/
def blamed : List Nat → Nat
  | [i] => i
  | _ => 0

/-- How a run ends whose workers came to results: all are reported, or one worker is blamed. -/
inductive Ends (results : List (Except Fault Stats)) : Except Halt (List Stats) → Prop where
  | reported {workers : List Stats} (whole : results = workers.map .ok) : Ends results (.ok workers)
  | blamed (broken : results.findIdxs broke ≠ []) :
    Ends results (.error (.failed (.workerBroke (blamed (results.findIdxs broke)))))

/-- Workers that did not break off have all reported. -/
theorem exists_reports {results : List (Except Fault Stats)} (h : ∀ result ∈ results, broke result = false) :
    ∃ workers : List Stats, results = workers.map .ok := by
  induction results with
  | nil => exact ⟨[], rfl⟩
  | cons result rest ih =>
    obtain ⟨workers, rfl⟩ := ih fun other hother => h other (List.mem_cons_of_mem result hother)
    cases result with
    | ok stats => exact ⟨stats :: workers, rfl⟩
    | error f => cases h (.error f) List.mem_cons_self

/-- When workers broke off, waiting for them ends with the one that is blamed. -/
theorem join_of_broke {results : List (Except Fault Stats)} {i : Nat} (h : results.findIdxs broke i ≠ []) :
    join i results = .error (.workerBroke (blamed (results.findIdxs broke i))) := by
  induction results generalizing i with
  | nil => exact absurd rfl h
  | cons result rest ih =>
    cases result with
    | ok stats =>
      have hskip : (.ok stats :: rest).findIdxs broke i = rest.findIdxs broke (i + 1) := List.findIdxs_cons
      rw [hskip] at h ⊢
      rw [join, ih h]
      rfl
    | error f =>
      have hfirst : (.error f :: rest).findIdxs broke i = i :: rest.findIdxs broke (i + 1) := List.findIdxs_cons
      have hothers : rest.any broke = true ↔ rest.findIdxs broke (i + 1) ≠ [] := by
        simp [List.findIdxs_eq_nil_iff]
      rw [hfirst, join]
      cases hrest : rest.findIdxs broke (i + 1) with
      | nil =>
        rw [if_neg fun hany => hothers.mp hany hrest]
        rfl
      | cons j others =>
        rw [if_pos (hothers.mpr (hrest ▸ List.cons_ne_nil j others))]
        rfl

/-- Waiting for workers ends as their results say. -/
theorem ends_join (results : List (Except Fault Stats)) : Ends results ((join 0 results).mapError .failed) := by
  by_cases h : results.findIdxs broke = []
  · obtain ⟨workers, rfl⟩ := exists_reports (List.findIdxs_eq_nil_iff.mp h)
    rw [join_ok]
    exact .reported rfl
  · rw [join_of_broke h]
    exact .blamed h

/-- A run in which no worker broke off reports what each has counted. -/
theorem Ends.of_whole {results : List (Except Fault Stats)} {result : Except Halt (List Stats)} (h : Ends results result)
    (hnone : results.findIdxs broke = []) : ∃ workers, results = workers.map .ok ∧ result = .ok workers := by
  cases h with
  | reported whole => exact ⟨_, whole, rfl⟩
  | blamed hsome => exact absurd hnone hsome

/-- A run in which workers broke off fails on account of the one that is blamed. -/
theorem Ends.of_broken {results : List (Except Fault Stats)} {result : Except Halt (List Stats)} (h : Ends results result)
    (hsome : results.findIdxs broke ≠ []) :
    result = .error (.failed (.workerBroke (Workers.blamed (results.findIdxs broke)))) := by
  cases h with
  | reported whole => exact absurd (List.findIdxs_eq_nil_iff.mpr (by simp [whole, broke])) hsome
  | blamed => rfl

/-- With room to keep hold of the workers, a run ends as the results of the workers say. -/
theorem ends_of_room (C : Collection UInt64 UInt64) (tasks : List Task) {workers : UInt64} (limit : UInt64) (s : C.State)
    (hw : workers ≠ 0) (hroom : workers.toNat * handleBytes ≤ Capacity.limit) :
    let ran := runWorkers C tasks workers limit s
    let each := runEach C limit (slices tasks workers) s
    Ends each.1 ran.1 ∧ ran.2 = each.2 := by
  intro ran each
  have hran : ran = ((join 0 each.1).mapError .failed, each.2) := run_of_room C tasks limit s hw hroom
  rw [hran]
  exact ⟨ends_join each.1, rfl⟩

/-- The worker that is blamed broke off, and was the first to do so, only if no other broke off or if it is worker 0. -/
theorem blamed_mem_iff {results : List (Except Fault Stats)} {first : Nat} {rest : List Nat}
    (h : results.findIdxs broke = first :: rest) : blamed (first :: rest) ∈ first :: rest ↔ rest = [] ∨ first = 0 := by
  cases rest with
  | nil => simp [blamed]
  | cons second others =>
    have hascending : (first :: second :: others).Pairwise (· < ·) := h ▸ List.pairwise_findIdxs
    have hlater := (List.pairwise_cons.mp hascending).1
    constructor
    · intro hmem
      rcases List.mem_cons.mp hmem with hzero | hmem
      · exact Or.inr hzero.symm
      · exact absurd (hlater _ hmem) (Nat.not_lt_zero first)
    · rintro (hnil | hzero)
      · cases hnil
      · exact hzero ▸ List.mem_cons_self

/-- A run of workers fails if and only if some worker broke off. If only one did, it is named; if several did, worker 0 is
named, and this is one of them only if it is the first. -/
theorem blames_broken_worker (C : Collection UInt64 UInt64) (tasks : List Task) (workers limit : UInt64) (s : C.State)
    (hw : workers ≠ 0) (hroom : workers.toNat * handleBytes ≤ Capacity.limit) :
    let results := (runEach C limit (slices tasks workers) s).1
    let broken := results.findIdxs broke
    let ran := (runWorkers C tasks workers limit s).1
    (broken = [] → ∃ stats, results = stats.map .ok ∧ ran = .ok stats) ∧
    ∀ first rest, broken = first :: rest →
      ∃ i, ran = .error (.failed (.workerBroke i)) ∧ (rest = [] → i = first) ∧ (rest ≠ [] → i = 0) ∧
        (i ∈ broken ↔ rest = [] ∨ first = 0) := by
  intro results broken ran
  obtain ⟨hends, -⟩ := ends_of_room C tasks limit s hw hroom
  refine ⟨hends.of_whole, fun first rest hbroken => ?_⟩
  have hfound : results.findIdxs broke = first :: rest := hbroken
  have hran := hends.of_broken (hfound ▸ List.cons_ne_nil first rest)
  rw [hfound] at hran
  rw [hbroken]
  refine ⟨blamed (first :: rest), hran, ?_, ?_, blamed_mem_iff hfound⟩
  · rintro rfl
    rfl
  · intro hne
    cases rest with
    | nil => exact absurd rfl hne
    | cons => rfl

/-- Of three workers the second alone breaks off, and is blamed. -/
theorem blames_second_worker :
    let C := Faulty.collection { breaking := some 7 }
    (runWorkers C [⟨.contains, 1, 0⟩, ⟨.contains, 7, 0⟩, ⟨.contains, 1, 0⟩] 3 1 C.empty).1 =
      .error (.failed (.workerBroke 1)) := by
  intro C
  obtain ⟨-, hblamed⟩ := blames_broken_worker C [⟨.contains, 1, 0⟩, ⟨.contains, 7, 0⟩, ⟨.contains, 1, 0⟩] 3 1 C.empty
    (by decide) (by decide)
  obtain ⟨i, hran, hone, -⟩ := hblamed 1 [] (by decide +kernel)
  rw [hran, hone rfl]

/-- Of three workers the second and the third break off, and the first is blamed, which has come to its end. -/
theorem blames_finished_worker :
    let C := Faulty.collection { breaking := some 7 }
    let tasks : List Task := [⟨.contains, 1, 0⟩, ⟨.contains, 7, 0⟩, ⟨.contains, 7, 0⟩]
    (runEach C 1 (slices tasks 3) C.empty).1.map broke = [false, true, true] ∧
      (runWorkers C tasks 3 1 C.empty).1 = .error (.failed (.workerBroke 0)) := by
  decide +kernel

end TxnBench.Workers
