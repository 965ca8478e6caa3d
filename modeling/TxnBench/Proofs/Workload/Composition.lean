import Mathlib.Data.List.Basic
import TxnBench.Proofs.Workload

/-!
# Compositions are exact

Whatever the number of tasks and both percentages, a composition has its shares rounded down and the tasks asked for, and what
is left for the lookups is their own share rounded down and at most two tasks more. It faults only for percentages of more than
everything, which is found before any product is taken, or for a product that does not fit in its word
(`Composition.shares_out_tasks`).
-/

namespace TxnBench.Composition

/-- What two shares leave of a number is the share of the percentage they leave, rounded down, and at most two more. -/
theorem share_le_remainder {total inserts removes rest : Nat} (h : inserts + removes ≤ 100)
    (hsum : total * inserts / 100 + total * removes / 100 + rest = total) :
    total * (100 - inserts - removes) / 100 ≤ rest ∧ rest ≤ total * (100 - inserts - removes) / 100 + 2 := by
  have hpercent : inserts + removes + (100 - inserts - removes) = 100 := by omega
  have hall : total * inserts + total * removes + total * (100 - inserts - removes) = total * 100 := by
    rw [← Nat.mul_add, ← Nat.mul_add, hpercent]
  -- Each of the three shares loses less than a task to rounding, so all of them together lose at most two.
  omega

/-- Percentages of more than everything fault, whatever the tasks are. -/
theorem ofShares_eq_shareSum (tasks : UInt64) {inserts removes : UInt8} (h : 100 < inserts.toNat + removes.toNat) :
    ofShares tasks inserts removes = .error .shareSum := by
  unfold ofShares
  rw [if_pos h]
  rfl

/-- Percentages of no more than everything overflow if one of the products does not fit in its word. -/
theorem ofShares_eq_overflow {tasks : UInt64} {inserts removes : UInt8} (h : inserts.toNat + removes.toNat ≤ 100)
    (hproduct : 2 ^ 64 ≤ tasks.toNat * inserts.toNat ∨ 2 ^ 64 ≤ tasks.toNat * removes.toNat) :
    ofShares tasks inserts removes = .error (.overflow .mul) := by
  have hchecked : ¬100 < inserts.toNat + removes.toNat := Nat.not_lt.mpr h
  by_cases hi : tasks.toNat * inserts.toNat < 2 ^ 64
  · have hr : 2 ^ 64 ≤ tasks.toNat * removes.toNat := hproduct.resolve_left (Nat.not_le.mpr hi)
    obtain ⟨share, hshare, -⟩ := exists_share hi
    simp only [ofShares, if_neg hchecked, hshare, share_eq_error hr, bind, Except.bind]
  · simp only [ofShares, if_neg hchecked, share_eq_error (Nat.not_lt.mp hi), bind, Except.bind]

/-- Tasks are shared out exactly, or there is a fault. Percentages of more than everything fault as such whatever the tasks are,
and no others do. Of the others, just those overflow for which a product of the tasks with a percentage does not fit in its word.
In all other cases there is a composition: the insertions and the removals are their shares rounded down, all its tasks are
counted in one word and are those there are, and the lookups are the share of the remaining percentage, rounded down, and at
most two more. -/
theorem shares_out_tasks (tasks : UInt64) (inserts removes : UInt8) :
    (ofShares tasks inserts removes = .error .shareSum ↔ 100 < inserts.toNat + removes.toNat) ∧
    (inserts.toNat + removes.toNat ≤ 100 →
      (ofShares tasks inserts removes = .error (.overflow .mul) ↔
        2 ^ 64 ≤ tasks.toNat * inserts.toNat ∨ 2 ^ 64 ≤ tasks.toNat * removes.toNat) ∧
      (tasks.toNat * inserts.toNat < 2 ^ 64 → tasks.toNat * removes.toNat < 2 ^ 64 →
        ∃ c, ofShares tasks inserts removes = .ok c ∧
          c.inserts.toNat = tasks.toNat * inserts.toNat / 100 ∧ c.removes.toNat = tasks.toNat * removes.toNat / 100 ∧
          c.total = .ok tasks ∧
          tasks.toNat * (100 - inserts.toNat - removes.toNat) / 100 ≤ c.contains.toNat ∧
          c.contains.toNat ≤ tasks.toNat * (100 - inserts.toNat - removes.toNat) / 100 + 2)) := by
  by_cases h : inserts.toNat + removes.toNat ≤ 100
  · by_cases hfit : tasks.toNat * inserts.toNat < 2 ^ 64 ∧ tasks.toNat * removes.toNat < 2 ^ 64
    · obtain ⟨c, hc, hi, hr, htotal⟩ := exists_ofShares h hfit.1 hfit.2
      have hrest := share_le_remainder h (hi ▸ hr ▸ htotal)
      rw [hc]
      refine ⟨⟨nofun, fun hsum => absurd h (Nat.not_le.mpr hsum)⟩, fun _ => ⟨⟨nofun, ?_⟩, fun _ _ => ?_⟩⟩
      · intro hproduct
        omega
      · exact ⟨c, rfl, hi, hr, total_eq htotal, hrest⟩
    · have hproduct : 2 ^ 64 ≤ tasks.toNat * inserts.toNat ∨ 2 ^ 64 ≤ tasks.toNat * removes.toNat := by omega
      rw [ofShares_eq_overflow h hproduct]
      refine ⟨⟨nofun, fun hsum => absurd h (Nat.not_le.mpr hsum)⟩, fun _ => ⟨⟨fun _ => hproduct, fun _ => rfl⟩, ?_⟩⟩
      exact fun hi hr => absurd ⟨hi, hr⟩ hfit
  · rw [ofShares_eq_shareSum tasks (Nat.lt_of_not_le h)]
    exact ⟨⟨fun _ => Nat.lt_of_not_le h, fun _ => rfl⟩, fun hle => absurd hle h⟩

/-- So many tasks that one hundred more overflow: all three shares lose to rounding, and there are two lookups more than their
own share. -/
theorem lookups_gain_two :
    let tasks : UInt64 := 558992244657865199
    let c : Composition := ⟨184467440737095515, 184467440737095515, 190057363183674169⟩
    ofShares tasks 33 33 = .ok c ∧ c.total = .ok tasks ∧ c.contains.toNat = tasks.toNat * 34 / 100 + 2 ∧
      c.contains.toNat ≤ tasks.toNat * (100 - 33 - 33) / 100 + 2 ∧
      ofShares (tasks + 100) 33 33 = .error (.overflow .mul) := by
  intro tasks c
  obtain ⟨c', hc', -, -, htotal, -, hle⟩ := ((shares_out_tasks tasks 33 33).2 (by decide)).2 (by decide) (by decide)
  have hc : ofShares tasks 33 33 = .ok c := by decide +kernel
  cases hc.symm.trans hc'
  exact ⟨hc, htotal, by decide, hle, ((shares_out_tasks (tasks + 100) 33 33).2 (by decide)).1.mpr (by decide)⟩

end TxnBench.Composition
