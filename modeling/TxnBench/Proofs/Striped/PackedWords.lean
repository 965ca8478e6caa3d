import TxnBench.Proofs.Striped.Representation

/-!
# Words as the machine holds them

A machine has 64 bits for the word of a stripe: the lowest says whether a commit holds the stripe, and the others are its version.
What is done with a word can be done with its bits (`isLocked_packed`, `isStale_packed`, `lock_packed`, `packed_unlocked`), as long
as the version does not reach the highest of them. The clock counts commits, and no version is ahead of it, so after fewer commits
than `2 ^ 63` the bits of every word say what the word says (`packed_words_agree`).
-/

namespace TxnBench

/-! ## Words in 64 bits -/

/-- A word in 64 bits. -/
def StripeWord.packed (w : StripeWord) : UInt64 :=
  UInt64.ofNat w.version <<< 1 ||| if w.locked then 1 else 0

namespace PackedWord

/-- Whether a commit holds the stripe of a word. -/
def isLocked (bits : UInt64) : Bool :=
  bits &&& 1 ≠ 0

/-- The version in a word. -/
def version (bits : UInt64) : UInt64 :=
  bits >>> 1

/-- Whether the stripe of a word is not to be read by a transaction that began at `time`. -/
def isStale (bits time : UInt64) : Bool :=
  isLocked bits || time < version bits

/-- The word of a stripe that a commit takes. -/
def lock (bits : UInt64) : UInt64 :=
  bits ||| 1

/-- The word of a stripe that a commit gives back with a version. -/
def unlocked (version : UInt64) : UInt64 :=
  version <<< 1

/-- A stripe that is given back with the time of a commit is one that has this version and that nobody holds. -/
theorem packed_unlocked (time : Nat) : StripeWord.packed ⟨time, false⟩ = unlocked (UInt64.ofNat time) := by
  simp [StripeWord.packed, unlocked]

/-- To take a stripe sets the lowest bit of its word. -/
theorem lock_packed (w : StripeWord) : lock w.packed = { w with locked := true }.packed := by
  cases hw : w.locked <;> simp [lock, StripeWord.packed, hw, UInt64.or_assoc]

variable {w : StripeWord}

/-- The bits of a word as a number. -/
theorem toNat_packed (h : w.version < 2 ^ 63) : w.packed.toNat = 2 * w.version + if w.locked then 1 else 0 := by
  have hversion : (UInt64.ofNat w.version <<< 1).toNat = w.version <<< 1 := by
    rw [UInt64.toNat_shiftLeft, UInt64.toNat_ofNat_of_lt' (show w.version < 2 ^ 64 by omega)]
    exact Nat.mod_eq_of_lt (by rw [show (1 : UInt64).toNat % 64 = 1 from rfl, Nat.shiftLeft_eq]; omega)
  have hlock : (if w.locked then 1 else 0 : UInt64).toNat = if w.locked then 1 else 0 := by
    split <;> rfl
  have hlow : (if w.locked then 1 else 0) < 2 ^ 1 := by
    split <;> decide
  rw [StripeWord.packed, UInt64.toNat_or, hversion, hlock, ← Nat.shiftLeft_add_eq_or_of_lt hlow, Nat.shiftLeft_eq]
  omega

theorem isLocked_packed (h : w.version < 2 ^ 63) : isLocked w.packed = w.locked := by
  have hbit : (w.packed &&& 1).toNat = if w.locked then 1 else 0 := by
    rw [UInt64.toNat_and, toNat_packed h, show (1 : UInt64).toNat = 1 from rfl, Nat.and_one_is_mod]
    split <;> omega
  simp only [isLocked, ne_eq, ← UInt64.toNat_inj, hbit, show (0 : UInt64).toNat = 0 from rfl]
  cases w.locked <;> rfl

theorem toNat_version_packed (h : w.version < 2 ^ 63) : (version w.packed).toNat = w.version := by
  rw [version, UInt64.toNat_shiftRight, toNat_packed h, show (1 : UInt64).toNat % 64 = 1 from rfl, Nat.shiftRight_eq_div_pow]
  split <;> omega

/-- A word is stale exactly if its bits say so. -/
theorem isStale_packed (h : w.version < 2 ^ 63) {time : Nat} (ht : time < 2 ^ 64) :
    isStale w.packed (UInt64.ofNat time) = w.isStale time := by
  simp only [isStale, isLocked_packed h, UInt64.lt_iff_toNat_lt, toNat_version_packed h, UInt64.toNat_ofNat_of_lt' ht]
  rfl

end PackedWord

/-! ## Few commits -/

namespace Striped

variable {K V Name : Type} [Ord K] [Std.TransOrd K] [DecidableEq Name] {n : Nat} {place : K → Fin n}
  {σ : Session (collection (V := V) place) Name}

/-- How many actions of a schedule are commits. -/
def commits (schedule : List (Name × Action K V)) : Nat :=
  schedule.countP fun step => step.2 matches .commit

/-- The clock ticks once in a commit at most. -/
theorem clock_commit_le (t : Txn K V n) (s : Striped K V n) :
    clock (n := n) ((collection place).commit t s).2 ≤ s.clock + 1 := by
  rw [commit_eq]
  split
  · exact Nat.le_succ _
  · split
    · exact Nat.le_succ _
    · split
      · exact Nat.le_refl _
      · exact Nat.le_of_eq (clock_written place s t)

theorem clock_perform_le (t : Name) (a : Action K V) :
    clock (n := n) (σ.perform t a).2.state ≤ clock (n := n) σ.state + commits [(t, a)] := by
  by_cases ha : a = .commit
  · subst ha
    cases hx : σ.txn? t with
    | none =>
      rw [σ.perform_of_none hx .commit nofun]
      exact Nat.le_succ _
    | some x =>
      rw [σ.perform_commit hx]
      exact clock_commit_le x σ.state
  · rw [state_perform t ha]
    exact Nat.le_add_right _ _

/-- The clock is ahead by the commits of a schedule at most. -/
theorem clock_performAll_le (schedule : List (Name × Action K V)) :
    clock (n := n) (σ.performAll schedule).2.state ≤ clock (n := n) σ.state + commits schedule := by
  induction schedule generalizing σ with
  | nil => exact Nat.le_refl _
  | cons step rest ih =>
    have hsum : commits ([step] ++ rest) = commits [step] + commits rest := List.countP_append
    refine Nat.le_trans ih (Nat.le_trans (Nat.add_le_add_right (clock_perform_le step.1 step.2) _) ?_)
    rw [Nat.add_assoc, ← hsum]
    exact Nat.le_refl _

variable [Std.LawfulEqOrd K] [DecidableEq K]

/-- Words in 64 bits are enough for fewer commits than `2 ^ 63`. After any schedule with so few, the bits of the word of every stripe
tell its version and whether it is held, and whether a transaction that is open may still read there. -/
theorem packed_words_agree (place : K → Fin n) (schedule : List (Name × Action K V)) (hfew : commits schedule < 2 ^ 63) :
    let σ := ((Session.fresh (collection place) Name).performAll schedule).2
    let s : Striped K V n := σ.state
    s.clock < 2 ^ 63 ∧ ∀ i, (PackedWord.version (s.word i).packed).toNat = (s.word i).version ∧
      PackedWord.isLocked (s.word i).packed = (s.word i).locked ∧
      ∀ t, ∀ x : Txn K V n, σ.txn? t = some x →
        PackedWord.isStale (s.word i).packed (UInt64.ofNat x.began) = (s.word i).isStale x.began := by
  intro σ s
  have hsound : Sound place s := sound_performAll sound_fresh schedule
  have hclock : s.clock < 2 ^ 63 :=
    Nat.lt_of_le_of_lt (clock_performAll_le schedule) ((Nat.zero_add _).symm ▸ hfew)
  refine ⟨hclock, fun i => ?_⟩
  have hversion : (s.word i).version < 2 ^ 63 := Nat.lt_of_le_of_lt (hsound.version_le i) hclock
  refine ⟨PackedWord.toNat_version_packed hversion, PackedWord.isLocked_packed hversion, fun t x hx => ?_⟩
  have hbegan : x.began ≤ s.clock := began_le_clock place hx
  exact PackedWord.isStale_packed hversion (by omega)

end Striped

end TxnBench
