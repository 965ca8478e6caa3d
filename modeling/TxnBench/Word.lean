import TxnBench.Fault

/-!
# Checked arithmetic on 64-bit words

Counters and sizes are 64-bit words, and a result that leaves them is a fault instead of a wrong number. Each operation
is given with the condition under which it returns: `plus_eq_ok_iff`, `minus_eq_ok_iff` and `times_eq_ok_iff` say that an
operation returns `c` exactly when `c` is the true result, so a returned word can be trusted as a natural number. The product of
two words always fits in a double word (`exists_timesDouble`).
-/

namespace TxnBench.Word

/-- The sum of two words. -/
def plus (a b : UInt64) : Except Fault UInt64 :=
  if a.toNat + b.toNat < UInt64.size then .ok (a + b) else .error (.overflow .add)

/-- The difference of two words. -/
def minus (a b : UInt64) : Except Fault UInt64 :=
  if b.toNat ≤ a.toNat then .ok (a - b) else .error (.overflow .sub)

/-- The product of two words. -/
def times (a b : UInt64) : Except Fault UInt64 :=
  if a.toNat * b.toNat < UInt64.size then .ok (a * b) else .error (.overflow .mul)

/-- A sum is returned exactly when it is the true sum. -/
theorem plus_eq_ok_iff {a b c : UInt64} : plus a b = .ok c ↔ a.toNat + b.toNat = c.toNat := by
  have hc := c.toNat_lt_size
  unfold plus
  split
  · rename_i h
    simp only [Except.ok.injEq]
    rw [← UInt64.toNat_inj, UInt64.toNat_add, Nat.mod_eq_of_lt h]
  · constructor
    · intro h
      cases h
    · omega

/-- A sum faults exactly when it does not fit. -/
theorem plus_eq_error_iff {a b : UInt64} {f : Fault} :
    plus a b = .error f ↔ UInt64.size ≤ a.toNat + b.toNat ∧ f = .overflow .add := by
  unfold plus
  split
  · constructor
    · intro h
      cases h
    · omega
  · rename_i h
    simp only [Except.error.injEq]
    constructor
    · rintro rfl
      exact ⟨by omega, rfl⟩
    · rintro ⟨_, rfl⟩
      rfl

/-- A difference is returned exactly when it is the true difference. -/
theorem minus_eq_ok_iff {a b c : UInt64} : minus a b = .ok c ↔ b.toNat + c.toNat = a.toNat := by
  unfold minus
  split
  · rename_i h
    simp only [Except.ok.injEq]
    rw [← UInt64.toNat_inj, UInt64.toNat_sub_of_le _ _ (UInt64.le_iff_toNat_le.mpr h)]
    omega
  · constructor
    · intro h
      cases h
    · omega

/-- A product is returned exactly when it is the true product. -/
theorem times_eq_ok_iff {a b c : UInt64} : times a b = .ok c ↔ a.toNat * b.toNat = c.toNat := by
  have hc := c.toNat_lt_size
  unfold times
  split
  · rename_i h
    simp only [Except.ok.injEq]
    rw [← UInt64.toNat_inj, UInt64.toNat_mul, Nat.mod_eq_of_lt h]
  · constructor
    · intro h
      cases h
    · omega

/-- A product faults exactly when it does not fit. -/
theorem times_eq_error_iff {a b : UInt64} {f : Fault} :
    times a b = .error f ↔ UInt64.size ≤ a.toNat * b.toNat ∧ f = .overflow .mul := by
  unfold times
  split
  · rename_i h
    exact ⟨fun he => (nomatch he), fun hle => absurd h (Nat.not_lt.mpr hle.1)⟩
  · rename_i h
    constructor
    · rintro ⟨⟩
      exact ⟨Nat.not_lt.mp h, rfl⟩
    · rintro ⟨_, rfl⟩
      rfl

/-! ## Double words

Where the product of two words is to be divided, it is taken in a double word of 128 bits, and the lower half of the quotient
is what is kept.
-/

/-- A word as a double word. -/
def widen (a : UInt64) : BitVec 128 :=
  a.toBitVec.setWidth 128

/-- The product of two double words. -/
def timesDouble (a b : BitVec 128) : Except Fault (BitVec 128) :=
  if a.umulOverflow b then .error (.overflow .mul) else .ok (a * b)

/-- The lower half of a double word. -/
def lower (a : BitVec 128) : UInt64 :=
  ⟨a.setWidth 64⟩

theorem toNat_widen (a : UInt64) : (widen a).toNat = a.toNat := by
  have ha := a.toNat_lt
  unfold widen
  rw [BitVec.toNat_setWidth, UInt64.toNat_toBitVec]
  exact Nat.mod_eq_of_lt (by omega)

/-- A product of double words is returned exactly when it is the true product. -/
theorem timesDouble_eq_ok_iff {a b c : BitVec 128} : timesDouble a b = .ok c ↔ a.toNat * b.toNat = c.toNat := by
  have hc := c.isLt
  unfold timesDouble BitVec.umulOverflow
  split
  · rename_i h
    exact ⟨fun he => (nomatch he), fun he => absurd (of_decide_eq_true h) (by omega)⟩
  · rename_i h
    have hfit : a.toNat * b.toNat < 2 ^ 128 := Nat.not_le.mp fun hwide => h (decide_eq_true hwide)
    simp only [Except.ok.injEq]
    rw [← BitVec.toNat_inj, BitVec.toNat_mul, Nat.mod_eq_of_lt hfit]

/-- Nothing is lost of a double word that fits in its lower half. -/
theorem toNat_lower {a : BitVec 128} (h : a.toNat < UInt64.size) : (lower a).toNat = a.toNat := by
  unfold lower
  rw [← UInt64.toNat_toBitVec, BitVec.toNat_setWidth]
  exact Nat.mod_eq_of_lt h

/-- The product of two words fits in a double word. -/
theorem exists_timesDouble (a b : UInt64) :
    ∃ c, timesDouble (widen a) (widen b) = .ok c ∧ c.toNat = a.toNat * b.toNat := by
  have hfit : a.toNat * b.toNat < 2 ^ 64 * 2 ^ 64 := Nat.mul_lt_mul'' a.toNat_lt b.toNat_lt
  have hc : (BitVec.ofNat 128 (a.toNat * b.toNat)).toNat = a.toNat * b.toNat :=
    (BitVec.toNat_ofNat ..).trans (Nat.mod_eq_of_lt hfit)
  refine ⟨_, timesDouble_eq_ok_iff.mpr ?_, hc⟩
  rw [toNat_widen, toNat_widen, hc]

/-! ## Signed words

Expected sizes are signed 64-bit words: the removals may exceed the insertions.
-/

/-- The signed word with the bits of an unsigned one: the upper half of the range reads as negative. -/
def toSigned (a : UInt64) : Int :=
  a.toInt64.toInt

/-- An exact result of signed arithmetic, or the overflow of the operation that gave it. -/
def signed (op : Arith) (x : Int) : Except Fault Int :=
  if Int64.minValue.toInt ≤ x ∧ x ≤ Int64.maxValue.toInt then .ok x else .error (.overflow op)

end TxnBench.Word
