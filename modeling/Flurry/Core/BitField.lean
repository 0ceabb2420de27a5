import Mathlib

/-!
# Bit fields of natural numbers

Addresses and flags share one machine word: the address is aligned and the
flags stand in the bits that alignment leaves free, or above the address.
-/

namespace Flurry.BitField

/-- `count` ones from bit `low` on. -/
def fieldMask (low count : ℕ) : ℕ := (2 ^ count - 1) <<< low

theorem testBit_fieldMask (low count bit : ℕ) :
    (fieldMask low count).testBit bit = decide (low ≤ bit ∧ bit < low + count) := by
  rw [fieldMask, Nat.testBit_shiftLeft, Nat.testBit_two_pow_sub_one,
    Bool.decide_and]
  by_cases hlow : low ≤ bit
  · have hiff : bit - low < count ↔ bit < low + count := by omega
    simp [hiff]
  · simp [hlow]

theorem testBit_of_aligned {value low bit : ℕ} (haligned : value % 2 ^ low = 0)
    (hbit : bit < low) : value.testBit bit = false := by
  have hmod : (value % 2 ^ low).testBit bit = value.testBit bit := by
    rw [Nat.testBit_mod_two_pow, decide_eq_true hbit, Bool.true_and]
  rw [← hmod, haligned, Nat.zero_testBit]

theorem testBit_of_lt {value high bit : ℕ} (hvalue : value < 2 ^ high)
    (hbit : high ≤ bit) : value.testBit bit = false := by
  apply Nat.testBit_lt_two_pow
  exact hvalue.trans_le (Nat.pow_le_pow_right (by omega) hbit)

/-- An aligned value that ends below the top of the field lies in it. -/
theorem and_fieldMask_of_aligned {value low count : ℕ}
    (haligned : value % 2 ^ low = 0) (hvalue : value < 2 ^ (low + count)) :
    value &&& fieldMask low count = value := by
  apply Nat.eq_of_testBit_eq
  intro bit
  rw [Nat.testBit_and, testBit_fieldMask]
  by_cases hlow : bit < low
  · rw [testBit_of_aligned haligned hlow, Bool.false_and]
  · by_cases hhigh : bit < low + count
    · rw [decide_eq_true ⟨by omega, hhigh⟩, Bool.and_true]
    · rw [testBit_of_lt hvalue (by omega), Bool.false_and]

theorem and_fieldMask_eq_zero {value low count : ℕ}
    (hclear : ∀ bit, low ≤ bit → bit < low + count → value.testBit bit = false) :
    value &&& fieldMask low count = 0 := by
  apply Nat.eq_of_testBit_eq
  intro bit
  rw [Nat.testBit_and, testBit_fieldMask, Nat.zero_testBit]
  by_cases hfield : low ≤ bit ∧ bit < low + count
  · rw [hclear bit hfield.1 hfield.2, Bool.false_and]
  · rw [decide_eq_false hfield, Bool.and_false]

/-- A field that is joined with bits outside it can be read back. -/
theorem or_and_fieldMask {field rest low count : ℕ}
    (haligned : field % 2 ^ low = 0) (hfield : field < 2 ^ (low + count))
    (hrest : ∀ bit, low ≤ bit → bit < low + count → rest.testBit bit = false) :
    (field ||| rest) &&& fieldMask low count = field := by
  rw [Nat.and_or_distrib_right, and_fieldMask_of_aligned haligned hfield,
    and_fieldMask_eq_zero hrest, Nat.or_zero]

/-- Cutting off low bits rounds down. -/
theorem and_fieldMask_eq_div {value low count : ℕ}
    (hvalue : value < 2 ^ (low + count)) :
    value &&& fieldMask low count = value / 2 ^ low * 2 ^ low := by
  apply Nat.eq_of_testBit_eq
  intro bit
  rw [Nat.testBit_and, testBit_fieldMask, Nat.testBit_mul_two_pow,
    Nat.testBit_div_two_pow]
  by_cases hlow : low ≤ bit
  · rw [Nat.sub_add_cancel hlow]
    by_cases hhigh : bit < low + count
    · simp [hlow, hhigh]
    · rw [testBit_of_lt hvalue (by omega)]
      simp
  · simp [hlow]

/-! ## Single flags -/

theorem and_two_pow_ne_zero (flags bit : ℕ) :
    decide (flags &&& 2 ^ bit ≠ 0) = flags.testBit bit := by
  rw [Nat.and_comm, Nat.two_pow_and]
  cases flags.testBit bit <;> simp

/-- Setting a bit below the field leaves the field alone. -/
theorem or_two_pow_div {word bit low : ℕ} (hbit : bit < low) :
    (word ||| 2 ^ bit) / 2 ^ low = word / 2 ^ low := by
  have hlt : 2 ^ bit < 2 ^ low := Nat.pow_lt_pow_right (by omega) hbit
  rw [← Nat.shiftRight_eq_div_pow, Nat.shiftRight_or_distrib,
    Nat.shiftRight_eq_div_pow (2 ^ bit), Nat.div_eq_of_lt hlt, Nat.or_zero,
    Nat.shiftRight_eq_div_pow]

theorem testBit_or_two_pow (word bit other : ℕ) :
    (word ||| 2 ^ bit).testBit other = (word.testBit other || decide (bit = other)) := by
  rw [Nat.testBit_or, Nat.testBit_two_pow]

/-- The mask with one bit cleared. -/
theorem testBit_clear {word width bit other : ℕ} (hword : word < 2 ^ width)
    (hbit : bit < width) :
    (word &&& (2 ^ width - 1 - 2 ^ bit)).testBit other =
      (word.testBit other && !decide (bit = other)) := by
  have hsub : 2 ^ width - 1 - 2 ^ bit = 2 ^ width - (2 ^ bit + 1) := by omega
  have hlt : 2 ^ bit < 2 ^ width := Nat.pow_lt_pow_right (by omega) hbit
  rw [Nat.testBit_and, hsub, Nat.testBit_two_pow_sub_succ hlt, Nat.testBit_two_pow]
  by_cases hother : other < width
  · simp [hother]
  · rw [testBit_of_lt hword (by omega)]
    simp

theorem clear_div {word width bit low : ℕ} (hword : word < 2 ^ width)
    (hbit : bit < width) (hlow : bit < low) :
    (word &&& (2 ^ width - 1 - 2 ^ bit)) / 2 ^ low = word / 2 ^ low := by
  apply Nat.eq_of_testBit_eq
  intro other
  rw [Nat.testBit_div_two_pow, Nat.testBit_div_two_pow, testBit_clear hword hbit]
  have hne : ¬bit = other + low := by omega
  simp [hne]

end Flurry.BitField
