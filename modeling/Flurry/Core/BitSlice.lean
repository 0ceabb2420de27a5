import Mathlib.Data.BitVec
import Mathlib.Data.Nat.Bitwise

/-!
# Slices of machine words

A packed word is a disjunction of slices of other words, each masked out and
shifted to its place.  A slice that is read from it is the slice that was put
there, joined with whatever else was put in the same place.
-/

namespace Flurry.BitSlice

variable {width : ℕ}

/-- `count` ones from bit `low` on. -/
def sliceMask (width low count : ℕ) : BitVec width := BitVec.ofNat width ((2 ^ count - 1) <<< low)

/-- The `count` bits of a word from `low` on, moved to `position`. -/
def place (word : BitVec width) (low count position : ℕ) : BitVec width :=
  ((word &&& sliceMask width low count) >>> low) <<< position

theorem getLsbD_and_sliceMask (word : BitVec width) (low count bit : ℕ) :
    (word &&& sliceMask width low count).getLsbD bit =
      (decide (low ≤ bit ∧ bit < low + count) && word.getLsbD bit) := by
  rw [BitVec.getLsbD_and, sliceMask, BitVec.getLsbD_ofNat, Nat.testBit_shiftLeft,
    Nat.testBit_two_pow_sub_one]
  by_cases hbit : bit < width
  · cases word.getLsbD bit
    · simp
    · simp only [hbit, decide_true, Bool.true_and, Bool.and_true, ← Bool.decide_and, ge_iff_le]
      exact decide_eq_decide.mpr (by omega)
  · rw [BitVec.getLsbD_of_ge word bit (by omega), Bool.false_and, Bool.and_false]

theorem getLsbD_place (word : BitVec width) (low count position bit : ℕ) :
    (place word low count position).getLsbD bit =
      (decide (bit < width ∧ position ≤ bit ∧ bit < position + count) &&
        word.getLsbD (low + (bit - position))) := by
  rw [place, BitVec.getLsbD_shiftLeft, BitVec.getLsbD_ushiftRight, getLsbD_and_sliceMask]
  by_cases hplace : bit < width ∧ position ≤ bit ∧ bit < position + count
  · have hslice : low ≤ low + (bit - position) ∧ low + (bit - position) < low + count := by
      omega
    simp [hplace, hslice]
  · rw [decide_eq_false hplace, Bool.false_and]
    by_cases hbit : bit < width ∧ position ≤ bit
    · have hslice : ¬(low ≤ low + (bit - position) ∧ low + (bit - position) < low + count) := by
        omega
      rw [decide_eq_false hslice, Bool.false_and, Bool.and_false]
    · have hshift : (decide (bit < width) && !decide (bit < position)) = false := by
        simp; omega
      rw [hshift, Bool.false_and]

/-- A masked word is a slice that stays where it is. -/
theorem and_eq_place (word : BitVec width) (low count : ℕ) :
    word &&& sliceMask width low count = place word low count low := by
  apply BitVec.eq_of_getLsbD_eq
  intro bit hbit
  rw [getLsbD_and_sliceMask, getLsbD_place]
  by_cases hslice : low ≤ bit ∧ bit < low + count
  · simp [hslice, hbit]
  · simp [hslice, hbit]

theorem place_shiftLeft (word : BitVec width) (low count position shift : ℕ) :
    place word low count position <<< shift = place word low count (position + shift) :=
  (BitVec.shiftLeft_add _ _ _).symm

section Slices

variable {word : BitVec width} {low count position start len : ℕ}

/-- Two slices that follow one another. -/
theorem extract_eq_append (lower upper : ℕ) :
    word.extractLsb' start (upper + lower) =
      word.extractLsb' (start + lower) upper ++ word.extractLsb' start lower :=
  (BitVec.extractLsb'_append_extractLsb'_eq_extractLsb' rfl).symm

theorem extract_eq_zero_iff :
    word.extractLsb' start len = BitVec.ofNat len 0 ↔
      ∀ bit, start ≤ bit → bit < start + len → word.getLsbD bit = false := by
  constructor
  · intro hzero bit hlower hupper
    have hbit := congrArg (fun slice => slice.getLsbD (bit - start)) hzero
    have hinside : bit - start < len := by omega
    have hsource : start + (bit - start) = bit := by omega
    simpa only [BitVec.getLsbD_extractLsb', decide_eq_true hinside, Bool.true_and,
      BitVec.getLsbD_zero, hsource] using hbit
  · intro hclear
    apply BitVec.eq_of_getLsbD_eq
    intro bit hbit
    rw [BitVec.getLsbD_extractLsb', hclear (start + bit) (by omega) (by omega), Bool.and_false,
      BitVec.getLsbD_zero]

/-- A part of a slice of zeros. -/
theorem extract_eq_zero_of_le {start' len' : ℕ}
    (hzero : word.extractLsb' start len = BitVec.ofNat len 0) (hstart : start ≤ start')
    (hend : start' + len' ≤ start + len) :
    word.extractLsb' start' len' = BitVec.ofNat len' 0 := by
  rw [extract_eq_zero_iff] at hzero ⊢
  intro bit hlower hupper
  exact hzero bit (by omega) (by omega)

/-- What is read from inside the place is the slice that was moved there. -/
theorem extract_place (hstart : position ≤ start) (hend : start + len ≤ position + count)
    (hwidth : start + len ≤ width) :
    (place word low count position).extractLsb' start len =
      word.extractLsb' (low + (start - position)) len := by
  apply BitVec.eq_of_getLsbD_eq
  intro bit hbit
  have hplace : start + bit < width ∧ position ≤ start + bit ∧
      start + bit < position + count := by omega
  have hsource : low + (start + bit - position) = low + (start - position) + bit := by omega
  rw [BitVec.getLsbD_extractLsb', BitVec.getLsbD_extractLsb', getLsbD_place,
    decide_eq_true hplace, Bool.true_and, hsource]

/-- Elsewhere there are zeros. -/
theorem extract_place_apart (hapart : start + len ≤ position ∨ position + count ≤ start) :
    (place word low count position).extractLsb' start len = BitVec.ofNat len 0 := by
  apply BitVec.eq_of_getLsbD_eq
  intro bit hbit
  have hplace : ¬(start + bit < width ∧ position ≤ start + bit ∧
      start + bit < position + count) := by omega
  rw [BitVec.getLsbD_extractLsb', getLsbD_place, decide_eq_false hplace, Bool.false_and,
    Bool.and_false, BitVec.getLsbD_zero]

/-- The low bits of a word, cut out by a mask and by a narrower type. -/
theorem ofNat_and_sliceMask (word : BitVec width) (count : ℕ) :
    BitVec.ofNat count (word &&& sliceMask width 0 count).toNat = word.extractLsb' 0 count := by
  rw [BitVec.ofNat_toNat]
  apply BitVec.eq_of_getLsbD_eq
  intro bit hbit
  rw [BitVec.getLsbD_setWidth, getLsbD_and_sliceMask]
  simp [hbit]

theorem extract_ushiftRight (word : BitVec width) (shift count : ℕ) :
    (word >>> shift).extractLsb' 0 count = word.extractLsb' shift count := by
  apply BitVec.eq_of_getLsbD_eq
  intro bit hbit
  simp [hbit]

end Slices

end Flurry.BitSlice
