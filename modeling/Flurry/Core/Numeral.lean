import Mathlib.Data.Nat.Digits.Lemmas

/-!
# Positional numerals

A numeral is a list of digits, the most significant one first, without leading
zeros.  Every number has exactly one in every base, which a division loop finds
from its last digit on.
-/

namespace Flurry.Numeral

/-- The digits as a division loop finds them, which runs once for zero too. -/
def lowDigits (base value : ℕ) : List ℕ :=
  if value = 0 then [0] else Nat.digits base value

def numeral (base value : ℕ) : List ℕ := (lowDigits base value).reverse

/-- The number that a list of digits denotes. -/
def readDigits (base : ℕ) (digits : List ℕ) : ℕ :=
  digits.foldl (fun value digit => value * base + digit) 0

structure IsNumeral (base value : ℕ) (digits : List ℕ) : Prop where
  nonempty : digits ≠ []
  digit_lt : ∀ digit ∈ digits, digit < base
  leading : digits.head? = some 0 → digits = [0]
  value : readDigits base digits = value

variable {base value : ℕ} {digits : List ℕ}

theorem readDigits_eq (base : ℕ) (digits : List ℕ) :
    readDigits base digits = Nat.ofDigits base digits.reverse := by
  rw [Nat.ofDigits_eq_foldr, List.foldr_reverse, readDigits]
  congr 1
  funext value digit
  rw [Nat.cast_id, Nat.mul_comm, Nat.add_comm]

/-- One iteration of the loop. -/
theorem lowDigits_step (hbase : 1 < base) (value : ℕ) :
    lowDigits base value =
      value % base :: if value / base = 0 then [] else lowDigits base (value / base) := by
  by_cases hvalue : value = 0
  · simp [lowDigits, hvalue]
  · rw [lowDigits, if_neg hvalue, Nat.digits_def' hbase (by omega)]
    by_cases hlast : value / base = 0
    · rw [if_pos hlast, hlast, Nat.digits_zero]
    · rw [if_neg hlast, lowDigits, if_neg hlast]

theorem length_lowDigits_le {count : ℕ} (hbase : 1 < base) (hcount : 0 < count)
    (hvalue : value < base ^ count) : (lowDigits base value).length ≤ count := by
  unfold lowDigits
  split
  · exact hcount
  · exact (Nat.digits_length_le_iff hbase value).mpr hvalue

theorem length_numeral (base value : ℕ) :
    (numeral base value).length = (lowDigits base value).length :=
  List.length_reverse

theorem isNumeral_numeral (hbase : 1 < base) (value : ℕ) :
    IsNumeral base value (numeral base value) := by
  by_cases hvalue : value = 0
  · subst hvalue
    exact ⟨by simp [numeral, lowDigits], by simp [numeral, lowDigits]; omega,
      by simp [numeral, lowDigits], by simp [numeral, lowDigits, readDigits]⟩
  · have hdigits : lowDigits base value = Nat.digits base value := if_neg hvalue
    have hne : Nat.digits base value ≠ [] := Nat.digits_ne_nil_iff_ne_zero.mpr hvalue
    refine ⟨?_, ?_, ?_, ?_⟩
    · rw [numeral, hdigits, ne_eq, List.reverse_eq_nil_iff]
      exact hne
    · intro digit hdigit
      rw [numeral, hdigits, List.mem_reverse] at hdigit
      exact Nat.digits_lt_base hbase hdigit
    · intro hhead
      rw [numeral, hdigits, List.head?_reverse, List.getLast?_eq_some_getLast hne] at hhead
      exact absurd (Option.some.inj hhead) (Nat.getLast_digit_ne_zero base hvalue)
    · rw [readDigits_eq, numeral, List.reverse_reverse, hdigits, Nat.ofDigits_digits]

/-- There is one numeral for each number. -/
theorem isNumeral_iff (hbase : 1 < base) :
    IsNumeral base value digits ↔ digits = numeral base value := by
  constructor
  · rintro ⟨hnonempty, hlt, hleading, rfl⟩
    by_cases hzero : digits.head? = some 0
    · simp [hleading hzero, readDigits, numeral, lowDigits]
    · -- the first digit is the last one of the loop, and it is not zero
      have hreverse : digits.reverse ≠ [] := by simpa using hnonempty
      have hlast : digits.reverse.getLast hreverse ≠ 0 := by
        intro hlast
        apply hzero
        rw [← List.getLast?_reverse, List.getLast?_eq_some_getLast hreverse, hlast]
      have hback : Nat.digits base (readDigits base digits) = digits.reverse := by
        rw [readDigits_eq]
        exact Nat.digits_ofDigits base hbase _
          (fun digit hdigit => hlt digit (List.mem_reverse.mp hdigit)) fun _ => hlast
      have hvalue : readDigits base digits ≠ 0 := by
        intro hvalue
        rw [hvalue, Nat.digits_zero] at hback
        exact hreverse hback.symm
      rw [numeral, lowDigits, if_neg hvalue, hback, List.reverse_reverse]
  · rintro rfl
    exact isNumeral_numeral hbase value

end Flurry.Numeral
