import Flurry.Core.ByteMemory

/-!
# Memory functions of `string.c`

The byte loops the kernel links in place of the C library, on byte-addressed
memory.
-/

namespace Flurry.StringOps

open ByteMemory

/-- `while (len-- > 0) *ptr++ = val;` -/
def memset (memory : Memory) (dest val : ℕ) : ℕ → Memory
  | 0 => memory
  | len + 1 => memset (Function.update memory dest (lowByte val)) (dest + 1) val len

theorem memset_eq_fill (memory : Memory) (dest val len : ℕ) :
    memset memory dest val len = fill memory dest len (lowByte val) := by
  induction len generalizing memory dest with
  | zero =>
      funext target
      rw [memset, fill, if_neg (by omega)]
  | succ len ih =>
      rw [memset, ih]
      funext target
      by_cases hfirst : target = dest
      · subst hfirst
        rw [fill_of_not_mem (by omega), fill_of_mem (by omega) (by omega),
          Function.update_self]
      · by_cases hinside : dest ≤ target ∧ target < dest + (len + 1)
        · rw [fill_of_mem (by omega) (by omega),
            fill_of_mem hinside.1 hinside.2]
        · rw [fill_of_not_mem (by omega), fill_of_not_mem (by omega),
            Function.update_of_ne hfirst]

/-- `while ((*dest++ = *src++) != '\0');`, where `bytes` are the bytes of the source
before its terminator. -/
def strcpy (memory : Memory) (dest : ℕ) : List Byte → Memory
  | [] => Function.update memory dest 0
  | byte :: bytes =>
      if byte = 0 then Function.update memory dest byte
      else strcpy (Function.update memory dest byte) (dest + 1) bytes

theorem agreeOutside_strcpy (memory : Memory) (dest : ℕ) (bytes : List Byte) :
    AgreeOutside dest (dest + bytes.length + 1) memory (strcpy memory dest bytes) := by
  induction bytes generalizing memory dest with
  | nil =>
      intro target htarget
      exact Function.update_of_ne (by rw [List.length_nil] at htarget; omega) ..
  | cons byte bytes ih =>
      intro target htarget
      rw [List.length_cons] at htarget
      have hfirst : Function.update memory dest byte target = memory target :=
        Function.update_of_ne (by omega) ..
      rw [strcpy]
      split
      · exact hfirst
      · rw [ih (Function.update memory dest byte) (dest + 1) target (by omega), hfirst]

/-! ## Copies -/

/-- `pdest[i] = psrc[i]`. -/
def copyByte (memory : Memory) (dest src index : ℕ) : Memory :=
  Function.update memory (dest + index) (memory (src + index))

/-- The first `n` iterations of `for (i = 0; i < n; i++) pdest[i] = psrc[i];`. -/
def copyUp (memory : Memory) (dest src : ℕ) : ℕ → Memory
  | 0 => memory
  | n + 1 => copyByte (copyUp memory dest src n) dest src n

/-- `for (i = n; i > 0; i--) pdest[i - 1] = psrc[i - 1];`. -/
def copyDown (memory : Memory) (dest src : ℕ) : ℕ → Memory
  | 0 => memory
  | n + 1 => copyDown (copyByte memory dest src n) dest src n

def memcpy (memory : Memory) (dest src n : ℕ) : Memory := copyUp memory dest src n

def memmove (memory : Memory) (dest src n : ℕ) : Memory :=
  if src > dest then copyUp memory dest src n
  else if src < dest then copyDown memory dest src n
  else memory

/-- The memory in which the bytes from `dest` on are those that stood at `src`. -/
def copied (memory : Memory) (dest src n : ℕ) : Memory :=
  fun target =>
    if dest ≤ target ∧ target < dest + n then memory (src + (target - dest))
    else memory target

section Copies

variable {memory : Memory} {dest src n : ℕ}

theorem copied_of_mem {index : ℕ} (hindex : index < n) :
    copied memory dest src n (dest + index) = memory (src + index) := by
  rw [copied, if_pos (by omega), Nat.add_sub_cancel_left]

theorem agreeOutside_copied (memory : Memory) (dest src n : ℕ) :
    AgreeOutside dest (dest + n) memory (copied memory dest src n) := by
  intro target htarget
  rw [copied, if_neg (by omega)]

/-- Upwards, the source bytes still to be read lie beyond those written, or outside the
destination. -/
theorem copyUp_eq (hapart : dest ≤ src ∨ src + n ≤ dest) :
    copyUp memory dest src n = copied memory dest src n := by
  induction n with
  | zero =>
      funext target
      rw [copyUp, copied, if_neg (by omega)]
  | succ n ih =>
      have hread : copied memory dest src n (src + n) = memory (src + n) :=
        agreeOutside_copied memory dest src n (src + n) (by omega)
      rw [copyUp, ih (by omega), copyByte, hread]
      funext target
      by_cases hlast : target = dest + n
      · subst hlast
        rw [Function.update_self, copied_of_mem (by omega)]
      · rw [Function.update_of_ne hlast]
        have hinside : dest ≤ target ∧ target < dest + n ↔
            dest ≤ target ∧ target < dest + (n + 1) := by omega
        simp only [copied, hinside]

/-- Downwards, they lie below those written. -/
theorem copyDown_eq (hbelow : src ≤ dest) :
    copyDown memory dest src n = copied memory dest src n := by
  induction n generalizing memory with
  | zero =>
      funext target
      rw [copyDown, copied, if_neg (by omega)]
  | succ n ih =>
      rw [copyDown, ih]
      funext target
      by_cases hinside : dest ≤ target ∧ target < dest + n
      · have hother : src + (target - dest) ≠ dest + n := by omega
        rw [copied, copied, if_pos hinside, if_pos (by omega), copyByte,
          Function.update_of_ne hother]
      · by_cases hlast : target = dest + n
        · subst hlast
          rw [copied, if_neg hinside, copied_of_mem (by omega), copyByte,
            Function.update_self]
        · rw [copied, copied, if_neg hinside, if_neg (by omega), copyByte,
            Function.update_of_ne hlast]

/-- `memcpy` may not be given a source that begins before an overlapping destination. -/
theorem memcpy_eq (hapart : dest ≤ src ∨ src + n ≤ dest) :
    memcpy memory dest src n = copied memory dest src n :=
  copyUp_eq hapart

/-- The direction of the loop depends on which range begins first. -/
theorem memmove_eq (memory : Memory) (dest src n : ℕ) :
    memmove memory dest src n = copied memory dest src n := by
  unfold memmove
  split
  next habove => exact copyUp_eq (by omega)
  next =>
    split
    next hbelow => exact copyDown_eq (by omega)
    next =>
      obtain rfl : dest = src := by omega
      funext target
      by_cases hinside : dest ≤ target ∧ target < dest + n
      · rw [copied, if_pos hinside, Nat.add_sub_cancel' hinside.1]
      · rw [copied, if_neg hinside]

end Copies

/-- However the ranges overlap, the destination holds what the source held before the
call and nothing else changes. -/
theorem memmove_copies (memory : Memory) (dest src n : ℕ) :
    (∀ index < n, memmove memory dest src n (dest + index) = memory (src + index)) ∧
      AgreeOutside dest (dest + n) memory (memmove memory dest src n) := by
  rw [memmove_eq]
  exact ⟨fun index hindex => copied_of_mem hindex, agreeOutside_copied memory dest src n⟩

end Flurry.StringOps
