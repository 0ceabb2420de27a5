import Flurry.Core.ByteMemory
import Flurry.Core.Numeral

/-!
# Printing numbers

`itoa` of `tty.c` writes the digits of a number from the last one on and then
reverses them in place.  A string is the buffer it stands in, and a read or
write that leaves the buffer fails.
-/

namespace Flurry.Log

open ByteMemory Numeral

/-- `str[index] = byte`. -/
def writeByte (str : List Byte) (index : ℕ) (byte : Byte) : Option (List Byte) :=
  if index < str.length then some (str.set index byte) else none

/-- The loop of `reverse`, `none` if it is still running after `fuel` iterations. -/
def reverseLoop : ℕ → List Byte → ℕ → ℕ → Option (List Byte)
  | 0, str, start, stop => if start < stop then none else some str
  | fuel + 1, str, start, stop =>
      if start < stop then do
        let temp ← str[start]?
        let other ← str[stop]?
        let str ← writeByte str start other
        let str ← writeByte str stop temp
        reverseLoop fuel str (start + 1) (stop - 1)
      else some str

def reverse (str : List Byte) (length : ℕ) : Option (List Byte) :=
  reverseLoop length str 0 (length - 1)

/-- `(remainder > 9) ? (remainder - 10) + 'a' : remainder + '0'`. -/
def digitChar (remainder : ℕ) : Byte :=
  lowByte (if remainder > 9 then remainder - 10 + 'a'.toNat else remainder + '0'.toNat)

/-- The `do` loop, which runs at least once; `none` if it is still running after `fuel`
iterations. -/
def itoaLoop (base : ℕ) : ℕ → ℕ → List Byte → ℕ → Option (List Byte × ℕ)
  | 0, _, _, _ => none
  | fuel + 1, value, str, i => do
      let remainder := value % base
      let str ← writeByte str i (digitChar remainder)
      let value := value / base
      if value ≠ 0 then itoaLoop base fuel value str (i + 1) else some (str, i + 1)

/-- The buffer after the call.  A number of 64 bits has at most 64 digits. -/
def itoa (value : BitVec 64) (str : List Byte) (base : ℤ) : Option (List Byte) :=
  if base < 2 ∨ base > 36 then writeByte str 0 0
  else do
    let (str, i) ← itoaLoop base.toNat 64 value.toNat str 0
    let str ← reverse str i
    writeByte str i 0

/-! ## The loops -/

section Loops

variable {before after : List Byte}

theorem writeByte_append (old byte : Byte) :
    writeByte (before ++ old :: after) before.length byte =
      some (before ++ byte :: after) := by
  rw [writeByte, if_pos (by simp), List.set_append_right _ _ (Nat.le_refl _), Nat.sub_self,
    List.set_cons_zero]

/-- One iteration swaps the bytes at the two indices. -/
theorem reverseLoop_swap (fuel : ℕ) (first last : Byte) (middle : List Byte) :
    reverseLoop (fuel + 1) (before ++ first :: middle ++ last :: after) before.length
        (before.length + middle.length + 1) =
      reverseLoop fuel (before ++ last :: middle ++ first :: after) (before.length + 1)
        (before.length + middle.length) := by
  have hstop : ∀ byte : Byte, before.length + middle.length + 1 =
      (before ++ byte :: middle).length := by
    intro byte
    rw [List.length_append, List.length_cons, Nat.add_assoc]
  have hfirst : (before ++ first :: middle ++ last :: after)[before.length]? = some first := by
    simp
  have hlast : (before ++ first :: middle ++ last :: after)[
      before.length + middle.length + 1]? = some last := by
    rw [hstop first, List.getElem?_append_right (Nat.le_refl _), Nat.sub_self]
    rfl
  have hwrite : writeByte (before ++ first :: middle ++ last :: after) before.length last =
      some (before ++ last :: middle ++ last :: after) := by
    rw [List.append_assoc, List.cons_append, writeByte_append, List.append_assoc,
      List.cons_append]
  have hwrite' : writeByte (before ++ last :: middle ++ last :: after)
      (before.length + middle.length + 1) first =
        some (before ++ last :: middle ++ first :: after) := by
    rw [hstop last, writeByte_append]
  rw [reverseLoop, if_pos (by omega), hfirst, hlast]
  simp only [Option.bind_eq_bind, Option.bind_some, hwrite, hwrite', Nat.add_sub_cancel]

/-- What stands between the two indices is turned around. -/
theorem reverseLoop_eq {fuel : ℕ} (middle : List Byte) (hfuel : middle.length ≤ fuel) :
    reverseLoop fuel (before ++ middle ++ after) before.length
        (before.length + middle.length - 1) =
      some (before ++ middle.reverse ++ after) := by
  -- the indices meet from both ends of the middle part
  induction middle using List.bidirectionalRec generalizing fuel before after with
  | nil =>
      have hend : ¬before.length < before.length + ([] : List Byte).length - 1 := by simp
      cases fuel <;> rw [reverseLoop, if_neg hend] <;> rfl
  | singleton byte =>
      have hend : ¬before.length < before.length + [byte].length - 1 := by simp
      cases fuel <;> rw [reverseLoop, if_neg hend] <;> rfl
  | cons_append first middle last ih =>
      cases fuel with
      | zero => simp at hfuel
      | succ fuel =>
          have hshorter : middle.length ≤ fuel := by
            simp only [List.length_cons, List.length_append, List.length_nil] at hfuel
            omega
          have hrest := @ih (before ++ [last]) (first :: after) fuel hshorter
          have hswap := @reverseLoop_swap before after fuel first last middle
          have hnext : (before ++ [last]).length + middle.length - 1 =
              before.length + middle.length := by
            rw [List.length_append, List.length_singleton]
            omega
          have hstop : before.length + (first :: (middle ++ [last])).length - 1 =
              before.length + middle.length + 1 := by
            simp only [List.length_cons, List.length_append, List.length_nil]
            omega
          rw [hnext, List.length_append, List.length_singleton] at hrest
          rw [hstop]
          simpa using hswap.trans (by simpa using hrest)

theorem reverse_eq (text : List Byte) :
    reverse (text ++ after) text.length = some (text.reverse ++ after) := by
  have hloop := @reverseLoop_eq [] after text.length text (Nat.le_refl _)
  simpa [reverse] using hloop

/-- The loop writes the digits over as many bytes of the buffer. -/
theorem itoaLoop_eq {base fuel value : ℕ} {room : List Byte} (hbase : 1 < base)
    (hfuel : (lowDigits base value).length ≤ fuel)
    (hroom : room.length = (lowDigits base value).length) :
    itoaLoop base fuel value (before ++ room ++ after) before.length =
      some (before ++ (lowDigits base value).map digitChar ++ after,
        before.length + (lowDigits base value).length) := by
  induction fuel generalizing value room before with
  | zero =>
      rw [lowDigits_step hbase] at hfuel
      simp at hfuel
  | succ fuel ih =>
      rw [lowDigits_step hbase] at hfuel hroom ⊢
      rw [List.length_cons] at hfuel hroom
      obtain ⟨old, room, rfl⟩ := List.exists_cons_of_length_eq_add_one hroom
      have hwrite : writeByte (before ++ old :: room ++ after) before.length
          (digitChar (value % base)) =
            some (before ++ [digitChar (value % base)] ++ room ++ after) := by
        rw [List.append_assoc, List.cons_append, writeByte_append]
        simp
      simp only [itoaLoop, hwrite, Option.bind_eq_bind, Option.bind_some]
      by_cases hlast : value / base = 0
      · obtain rfl : room = [] := by simpa [hlast] using hroom
        simp [hlast]
      · simp only [if_neg hlast] at hfuel hroom ⊢
        have hrest := @ih (before ++ [digitChar (value % base)]) (value / base) room
          (by omega) (by simpa using hroom)
        rw [List.length_append, List.length_singleton] at hrest
        rw [if_pos hlast, hrest, Nat.add_right_comm]
        simp [Nat.add_assoc]

end Loops

/-! ## Numerals -/

/-- The digit that a character denotes. -/
def digitOf (byte : Byte) : Option ℕ :=
  if '0'.toNat ≤ byte.val ∧ byte.val ≤ '9'.toNat then some (byte.val - '0'.toNat)
  else if 'a'.toNat ≤ byte.val ∧ byte.val ≤ 'z'.toNat then
    some (byte.val - 'a'.toNat + 10)
  else none

/-- One character more of a text that is being read. -/
def readDigit (base value : ℕ) (byte : Byte) : Option ℕ := do
  let digit ← digitOf byte
  if digit < base then some (value * base + digit) else none

/-- The number that a text denotes, `none` if it holds anything but digits of the base. -/
def readNumeral (base : ℕ) (text : List Byte) : Option ℕ :=
  text.foldlM (readDigit base) 0

/-- The text is a numeral of the number, without leading zeros. -/
structure Spells (base value : ℕ) (text : List Byte) : Prop where
  nonempty : text ≠ []
  leading : text.head? = some (digitChar 0) → text = [digitChar 0]
  reads : readNumeral base text = some value

section Numerals

variable {base value : ℕ} {text : List Byte}

theorem digitOf_digitChar {digit : ℕ} (hdigit : digit < 36) :
    digitOf (digitChar digit) = some digit := by
  have hall : ∀ digit < 36, digitOf (digitChar digit) = some digit := by decide
  exact hall digit hdigit

theorem digitChar_of_digitOf {byte : Byte} {digit : ℕ} (hdigit : digitOf byte = some digit) :
    byte = digitChar digit := by
  have hall : ∀ byte : Byte, ∀ digit ∈ digitOf byte, byte = digitChar digit := by
    decide +kernel
  exact hall byte digit hdigit

theorem digitChar_inj {digit other : ℕ} (hdigit : digit < 36) (hother : other < 36) :
    digitChar digit = digitChar other ↔ digit = other := by
  constructor
  · intro hchar
    have hsome := digitOf_digitChar hdigit
    rw [hchar, digitOf_digitChar hother] at hsome
    exact (Option.some.inj hsome).symm
  · rintro rfl
    rfl

theorem readDigit_eq_some_iff {next : ℕ} {byte : Byte} (hbase : base ≤ 36) :
    readDigit base value byte = some next ↔
      ∃ digit < base, byte = digitChar digit ∧ next = value * base + digit := by
  constructor
  · intro hread
    obtain ⟨digit, hdigit, hnext⟩ := Option.bind_eq_some_iff.mp hread
    rw [Option.ite_none_right_eq_some] at hnext
    exact ⟨digit, hnext.1, digitChar_of_digitOf hdigit, (Option.some.inj hnext.2).symm⟩
  · rintro ⟨digit, hlt, rfl, rfl⟩
    simp [readDigit, digitOf_digitChar (hlt.trans_le hbase), hlt]

/-- A text is read as the digits it consists of. -/
theorem foldlM_readDigit_iff {start : ℕ} (hbase : base ≤ 36) :
    text.foldlM (readDigit base) start = some value ↔
      ∃ digits : List ℕ, text = digits.map digitChar ∧ (∀ digit ∈ digits, digit < base) ∧
        digits.foldl (fun value digit => value * base + digit) start = value := by
  induction text generalizing start with
  | nil => simp
  | cons byte text ih =>
      rw [List.foldlM_cons, Option.bind_eq_bind, Option.bind_eq_some_iff]
      constructor
      · rintro ⟨next, hnext, hrest⟩
        obtain ⟨digit, hlt, rfl, rfl⟩ := (readDigit_eq_some_iff hbase).mp hnext
        obtain ⟨digits, rfl, hdigits, hvalue⟩ := ih.mp hrest
        exact ⟨digit :: digits, rfl, by simpa using ⟨hlt, hdigits⟩, hvalue⟩
      · rintro ⟨digits, htext, hdigits, hvalue⟩
        obtain ⟨digit, digits, rfl, rfl, rfl⟩ := List.map_eq_cons_iff.mp htext.symm
        obtain ⟨hlt, hdigits⟩ := List.forall_mem_cons.mp hdigits
        exact ⟨_, (readDigit_eq_some_iff hbase).mpr ⟨digit, hlt, rfl, rfl⟩,
          ih.mpr ⟨digits, rfl, hdigits, hvalue⟩⟩

/-- A text spells a number if it is a numeral with its digits as characters. -/
theorem spells_iff_isNumeral (hbase : 0 < base) (hbase' : base ≤ 36) :
    Spells base value text ↔
      ∃ digits, text = digits.map digitChar ∧ IsNumeral base value digits := by
  have hzero : ∀ {digits : List ℕ}, (∀ digit ∈ digits, digit < base) →
      ((digits.map digitChar).head? = some (digitChar 0) ↔ digits.head? = some 0) ∧
      (digits.map digitChar = [digitChar 0] ↔ digits = [0]) := by
    intro digits hdigits
    cases digits with
    | nil => simp
    | cons digit digits =>
        have hlt := hdigits digit List.mem_cons_self
        simp [digitChar_inj (show digit < 36 by omega) (show 0 < 36 by omega)]
  constructor
  · rintro ⟨hnonempty, hleading, hreads⟩
    obtain ⟨digits, rfl, hdigits, hvalue⟩ := (foldlM_readDigit_iff hbase').mp hreads
    obtain ⟨hhead, hsingle⟩ := hzero hdigits
    exact ⟨digits, rfl, by simpa using hnonempty, hdigits,
      fun hfirst => hsingle.mp (hleading (hhead.mpr hfirst)), hvalue⟩
  · rintro ⟨digits, rfl, hnonempty, hdigits, hleading, hvalue⟩
    obtain ⟨hhead, hsingle⟩ := hzero hdigits
    exact ⟨by simpa using hnonempty, fun hfirst => hsingle.mpr (hleading (hhead.mp hfirst)),
      (foldlM_readDigit_iff hbase').mpr ⟨digits, rfl, hdigits, hvalue⟩⟩

theorem spells_iff (hbase : 1 < base) (hbase' : base ≤ 36) :
    Spells base value text ↔ text = (numeral base value).map digitChar := by
  rw [spells_iff_isNumeral (by omega) hbase']
  constructor
  · rintro ⟨digits, rfl, hnumeral⟩
    rw [(isNumeral_iff hbase).mp hnumeral]
  · rintro rfl
    exact ⟨_, rfl, isNumeral_numeral hbase value⟩

end Numerals

/-- The digits and the terminator replace the beginning of the buffer. -/
theorem itoa_eq {base : ℕ} {value : BitVec 64} {str : List Byte} (hbase : 2 ≤ base)
    (hbase' : base ≤ 36)
    (hroom : (numeral base value.toNat).length + 1 ≤ str.length) :
    itoa value str base =
      some ((numeral base value.toNat).map digitChar ++
        0 :: str.drop ((numeral base value.toNat).length + 1)) := by
  have hlength := length_numeral base value.toNat
  have hfuel : (lowDigits base value.toNat).length ≤ 64 := by
    apply length_lowDigits_le (by omega) (by omega)
    exact value.isLt.trans_le (Nat.pow_le_pow_left hbase 64)
  generalize hcount : (numeral base value.toNat).length = count at hroom hlength ⊢
  have hstr : str = str.take count ++ str.drop count := (List.take_append_drop count str).symm
  have hloop := @itoaLoop_eq [] (str.drop count) base 64 value.toNat (str.take count)
    (by omega) hfuel (by rw [List.length_take]; omega)
  have hreverse := @reverse_eq (str.drop count) ((lowDigits base value.toNat).map digitChar)
  have hdrop : str.drop count = str.get ⟨count, by omega⟩ :: str.drop (count + 1) :=
    List.drop_eq_getElem_cons (by omega)
  have hend := @writeByte_append ((numeral base value.toNat).map digitChar)
    (str.drop (count + 1)) (str.get ⟨count, by omega⟩) 0
  rw [← hdrop, List.length_map, hcount] at hend
  rw [List.nil_append, ← hstr, List.length_nil, Nat.zero_add, ← hlength] at hloop
  rw [List.length_map, ← hlength, ← List.map_reverse, ← numeral] at hreverse
  rw [itoa, if_neg (by omega), Int.toNat_natCast]
  simp only [hloop, List.nil_append, Option.bind_eq_bind, Option.bind_some, hreverse, hend]

/-- A number of 64 bits has at most 20 digits in the bases that are printed. -/
theorem length_numeral_le {base : ℕ} (value : BitVec 64) (hprinted : base = 10 ∨ base = 16) :
    (numeral base value.toNat).length ≤ 20 := by
  have hfits : value.toNat < base ^ 20 := by
    have hvalue := value.isLt
    rcases hprinted with rfl | rfl <;> omega
  rw [length_numeral]
  exact length_lowDigits_le (by omega) (by omega) hfits

/-- For every value and every base `itoa` writes the one numeral of the value and a
terminator over the beginning of the buffer.  In bases 10 and 16 the 21 bytes of
`kprintf`'s buffer are enough. -/
theorem itoa_numeral (value : BitVec 64) (base : ℕ) (hbase : 2 ≤ base ∧ base ≤ 36) :
    ∃ text : List Byte, Spells base value.toNat text ∧
      (∀ other, Spells base value.toNat other → other = text) ∧
      (∀ str : List Byte, text.length + 1 ≤ str.length →
        itoa value str base = some (text ++ 0 :: str.drop (text.length + 1))) ∧
      (base = 10 ∨ base = 16 → text.length + 1 ≤ 21) := by
  have hspells : ∀ {text}, Spells base value.toNat text ↔
      text = (numeral base value.toNat).map digitChar :=
    spells_iff (by omega) hbase.2
  refine ⟨_, hspells.mpr rfl, fun other hother => hspells.mp hother, ?_, ?_⟩
  · intro str hroom
    rw [List.length_map] at hroom ⊢
    exact itoa_eq hbase.1 hbase.2 hroom
  · intro hprinted
    rw [List.length_map]
    have hdigits := length_numeral_le value hprinted
    omega

/-- 255 in base 16 is `ff`, and the rest of the buffer stays as it was. -/
theorem itoa_numeral_hex :
    (∀ text, Spells 16 255 text ↔ text = [0x66, 0x66]) ∧
      itoa 255 (List.replicate 21 7) 16 = some ([0x66, 0x66, 0] ++ List.replicate 18 7) := by
  obtain ⟨text, hspells, hunique, hwrites, -⟩ := itoa_numeral 255 16 ⟨by decide, by decide⟩
  obtain rfl : [0x66, 0x66] = text :=
    hunique _ ⟨by decide, by decide, by decide⟩
  exact ⟨fun other => ⟨hunique other, fun hother => hother ▸ hspells⟩,
    hwrites (List.replicate 21 7) (by decide)⟩

/-- The largest number fills the buffer of `kprintf`. -/
example :
    itoa (BitVec.allOnes 64) (List.replicate 21 7) 10 =
      some ("18446744073709551615".toList.map (fun char => lowByte char.toNat) ++ [0]) := by
  decide +kernel

end Flurry.Log
