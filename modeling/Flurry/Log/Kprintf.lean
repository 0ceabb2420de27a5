import Flurry.Log.Itoa
import Flurry.Log.Tty

/-!
# Formatted output

`kprintf` walks over its format and prints what it finds at once.  Numbers go
through a buffer of 21 bytes on the stack, which holds anything at first.  All of it
together prints one text, so that what holds for texts holds for formatted output.
-/

namespace Flurry.Log

open ByteMemory Numeral

/-! ## The function -/

/-- What `va_arg` takes: the characters of a string before its terminator, a character
or a number. -/
inductive Arg where
  | string (s : List Byte)
  | char (c : Byte)
  | number (value : BitVec 64)

def charByte (c : Char) : Byte := lowByte c.toNat

/-- The string that starts a buffer, `none` if there is no terminator. -/
def readString : List Byte → Option (List Byte)
  | [] => none
  | byte :: buffer =>
      if byte = 0 then some [] else (readString buffer).map fun s => byte :: s

/-- `kputs(itoa(value, buffer, base))`, with the buffer afterwards. -/
def kputsItoa (font : Font) (tty : Tty) (buffer : List Byte) (value : BitVec 64)
    (base : ℤ) : Option ((Tty × List Glyph) × List Byte) := do
  let buffer ← itoa value buffer base
  let s ← readString buffer
  let printed ← kputs font tty s
  some (printed, buffer)

/-- The `switch` over the character after a percent sign.  An argument of another type
than `va_arg` takes is `none`; other characters print nothing and take no argument. -/
def convert (font : Font) (tty : Tty) (buffer : List Byte) (c : Byte) (args : List Arg) :
    Option (((Tty × List Glyph) × List Byte) × List Arg) :=
  if c = charByte 's' then
    match args with
    | .string s :: args => (kputs font tty s).map fun printed => ((printed, buffer), args)
    | _ => none
  else if c = charByte 'c' then
    match args with
    | .char c :: args => (kputchar font tty c).map fun printed => ((printed, buffer), args)
    | _ => none
  else if c = charByte 'd' then
    match args with
    | .number value :: args =>
        (kputsItoa font tty buffer value 10).map fun printed => (printed, args)
    | _ => none
  else if c = charByte 'x' then
    match args with
    | .number value :: args =>
        (kputsItoa font tty buffer value 16).map fun printed => (printed, args)
    | _ => none
  else some (((tty, []), buffer), args)

def kprintf (font : Font) : Tty → List Byte → List Byte → List Arg → Option (Tty × List Glyph)
  | tty, _, [], _ => some (tty, [])
  | tty, buffer, c :: format, args =>
      if c ≠ charByte '%' then do
        let (tty, drawn) ← kputchar font tty c
        let (tty, rest) ← kprintf font tty buffer format args
        some (tty, drawn ++ rest)
      else
        match format with
        | [] => some (tty, [])
        | c :: format => do
            let (((tty, drawn), buffer), args) ← convert font tty buffer c args
            let (tty, rest) ← kprintf font tty buffer format args
            some (tty, drawn ++ rest)

/-! ## The text -/

def numberText (base : ℕ) (value : BitVec 64) : List Byte :=
  (numeral base value.toNat).map digitChar

/-- What a percent sign and a character stand for, and the arguments that are left. -/
def conversion (c : Byte) (args : List Arg) : Option (List Byte × List Arg) :=
  if c = charByte 's' then
    match args with
    | .string s :: args => some (s, args)
    | _ => none
  else if c = charByte 'c' then
    match args with
    | .char c :: args => some ([c], args)
    | _ => none
  else if c = charByte 'd' then
    match args with
    | .number value :: args => some (numberText 10 value, args)
    | _ => none
  else if c = charByte 'x' then
    match args with
    | .number value :: args => some (numberText 16 value, args)
    | _ => none
  else some ([], args)

/-- The text that a format and its arguments stand for. -/
def expand : List Byte → List Arg → Option (List Byte)
  | [], _ => some []
  | c :: format, args =>
      if c ≠ charByte '%' then (expand format args).map fun text => c :: text
      else
        match format with
        | [] => some []
        | c :: format => do
            let (text, args) ← conversion c args
            let rest ← expand format args
            some (text ++ rest)

section Output

variable {font : Font} {tty : Tty} {buffer : List Byte}

/-- Two pieces of output, one after the other. -/
def followedBy (first : Option (Tty × List Glyph)) (rest : Tty → Option (Tty × List Glyph)) :
    Option (Tty × List Glyph) := do
  let (tty, drawn) ← first
  let (tty, more) ← rest tty
  some (tty, drawn ++ more)

theorem kputs_cons (c : Byte) (s : List Byte) :
    kputs font tty (c :: s) =
      followedBy (kputchar font tty c) fun tty => kputs font tty s := rfl

theorem followedBy_nil (rest : Tty → Option (Tty × List Glyph)) :
    followedBy (some (tty, [])) rest = rest tty := by
  cases hrest : rest tty <;> simp [followedBy, hrest]

theorem followedBy_assoc (first : Option (Tty × List Glyph))
    (second third : Tty → Option (Tty × List Glyph)) :
    followedBy (followedBy first second) third =
      followedBy first fun tty => followedBy (second tty) third := by
  cases first with
  | none => rfl
  | some result =>
      obtain ⟨tty, drawn⟩ := result
      cases hsecond : second tty with
      | none => simp [followedBy, hsecond]
      | some result =>
          obtain ⟨tty', drawn'⟩ := result
          cases hthird : third tty' <;> simp [followedBy, hsecond, hthird]

theorem kputs_singleton (c : Byte) : kputs font tty [c] = kputchar font tty c := by
  rw [kputs_cons]
  cases hput : kputchar font tty c <;> simp [followedBy, kputs]

theorem kputs_append (s text : List Byte) :
    kputs font tty (s ++ text) =
      followedBy (kputs font tty s) fun tty => kputs font tty text := by
  induction s generalizing tty with
  | nil => exact (followedBy_nil fun tty => kputs font tty text).symm
  | cons c s ih =>
      rw [List.cons_append, kputs_cons, kputs_cons, followedBy_assoc]
      simp only [ih]

theorem readString_append {s : List Byte} (rest : List Byte) (hs : ∀ byte ∈ s, byte ≠ 0) :
    readString (s ++ 0 :: rest) = some s := by
  induction s with
  | nil => rfl
  | cons byte s ih =>
      obtain ⟨hbyte, hs⟩ := List.forall_mem_cons.mp hs
      rw [List.cons_append, readString, if_neg hbyte, ih hs]
      rfl

theorem digitChar_ne_zero {digit : ℕ} (hdigit : digit < 36) : digitChar digit ≠ 0 := by
  have hall : ∀ digit < 36, digitChar digit ≠ 0 := by decide
  exact hall digit hdigit

/-- The buffer is large enough for every number, and what is printed is its numeral. -/
theorem kputsItoa_eq {base : ℕ} (value : BitVec 64) (hbase : base = 10 ∨ base = 16)
    (hbuffer : buffer.length = 21) :
    ∃ after, after.length = 21 ∧ kputsItoa font tty buffer value base =
      (kputs font tty (numberText base value)).map fun printed => (printed, after) := by
  have hdigits := length_numeral_le value hbase
  have hrange : 2 ≤ base ∧ base ≤ 36 := by omega
  have hitoa := @itoa_eq base value buffer hrange.1 hrange.2 (by omega)
  have hnonzero : ∀ byte ∈ numberText base value, byte ≠ 0 := by
    intro byte hbyte
    obtain ⟨digit, hdigit, rfl⟩ := List.mem_map.mp hbyte
    have hlt := (isNumeral_numeral hrange.1 value.toNat).digit_lt digit hdigit
    exact digitChar_ne_zero (by omega)
  refine ⟨numberText base value ++ 0 ::
    buffer.drop ((numeral base value.toNat).length + 1), ?_, ?_⟩
  · rw [List.length_append, List.length_cons, List.length_drop, numberText, List.length_map]
    omega
  · rw [kputsItoa, hitoa, ← numberText]
    simp only [Option.bind_eq_bind, Option.bind_some, readString_append _ hnonzero]
    cases kputs font tty (numberText base value) <;> rfl

/-- A conversion prints the text it stands for and leaves a buffer of the same size. -/
theorem convert_eq (c : Byte) (args : List Arg) (hbuffer : buffer.length = 21) :
    ∃ after, after.length = 21 ∧ convert font tty buffer c args =
      (conversion c args).bind fun result =>
        (kputs font tty result.1).map fun printed => ((printed, after), result.2) := by
  have hnumber : ∀ (base : ℕ) (value : BitVec 64) (rest : List Arg), base = 10 ∨ base = 16 →
      ∃ after, after.length = 21 ∧
        (kputsItoa font tty buffer value base).map (fun printed => (printed, rest)) =
          (kputs font tty (numberText base value)).map
            fun printed => ((printed, after), rest) := by
    intro base value rest hbase
    obtain ⟨after, hafter, hprinted⟩ := @kputsItoa_eq font tty buffer base value hbase hbuffer
    refine ⟨after, hafter, ?_⟩
    rw [hprinted, Option.map_map]
    rfl
  unfold convert conversion
  split_ifs with hs hc hd hx
  · refine ⟨buffer, hbuffer, ?_⟩
    cases args with
    | nil => rfl
    | cons arg args => cases arg <;> rfl
  · refine ⟨buffer, hbuffer, ?_⟩
    cases args with
    | nil => rfl
    | cons arg args =>
        cases arg with
        | string s => rfl
        | char c => simp only [Option.bind_some, kputs_singleton]
        | number value => rfl
  · cases args with
    | nil => exact ⟨buffer, hbuffer, rfl⟩
    | cons arg args =>
        cases arg with
        | string s => exact ⟨buffer, hbuffer, rfl⟩
        | char c => exact ⟨buffer, hbuffer, rfl⟩
        | number value => exact hnumber 10 value args (Or.inl rfl)
  · cases args with
    | nil => exact ⟨buffer, hbuffer, rfl⟩
    | cons arg args =>
        cases arg with
        | string s => exact ⟨buffer, hbuffer, rfl⟩
        | char c => exact ⟨buffer, hbuffer, rfl⟩
        | number value => exact hnumber 16 value args (Or.inr rfl)
  · exact ⟨buffer, hbuffer, rfl⟩

theorem kprintf_literal {c : Byte} (hliteral : c ≠ charByte '%') (format : List Byte)
    (args : List Arg) :
    kprintf font tty buffer (c :: format) args =
      followedBy (kputchar font tty c) fun tty => kprintf font tty buffer format args := by
  rw [kprintf.eq_def]
  exact if_pos hliteral

theorem kprintf_conversion (c : Byte) (format : List Byte) (args : List Arg) :
    kprintf font tty buffer (charByte '%' :: c :: format) args =
      (convert font tty buffer c args).bind fun result =>
        followedBy (some result.1.1) fun tty => kprintf font tty result.1.2 format result.2 := by
  rw [kprintf.eq_def]
  exact if_neg fun hne => hne rfl

/-- `kprintf` prints one text. -/
theorem kprintf_eq_kputs (format : List Byte) (args : List Arg) (hbuffer : buffer.length = 21) :
    kprintf font tty buffer format args = (expand format args).bind (kputs font tty) := by
  fun_induction expand format args generalizing tty buffer with
  | case1 => rfl
  | case2 c format args hliteral ih =>
      rw [kprintf_literal hliteral]
      simp only [ih hbuffer]
      cases expand format args with
      | none => cases kputchar font tty c <;> rfl
      | some text => rfl
  | case3 c args hpercent =>
      obtain rfl := not_ne_iff.mp hpercent
      rfl
  | case4 c args hpercent specifier format ih =>
      obtain rfl := not_ne_iff.mp hpercent
      obtain ⟨after, hafter, hconvert⟩ := @convert_eq font tty buffer specifier args hbuffer
      rw [kprintf_conversion, hconvert]
      cases conversion specifier args with
      | none => rfl
      | some result =>
          obtain ⟨text, left⟩ := result
          have hprint : ((kputs font tty text).map fun printed =>
              ((printed, after), left)).bind (fun result =>
                followedBy (some result.1.1) fun tty =>
                  kprintf font tty result.1.2 format result.2) =
              followedBy (kputs font tty text) fun tty =>
                (expand format left).bind (kputs font tty) := by
            simp only [← ih left hafter]
            cases kputs font tty text <;> rfl
          refine hprint.trans ?_
          simp only [Option.bind_eq_bind, Option.bind_some]
          cases expand format left with
          | none => cases kputs font tty text <;> rfl
          | some rest => exact (kputs_append text rest).symm

end Output

/-- Formatted output on a fresh console stays in the framebuffer exactly if the text it
prints does. -/
theorem kprintf_inside_iff {font : Font} {width height : ℕ} {buffer format text : List Byte}
    {args : List Arg} (hwidth : 9 ≤ width) (hheight : 17 ≤ height)
    (hbuffer : buffer.length = 21) (htext : expand format args = some text)
    (hprintable : ∀ c ∈ text, c = newline ∨ Printable c) :
    (∃ after glyphs,
      kprintf font (ttyInit width height) buffer format args = some (after, glyphs) ∧
        ∀ glyph ∈ glyphs, glyph.Inside width height) ↔
      ∀ cell ∈ cells 0 0 text,
        CellFits width height cell.1 (lineRow (height / 17) cell.2) := by
  rw [kprintf_eq_kputs format args hbuffer, htext, Option.bind_some]
  exact @staysInside_ttyAt_iff font width height 0 0 text hwidth hheight (Nat.zero_le _)
    hprintable

/-- `kprintf("%d is %x", 255, 255)` -/
example :
    expand ("%d is %x".toList.map charByte) [.number 255, .number 255] =
      some ("255 is ff".toList.map charByte) := by
  decide +kernel

end Flurry.Log
