import Mathlib

/-!
# Byte-addressed memory with little-endian words

A memory gives every address a byte.  Words of any width are read and written
least significant byte first.  The lemmas say what a write does to a read at
the same place, to a read elsewhere, and to single bytes; no proof outside this
module looks at the bytes of a word.
-/

namespace Flurry.ByteMemory

abbrev Byte := Fin 256

instance byteCount_neZero : NeZero 256 := ⟨by decide⟩

abbrev Memory := ℕ → Byte

/-- The low eight bits of a number. -/
def lowByte (value : ℕ) : Byte :=
  ⟨value % 256, Nat.mod_lt value (by omega)⟩

/-- Read a word of `width` bytes. -/
def load (memory : Memory) : ℕ → ℕ → ℕ
  | 0, _ => 0
  | width + 1, address =>
      (memory address).val + 256 * load memory width (address + 1)

/-- Write a word of `width` bytes. -/
def store (memory : Memory) (width address value : ℕ) : Memory :=
  fun target =>
    if address ≤ target ∧ target < address + width then
      lowByte (value / 256 ^ (target - address))
    else memory target

/-- Set a range of bytes. -/
def fill (memory : Memory) (address length : ℕ) (byte : Byte) : Memory :=
  fun target =>
    if address ≤ target ∧ target < address + length then byte
    else memory target

theorem load_lt (memory : Memory) (width address : ℕ) :
    load memory width address < 256 ^ width := by
  induction width generalizing address with
  | zero => simp [load]
  | succ width ih =>
      have hbyte := (memory address).isLt
      have hrest := ih (address + 1)
      rw [load, pow_succ]
      omega

/-- A read depends on the bytes it covers only. -/
theorem load_congr {memory memory' : Memory} {width address : ℕ}
    (hagree : ∀ target, address ≤ target → target < address + width →
      memory' target = memory target) :
    load memory' width address = load memory width address := by
  induction width generalizing address with
  | zero => rfl
  | succ width ih =>
      have hrest : load memory' width (address + 1) =
          load memory width (address + 1) := by
        apply ih
        intro target hlower hupper
        exact hagree target (by omega) (by omega)
      rw [load, load, hrest, hagree address (by omega) (by omega)]

theorem store_of_not_mem {memory : Memory} {width address value target : ℕ}
    (houtside : target < address ∨ address + width ≤ target) :
    store memory width address value target = memory target := by
  rw [store, if_neg (by omega)]

theorem store_zero (memory : Memory) (address value : ℕ) :
    store memory 0 address value = memory := by
  funext target
  exact store_of_not_mem (by omega)

/-- The lowest byte first. -/
theorem store_succ (memory : Memory) (width address value : ℕ) :
    store memory (width + 1) address value =
      store (Function.update memory address (lowByte value)) width (address + 1)
        (value / 256) := by
  funext target
  by_cases hfirst : target = address
  · subst hfirst
    rw [store_of_not_mem (Or.inl (Nat.lt_succ_self target)), Function.update_self, store,
      if_pos (by omega), Nat.sub_self, pow_zero, Nat.div_one]
  · simp only [store, Function.update_of_ne hfirst, Nat.div_div_eq_div_mul, ← pow_succ']
    by_cases hinside : address + 1 ≤ target ∧ target < address + 1 + width
    · rw [if_pos hinside, if_pos (by omega),
        show target - (address + 1) + 1 = target - address by omega]
    · rw [if_neg hinside, if_neg (by omega)]

theorem fill_of_not_mem {memory : Memory} {address length target : ℕ}
    {byte : Byte} (houtside : target < address ∨ address + length ≤ target) :
    fill memory address length byte target = memory target := by
  rw [fill, if_neg (by omega)]

theorem fill_of_mem {memory : Memory} {address length target : ℕ}
    {byte : Byte} (hlower : address ≤ target) (hupper : target < address + length) :
    fill memory address length byte target = byte := by
  rw [fill, if_pos ⟨hlower, hupper⟩]

theorem load_store_of_disjoint {memory : Memory}
    {width width' address address' value : ℕ}
    (hdisjoint : address' + width' ≤ address ∨ address + width ≤ address') :
    load (store memory width address value) width' address' =
      load memory width' address' := by
  apply load_congr
  intro target hlower hupper
  apply store_of_not_mem
  omega

theorem load_fill_of_disjoint {memory : Memory}
    {length width address address' : ℕ} {byte : Byte}
    (hdisjoint : address' + width ≤ address ∨ address + length ≤ address') :
    load (fill memory address length byte) width address' =
      load memory width address' := by
  apply load_congr
  intro target hlower hupper
  apply fill_of_not_mem
  omega

/-- The bytes from `offset` on of a stored word. -/
private theorem load_store_suffix (memory : Memory)
    (width address value offset count : ℕ) (hcount : offset + count = width) :
    load (store memory width address value) count (address + offset) =
      value / 256 ^ offset % 256 ^ count := by
  induction count generalizing offset with
  | zero => simp [load, Nat.mod_one]
  | succ count ih =>
      have hbyte : (store memory width address value (address + offset)).val =
          value / 256 ^ offset % 256 := by
        rw [store, if_pos (by omega), Nat.add_sub_cancel_left, lowByte]
      have hrest : load (store memory width address value) count
          (address + offset + 1) = value / 256 ^ offset / 256 % 256 ^ count := by
        rw [Nat.div_div_eq_div_mul, ← pow_succ]
        exact ih (offset + 1) (by omega)
      rw [load, hbyte, hrest, pow_succ', Nat.mod_mul]

theorem load_store_same {memory : Memory} {width address value : ℕ}
    (hvalue : value < 256 ^ width) :
    load (store memory width address value) width address = value := by
  have hsuffix := load_store_suffix memory width address value 0 width (by omega)
  simpa [Nat.mod_eq_of_lt hvalue] using hsuffix

theorem load_fill_zero (memory : Memory) {address length width address' : ℕ}
    (hlower : address ≤ address')
    (hupper : address' + width ≤ address + length) :
    load (fill memory address length 0) width address' = 0 := by
  induction width generalizing address' with
  | zero => rfl
  | succ width ih =>
      rw [load, ih (by omega) (by omega), fill_of_mem hlower (by omega)]
      rfl

/-! ## Writes inside a range -/

/-- The memories differ from `low` up to `high` only. -/
def AgreeOutside (low high : ℕ) (memory memory' : Memory) : Prop :=
  ∀ target, target < low ∨ high ≤ target → memory' target = memory target

section AgreeOutside

variable {memory memory' : Memory} {low high width address value : ℕ}

theorem AgreeOutside.refl (memory : Memory) : AgreeOutside low high memory memory :=
  fun _ _ => rfl

theorem AgreeOutside.store (hagree : AgreeOutside low high memory memory')
    (hlower : low ≤ address) (hupper : address + width ≤ high) :
    AgreeOutside low high memory (store memory' width address value) := by
  intro target htarget
  rw [store_of_not_mem (by omega)]
  exact hagree target htarget

theorem AgreeOutside.trans {memory'' : Memory}
    (hfirst : AgreeOutside low high memory memory')
    (hsecond : AgreeOutside low high memory' memory'') :
    AgreeOutside low high memory memory'' :=
  fun target htarget => (hsecond target htarget).trans (hfirst target htarget)

theorem AgreeOutside.mono {low' high' : ℕ} (hagree : AgreeOutside low high memory memory')
    (hlow : low' ≤ low) (hhigh : high ≤ high') :
    AgreeOutside low' high' memory memory' :=
  fun target htarget => hagree target (by omega)

end AgreeOutside

/-- A field of a structure: its width, its offset and the value written to it. -/
structure Field where
  width : ℕ
  offset : ℕ
  value : ℕ

/-- Writes to the fields of a structure, one after another. -/
def storeFields (memory : Memory) (base : ℕ) (fields : List Field) : Memory :=
  fields.foldl (fun memory field =>
    store memory field.width (base + field.offset) field.value) memory

theorem agreeOutside_storeFields {base size : ℕ} {fields : List Field} (memory : Memory)
    (hfields : ∀ field ∈ fields, field.offset + field.width ≤ size) :
    AgreeOutside base (base + size) memory (storeFields memory base fields) := by
  induction fields generalizing memory with
  | nil => exact AgreeOutside.refl memory
  | cons field fields ih =>
      have hfirst := hfields field List.mem_cons_self
      have hrest := ih (store memory field.width (base + field.offset) field.value)
        fun other hother => hfields other (List.mem_cons_of_mem field hother)
      exact ((AgreeOutside.refl memory).store (by omega) (by omega)).trans hrest

/-- The fields do not share a byte. -/
def Field.Apart (field other : Field) : Prop :=
  field.offset + field.width ≤ other.offset ∨ other.offset + other.width ≤ field.offset

instance (field other : Field) : Decidable (field.Apart other) :=
  inferInstanceAs (Decidable (_ ∨ _))

theorem load_storeFields_of_apart {base : ℕ} {fields : List Field} {field : Field}
    (memory : Memory) (hapart : ∀ other ∈ fields, field.Apart other) :
    load (storeFields memory base fields) field.width (base + field.offset) =
      load memory field.width (base + field.offset) := by
  induction fields generalizing memory with
  | nil => rfl
  | cons other fields ih =>
      obtain ⟨hfirst, hrest⟩ := List.forall_mem_cons.mp hapart
      rw [storeFields, List.foldl_cons, ← storeFields, ih _ hrest]
      apply load_store_of_disjoint
      rcases hfirst with hbefore | hafter
      · exact Or.inl (by omega)
      · exact Or.inr (by omega)

/-- Every field of a structure can be read back. -/
theorem load_storeFields {base : ℕ} {fields : List Field} {field : Field} (memory : Memory)
    (hapart : fields.Pairwise Field.Apart) (hmem : field ∈ fields)
    (hvalue : field.value < 256 ^ field.width) :
    load (storeFields memory base fields) field.width (base + field.offset) =
      field.value := by
  induction fields generalizing memory with
  | nil => exact absurd hmem List.not_mem_nil
  | cons other fields ih =>
      obtain ⟨hfirst, hrest⟩ := List.pairwise_cons.mp hapart
      rw [storeFields, List.foldl_cons, ← storeFields]
      rcases List.mem_cons.mp hmem with rfl | hmem
      · rw [load_storeFields_of_apart _ hfirst, load_store_same hvalue]
      · exact ih _ hrest hmem

/-! ## Eight-byte words -/

/-- Arithmetic on 64-bit unsigned integers. -/
def wrap64 (value : ℕ) : ℕ := value % 2 ^ 64

/-- Subtraction on 64-bit unsigned integers. -/
def sub64 (value amount : ℕ) : ℕ := wrap64 (value + (2 ^ 64 - amount % 2 ^ 64))

/-- All bits of a 64-bit word flipped. -/
def complement64 (value : ℕ) : ℕ := 2 ^ 64 - 1 - value % 2 ^ 64

theorem wrap64_of_lt {value : ℕ} (hvalue : value < 2 ^ 64) :
    wrap64 value = value :=
  Nat.mod_eq_of_lt hvalue

theorem sub64_of_le {value amount : ℕ} (hvalue : value < 2 ^ 64)
    (hamount : amount ≤ value) : sub64 value amount = value - amount := by
  unfold sub64 wrap64
  omega

/-- A difference that would be negative is close to the largest word. -/
theorem sub64_of_lt {value amount : ℕ} (hvalue : value < amount)
    (hamount : amount < 2 ^ 64) : sub64 value amount = 2 ^ 64 - (amount - value) := by
  unfold sub64 wrap64
  omega

def load64 (memory : Memory) (address : ℕ) : ℕ := load memory 8 address

def store64 (memory : Memory) (address value : ℕ) : Memory :=
  store memory 8 address value

theorem load64_lt (memory : Memory) (address : ℕ) :
    load64 memory address < 2 ^ 64 :=
  load_lt memory 8 address

theorem load64_store64_same {memory : Memory} {address value : ℕ}
    (hvalue : value < 2 ^ 64) :
    load64 (store64 memory address value) address = value :=
  load_store_same hvalue

theorem load64_store64_of_disjoint {memory : Memory}
    {address address' value : ℕ}
    (hdisjoint : address' + 8 ≤ address ∨ address + 8 ≤ address') :
    load64 (store64 memory address value) address' = load64 memory address' :=
  load_store_of_disjoint hdisjoint

theorem store64_of_not_mem {memory : Memory} {address value target : ℕ}
    (houtside : target < address ∨ address + 8 ≤ target) :
    store64 memory address value target = memory target :=
  store_of_not_mem houtside

theorem load64_congr {memory memory' : Memory} {address : ℕ}
    (hagree : ∀ target, address ≤ target → target < address + 8 →
      memory' target = memory target) :
    load64 memory' address = load64 memory address :=
  load_congr hagree

end Flurry.ByteMemory
