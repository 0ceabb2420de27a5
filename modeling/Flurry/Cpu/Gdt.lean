import Flurry.Core.BitSlice
import Mathlib.Data.Fin.VecNotation

/-!
# Segment descriptors

`gdt.c` packs limit, base, access byte and flags of a segment into one word.  The
processor reads them back from fixed bits of the descriptor.  The descriptor of the
task state segment takes two words, the second one with the upper half of its base.
-/

namespace Flurry.Gdt

open BitSlice

def gdtEncodeEntry (limit base access flags : BitVec 64) : BitVec 64 :=
  (limit &&& 0xffff#64) ||| ((base &&& 0xffff#64) <<< 16) |||
    ((base &&& 0xff0000#64) <<< 32) ||| ((access &&& 0xff#64) <<< 40) |||
    (((limit &&& 0xf0000#64) >>> 16) <<< 48) ||| ((flags &&& 0xf#64) <<< 52) |||
    (((base &&& 0xff000000#64) >>> 24) <<< 56)

def sizeofTss : BitVec 64 := 104

/-- The table that `gdt_init` fills in, with the address of the static `tss`. -/
def gdtInit (tss : BitVec 64) : Fin 7 → BitVec 64 :=
  ![0,
    gdtEncodeEntry 0xfffff 0 0x9a 0xa,
    gdtEncodeEntry 0xfffff 0 0x92 0xc,
    gdtEncodeEntry 0xfffff 0 0xfa 0xa,
    gdtEncodeEntry 0xfffff 0 0xf2 0xc,
    gdtEncodeEntry sizeofTss (tss &&& 0xffffffff#64) 0x89 0x40,
    (tss >>> 32) &&& 0xffffffff#64]

/-! ## The processor's side -/

/-- What a descriptor says. -/
@[ext]
structure Segment where
  limit : BitVec 20
  base : BitVec 32
  access : BitVec 8
  flags : BitVec 4
  deriving DecidableEq, Repr

def decode (entry : BitVec 64) : Segment where
  limit := entry.extractLsb' 48 4 ++ entry.extractLsb' 0 16
  base := entry.extractLsb' 56 8 ++ entry.extractLsb' 16 24
  access := entry.extractLsb' 40 8
  flags := entry.extractLsb' 52 4

/-- The base of a descriptor of two words. -/
def systemBase (low high : BitVec 64) : BitVec 64 :=
  high.extractLsb' 0 32 ++ (decode low).base

/-! ## Fields -/

section Fields

variable (limit base access flags : BitVec 64)

/-- Bits 16 to 23 of the base are moved to bits 48 to 55, where the upper limit and
the flags belong. -/
theorem gdtEncodeEntry_eq :
    gdtEncodeEntry limit base access flags =
      place limit 0 16 0 ||| place base 0 16 16 ||| place base 16 8 48 |||
        place access 0 8 40 ||| place limit 16 4 48 ||| place flags 0 4 52 |||
        place base 24 8 56 := by
  have hword : 0xffff#64 = sliceMask 64 0 16 := by decide
  have hmiddle : 0xff0000#64 = sliceMask 64 16 8 := by decide
  have hbyte : 0xff#64 = sliceMask 64 0 8 := by decide
  have hupper : 0xf0000#64 = sliceMask 64 16 4 := by decide
  have hnibble : 0xf#64 = sliceMask 64 0 4 := by decide
  have htop : 0xff000000#64 = sliceMask 64 24 8 := by decide
  rw [gdtEncodeEntry, hword, hmiddle, hbyte, hupper, hnibble, htop, ← place, ← place,
    and_eq_place, and_eq_place, and_eq_place, and_eq_place, and_eq_place, place_shiftLeft,
    place_shiftLeft, place_shiftLeft, place_shiftLeft]

theorem base_eq_iff :
    base.extractLsb' 24 8 ++ (0#8 ++ base.extractLsb' 0 16) = base.setWidth 32 ↔
      base.extractLsb' 16 8 = 0#8 := by
  rw [BitVec.setWidth_eq_extractLsb' (by omega), extract_eq_append 24 8,
    extract_eq_append 16 8, BitVec.append_right_inj, BitVec.append_left_inj, eq_comm]

theorem decode_gdtEncodeEntry :
    decode (gdtEncodeEntry limit base access flags) =
      { limit := (base.extractLsb' 16 4 ||| limit.extractLsb' 16 4) ++ limit.extractLsb' 0 16
        base := base.extractLsb' 24 8 ++ (0#8 ++ base.extractLsb' 0 16)
        access := access.extractLsb' 0 8
        flags := base.extractLsb' 20 4 ||| flags.extractLsb' 0 4 } := by
  rw [gdtEncodeEntry_eq, decode, extract_eq_append 16 8]
  simp (disch := omega) only [BitVec.extractLsb'_or, extract_place, extract_place_apart,
    BitVec.or_zero, BitVec.zero_or]

/-- The limit and the flags survive where the misplaced bits of the base are zero, and
the base itself does only there. -/
theorem decode_gdtEncodeEntry_iff :
    decode (gdtEncodeEntry limit base access flags) =
        ⟨limit.setWidth 20, base.setWidth 32, access.setWidth 8, flags.setWidth 4⟩ ↔
      base.extractLsb' 16 8 = 0#8 := by
  rw [decode_gdtEncodeEntry, ← base_eq_iff]
  constructor
  · intro hdecode
    exact congrArg Segment.base hdecode
  · intro hbase
    have hzero : base.extractLsb' 16 8 = 0#8 := (base_eq_iff base).mp hbase
    have hlow : base.extractLsb' 16 4 = 0#4 :=
      extract_eq_zero_of_le hzero (by omega) (by omega)
    have hhigh : base.extractLsb' 20 4 = 0#4 :=
      extract_eq_zero_of_le hzero (by omega) (by omega)
    rw [hbase, hlow, hhigh, BitVec.zero_or, BitVec.zero_or, ← extract_eq_append 16 4]
    rfl

end Fields

/-- The upper half of the address is in the second word. -/
theorem systemBase_gdtInit (tss : BitVec 64) :
    systemBase (gdtInit tss 5) (gdtInit tss 6) =
      tss.extractLsb' 32 32 ++
        (tss.extractLsb' 24 8 ++ (0#8 ++ tss.extractLsb' 0 16)) := by
  have hmask : 0xffffffff#64 = sliceMask 64 0 32 := by decide
  have hlow : gdtInit tss 5 = gdtEncodeEntry sizeofTss (place tss 0 32 0) 0x89 0x40 := by
    rw [← and_eq_place, ← hmask]
    rfl
  have hhigh : gdtInit tss 6 = place (tss >>> 32) 0 32 0 := by
    rw [← and_eq_place, ← hmask]
    rfl
  have hupper : (tss >>> 32).extractLsb' 0 32 = tss.extractLsb' 32 32 := by
    apply BitVec.eq_of_getLsbD_eq
    intro bit hbit
    simp [hbit]
  rw [systemBase, hlow, hhigh, decode_gdtEncodeEntry]
  simp (disch := omega) only [extract_place, hupper]

/-- A descriptor decodes to what was encoded exactly if bits 16 to 23 of the base are
zero, and so the descriptor of the task state segment has its address only then. -/
theorem descriptor_decodes_iff (limit base access flags tss : BitVec 64) :
    (decode (gdtEncodeEntry limit base access flags) =
        ⟨limit.setWidth 20, base.setWidth 32, access.setWidth 8, flags.setWidth 4⟩ ↔
      base.extractLsb' 16 8 = 0#8) ∧
    (systemBase (gdtInit tss 5) (gdtInit tss 6) = tss ↔ tss.extractLsb' 16 8 = 0#8) := by
  refine ⟨decode_gdtEncodeEntry_iff limit base access flags, ?_⟩
  have htss : tss = tss.extractLsb' 32 32 ++ tss.setWidth 32 := by
    rw [BitVec.setWidth_eq_extractLsb' (by omega)]
    exact (@BitVec.extractLsb'_append_extractLsb' 32 32 tss).symm
  rw [systemBase_gdtInit, ← base_eq_iff]
  nth_rewrite 4 [htss]
  rw [BitVec.append_right_inj]

/-- A base of 64 KiB becomes part of the limit, and a task state segment at
`0xffffffff80010000` is looked for at `0xffffffff80000000`. -/
theorem descriptor_base_lost :
    decode (gdtEncodeEntry 0 0x10000 0 0) = ⟨0x10000, 0, 0, 0⟩ ∧
      systemBase (gdtInit 0xffffffff80010000 5) (gdtInit 0xffffffff80010000 6) =
        0xffffffff80000000 := by
  decide

end Flurry.Gdt
