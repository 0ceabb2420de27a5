import Flurry.Memory.Pmm

/-!
# Page tables of `paging.c` and `vmm.c`

Tables are reached through the higher-half window, missing tables are taken
from the frame allocator on the way down, and a changed entry is flushed from
the translation cache when its tables are the active ones.  `walk` is the
processor's side: the four-level translation it performs on physical memory.
-/

namespace Flurry.Paging

open ByteMemory PhysicalMemory

def vmFlagPresent : ℕ := 1 <<< 0
def vmFlagWrite : ℕ := 1 <<< 1
def vmFlagUser : ℕ := 1 <<< 2
def vmFlagNoCache : ℕ := 1 <<< 4
def vmFlagNx : ℕ := 1 <<< 63
def vmFlagDefault : ℕ := 0

/-- `PHYS_ADDR_MASK`, bits 12 to 51. -/
def physAddrMask : ℕ := 0x000FFFFFFFFFF000

/-- What a table walk yields for one page. -/
@[ext]
structure Translation where
  frame : ℕ
  writable : Bool
  user : Bool
  executable : Bool
  deriving DecidableEq, Repr

/-- The page of an address, bits 12 to 47: those a table walk reads. -/
def pageOf (virt : ℕ) : ℕ := virt / pageSize % 2 ^ 36

/-- The memory managers' state: frames, the root of the kernel's own tables,
the root the processor uses, and its cached translations by page. -/
structure Vmm where
  pmm : Pmm
  kernelPml4 : ℕ
  cr3 : ℕ
  tlb : ℕ → Option Translation

def isEntryPresent (entry : ℕ) : Bool := entry &&& vmFlagPresent ≠ 0

def pml4Index (virt : ℕ) : ℕ := (virt >>> 39) &&& 0x1ff
def pml3Index (virt : ℕ) : ℕ := (virt >>> 30) &&& 0x1ff
def pml2Index (virt : ℕ) : ℕ := (virt >>> 21) &&& 0x1ff
def pml1Index (virt : ℕ) : ℕ := (virt >>> 12) &&& 0x1ff

/-- `&((PMLEntry*) (pml + hhdm_offset))[index]`. -/
def entryPointer (vmm : Vmm) (pml index : ℕ) : ℕ :=
  wrap64 (pml + vmm.pmm.map.hhdmOffset) + 8 * index

def getNextPml (vmm : Vmm) (pml pmlIndex : ℕ) : Option (Vmm × ℕ) := do
  let entry := entryPointer vmm pml pmlIndex
  let value ← vmm.pmm.map.read64 entry
  if isEntryPresent value then
    return (vmm, value &&& physAddrMask)
  else
    let (pmm, frame) ← pmmAlloc vmm.pmm
    let value := frame ||| vmFlagPresent ||| vmFlagWrite ||| vmFlagUser
    let map ← pmm.map.write64 entry value
    return ({ vmm with pmm := { pmm with map := map } }, value &&& physAddrMask)

/-- The pointer to the leaf entry, after missing tables have been added. -/
def getPml1Entry (vmm : Vmm) (pml4 virt : ℕ) : Option (Vmm × ℕ) := do
  let (vmm, pml3) ← getNextPml vmm pml4 (pml4Index virt)
  let (vmm, pml2) ← getNextPml vmm pml3 (pml3Index virt)
  let (vmm, pml1) ← getNextPml vmm pml2 (pml2Index virt)
  return (vmm, entryPointer vmm pml1 (pml1Index virt))

def invlpg (vmm : Vmm) (virt : ℕ) : Vmm :=
  { vmm with tlb := Function.update vmm.tlb (pageOf virt) none }

def invlpgIfNeeded (vmm : Vmm) (pml4 virt : ℕ) : Vmm :=
  if pml4 = vmm.cr3 then invlpg vmm virt else vmm

/-- Writing CR3 empties the translation cache. -/
def pagingLoadPml4 (vmm : Vmm) (pml4 : ℕ) : Vmm :=
  { vmm with cr3 := pml4, tlb := fun _ => none }

/-- Store a leaf entry and flush it. -/
def writeLeaf (vmm : Vmm) (pml4 virt value : ℕ) : Option Vmm := do
  let (vmm, entry) ← getPml1Entry vmm pml4 virt
  let map ← vmm.pmm.map.write64 entry value
  return invlpgIfNeeded { vmm with pmm := { vmm.pmm with map := map } } pml4 virt

/-- The parameter `flags` is a `uint16_t`. -/
def pagingMapPage (vmm : Vmm) (pml4 virt phys flags : ℕ) : Option Vmm :=
  writeLeaf vmm pml4 virt (phys ||| vmFlagPresent ||| flags % 2 ^ 16)

def pagingUnmapPage (vmm : Vmm) (pml4 virt : ℕ) : Option Vmm :=
  writeLeaf vmm pml4 virt 0

def vmmLoadPml4 (vmm : Vmm) (pml4 : ℕ) : Vmm :=
  pagingLoadPml4 vmm pml4

/-- The 64-bit flags are narrowed by the call of `paging_map_page`. -/
def vmmMap (vmm : Vmm) (pml4 virt phys flags : ℕ) : Option Vmm :=
  pagingMapPage vmm pml4 virt phys flags

def vmmUnmap (vmm : Vmm) (pml4 virt : ℕ) : Option Vmm :=
  pagingUnmapPage vmm pml4 virt

def vmmKmap (vmm : Vmm) (virt phys flags : ℕ) : Option Vmm :=
  pagingMapPage vmm vmm.kernelPml4 virt phys flags

def vmmKunmap (vmm : Vmm) (virt : ℕ) : Option Vmm :=
  pagingUnmapPage vmm vmm.kernelPml4 virt

/-! ## The hardware walk -/

/-- Bit 7 of a PML3 or PML2 entry makes it a large page. -/
def isLargePage (entry : ℕ) : Bool := entry.testBit 7

/-- The permissions of a page are those of all entries on the way together. -/
def translationOf (frame : ℕ) (entries : List ℕ) : Translation where
  frame := frame
  writable := entries.all fun entry => entry.testBit 1
  user := entries.all fun entry => entry.testBit 2
  executable := entries.all fun entry => !entry.testBit 63

/-- The page of a large page of `2 ^ shift` bytes that contains `virt`. -/
def largeFrame (entry virt shift : ℕ) : ℕ :=
  (entry &&& physAddrMask) / 2 ^ shift * 2 ^ shift +
    virt % 2 ^ shift / pageSize * pageSize

def tableEntry (physical : Memory) (table index : ℕ) : ℕ :=
  load64 physical (table + 8 * index)

/-- The translation of `virt` by the tables under `root`, `none` where some
entry is not present. -/
def walk (physical : Memory) (root virt : ℕ) : Option Translation :=
  let entry4 := tableEntry physical root (pml4Index virt)
  if !entry4.testBit 0 then none
  else
    let entry3 := tableEntry physical (entry4 &&& physAddrMask) (pml3Index virt)
    if !entry3.testBit 0 then none
    else if isLargePage entry3 then
      some (translationOf (largeFrame entry3 virt 30) [entry4, entry3])
    else
      let entry2 := tableEntry physical (entry3 &&& physAddrMask) (pml2Index virt)
      if !entry2.testBit 0 then none
      else if isLargePage entry2 then
        some (translationOf (largeFrame entry2 virt 21) [entry4, entry3, entry2])
      else
        let entry1 := tableEntry physical (entry2 &&& physAddrMask) (pml1Index virt)
        if !entry1.testBit 0 then none
        else
          some (translationOf (entry1 &&& physAddrMask)
            [entry4, entry3, entry2, entry1])

end Flurry.Paging
