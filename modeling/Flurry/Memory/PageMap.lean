import Flurry.Memory.TableWalk

/-!
# Page tables as a map from pages to frames

What the callers of `vmm_map` and `vmm_unmap` think of: for every root, a
partial map from virtual pages to frames with their permissions.  The tables in
physical memory refine it along every sequence of calls.
-/

namespace Flurry.Paging

open ByteMemory PhysicalMemory BitField

/-- Bits 47 to 63 are equal. -/
def Canonical (virt : ℕ) : Prop :=
  virt < 2 ^ 47 ∨ (2 ^ 64 - 2 ^ 47 ≤ virt ∧ virt < 2 ^ 64)

instance (virt : ℕ) : Decidable (Canonical virt) :=
  inferInstanceAs (Decidable (_ ∨ _))

/-- All flags of `paging.h` together. -/
def vmFlagsAll : ℕ :=
  vmFlagPresent ||| vmFlagWrite ||| vmFlagUser ||| vmFlagNoCache ||| vmFlagNx

/-- The flags are a combination of the `VM_FLAG_*` constants. -/
def BuiltFromVmFlags (flags : ℕ) : Prop := flags ||| vmFlagsAll = vmFlagsAll

instance (flags : ℕ) : Decidable (BuiltFromVmFlags flags) :=
  inferInstanceAs (Decidable (_ = _))

/-- A page's frame and the permissions asked for it. -/
@[ext]
structure PageMapping where
  frame : ℕ
  writable : Bool
  user : Bool
  deriving DecidableEq, Repr

def PageMapping.requested (phys flags : ℕ) : PageMapping where
  frame := phys
  writable := flags &&& vmFlagWrite ≠ 0
  user := flags &&& vmFlagUser ≠ 0

def Translation.mapping (translation : Translation) : PageMapping where
  frame := translation.frame
  writable := translation.writable
  user := translation.user

/-- For every root, the mapping of each virtual page. -/
abbrev AddressSpaces := ℕ → ℕ → Option PageMapping

def AddressSpaces.empty : AddressSpaces := fun _ _ => none

def AddressSpaces.set (spaces : AddressSpaces) (root virt : ℕ)
    (mapping : Option PageMapping) : AddressSpaces :=
  fun root' page =>
    if root' = root ∧ page = virt / pageSize then mapping else spaces root' page

/-! ## Calls -/

/-- The memory managers and the roots that were allocated. -/
structure PagingState where
  vmm : Vmm
  roots : List ℕ

/-- `alloc` takes a frame for other purposes, `newPml4` takes one as a root, as
`vmm_init` does for the kernel's. -/
inductive PagingCall where
  | alloc
  | newPml4 (kernel : Bool)
  | map (pml4 virt phys flags : ℕ)
  | unmap (pml4 virt : ℕ)
  | kmap (virt phys flags : ℕ)
  | kunmap (virt : ℕ)
  deriving DecidableEq

namespace PagingCall

def run (state : PagingState) : PagingCall → Option PagingState
  | alloc => do
      let (pmm, _) ← pmmAlloc state.vmm.pmm
      return { state with vmm := { state.vmm with pmm := pmm } }
  | newPml4 kernel => do
      let (pmm, pml4) ← pmmAlloc state.vmm.pmm
      let kernelPml4 := if kernel then pml4 else state.vmm.kernelPml4
      return { vmm := { state.vmm with pmm := pmm, kernelPml4 := kernelPml4 }
               roots := pml4 :: state.roots }
  | map pml4 virt phys flags => do
      return { state with vmm := ← vmmMap state.vmm pml4 virt phys flags }
  | unmap pml4 virt => do
      return { state with vmm := ← vmmUnmap state.vmm pml4 virt }
  | kmap virt phys flags => do
      return { state with vmm := ← vmmKmap state.vmm virt phys flags }
  | kunmap virt => do
      return { state with vmm := ← vmmKunmap state.vmm virt }

/-- What the call means for the address spaces. -/
def apply (state : PagingState) (spaces : AddressSpaces) :
    PagingCall → AddressSpaces
  | alloc => spaces
  | newPml4 _ => spaces
  | map pml4 virt phys flags =>
      spaces.set pml4 virt (some (.requested phys flags))
  | unmap pml4 virt => spaces.set pml4 virt none
  | kmap virt phys flags =>
      spaces.set state.vmm.kernelPml4 virt (some (.requested phys flags))
  | kunmap virt => spaces.set state.vmm.kernelPml4 virt none

/-- The root was allocated, the address is canonical and frames last. -/
def TargetOk (state : PagingState) (pml4 virt : ℕ) : Prop :=
  pml4 ∈ state.roots ∧ Canonical virt ∧ PathAllocates state.vmm pml4 virt

/-- The physical address and the flags are well formed. -/
def MappingOk (phys flags : ℕ) : Prop :=
  phys % pageSize = 0 ∧ phys < 2 ^ 52 ∧ BuiltFromVmFlags flags

def Allowed (state : PagingState) : PagingCall → Prop
  | alloc => Allocates state.vmm.pmm
  | newPml4 _ => Allocates state.vmm.pmm
  | map pml4 virt phys flags => TargetOk state pml4 virt ∧ MappingOk phys flags
  | unmap pml4 virt => TargetOk state pml4 virt
  | kmap virt phys flags =>
      TargetOk state state.vmm.kernelPml4 virt ∧ MappingOk phys flags
  | kunmap virt => TargetOk state state.vmm.kernelPml4 virt

end PagingCall

/-- Run the calls on the tables and on the address spaces alike. -/
def runPagingCalls : PagingState → AddressSpaces → List PagingCall →
    Option (PagingState × AddressSpaces)
  | state, spaces, [] => some (state, spaces)
  | state, spaces, call :: calls => do
      let next ← call.run state
      runPagingCalls next (call.apply state spaces) calls

def PagingCallsAllowed : PagingState → List PagingCall → Prop
  | _, [] => True
  | state, call :: calls =>
      call.Allowed state ∧
        ∀ next, call.run state = some next → PagingCallsAllowed next calls

/-! ## Pages and leaf entries -/

/-- The four indices of an address are digits of its page. -/
theorem leafPath_eq_digits (virt : ℕ) :
    leafPath virt = [pageOf virt % 512, pageOf virt / 2 ^ 9 % 512,
      pageOf virt / 2 ^ 18 % 512, pageOf virt / 2 ^ 27 % 512] := by
  have hindex : ∀ shift, (virt >>> (12 + shift)) &&& 0x1ff =
      virt / 4096 / 2 ^ shift % 512 := by
    intro shift
    rw [Nat.shiftRight_add, Nat.shiftRight_eq_div_pow, Nat.shiftRight_eq_div_pow]
    exact Nat.and_two_pow_sub_one_eq_mod _ 9
  have h1 : pml1Index virt = virt / 4096 / 2 ^ 0 % 512 := hindex 0
  have h2 : pml2Index virt = virt / 4096 / 2 ^ 9 % 512 := hindex 9
  have h3 : pml3Index virt = virt / 4096 / 2 ^ 18 % 512 := hindex 18
  have h4 : pml4Index virt = virt / 4096 / 2 ^ 27 % 512 := hindex 27
  simp only [leafPath, h1, h2, h3, h4, pageOf, pageSize, List.cons.injEq, and_true]
  generalize virt / 4096 = page
  omega

theorem leafPath_eq_iff_pageOf {virt virt' : ℕ} :
    leafPath virt = leafPath virt' ↔ pageOf virt = pageOf virt' := by
  have hvirt : pageOf virt < 2 ^ 36 := Nat.mod_lt _ (by decide)
  have hvirt' : pageOf virt' < 2 ^ 36 := Nat.mod_lt _ (by decide)
  simp only [leafPath_eq_digits, List.cons.injEq, and_true]
  constructor
  · intro hdigits
    omega
  · intro hpage
    simp [hpage]

/-- Different canonical pages have different leaf entries. -/
theorem leafPath_eq_iff {virt virt' : ℕ} (hvirt : Canonical virt)
    (hvirt' : Canonical virt') :
    leafPath virt = leafPath virt' ↔ virt / pageSize = virt' / pageSize := by
  -- the upper bits of a canonical page repeat the highest of the 36 others
  have hbound : ∀ {value}, Canonical value →
      value / 4096 < 2 ^ 35 ∨
        (2 ^ 52 - 2 ^ 35 ≤ value / 4096 ∧ value / 4096 < 2 ^ 52) := by
    intro value hvalue
    unfold Canonical at hvalue
    omega
  have hvirt := hbound hvirt
  have hvirt' := hbound hvirt'
  rw [leafPath_eq_iff_pageOf]
  unfold pageOf pageSize
  omega

/-- The entry `paging_map_page` stores. -/
def mapEntry (phys flags : ℕ) : ℕ := phys ||| vmFlagPresent ||| flags % 2 ^ 16

section MapEntry

variable {phys flags : ℕ}

theorem mapEntry_eq (phys flags : ℕ) :
    mapEntry phys flags = phys ||| (1 ||| flags % 2 ^ 16) :=
  Nat.or_assoc phys 1 (flags % 2 ^ 16)

theorem mapEntry_lt_word (flags : ℕ) (hphys : phys < 2 ^ 64) :
    mapEntry phys flags < 2 ^ 64 := by
  have hflags := Nat.mod_lt flags (show 2 ^ 16 > 0 by omega)
  rw [mapEntry_eq]
  exact Nat.or_lt_two_pow hphys (Nat.or_lt_two_pow (by omega) (by omega))

theorem mapEntry_lt (hphys : phys < 2 ^ 52) : mapEntry phys flags < 2 ^ 64 :=
  mapEntry_lt_word flags (hphys.trans (by decide))

theorem testBit_mapEntry (haligned : phys % pageSize = 0) {bit : ℕ}
    (hbit : bit < 12) :
    (mapEntry phys flags).testBit bit = (decide (bit = 0) || flags.testBit bit) := by
  have hone : Nat.testBit 1 bit = decide (bit = 0) := by
    rw [show 1 = 2 ^ 0 by rfl, Nat.testBit_two_pow]
    simp [eq_comm]
  rw [mapEntry_eq, testBit_phys_or haligned hbit, Nat.testBit_or,
    Nat.testBit_mod_two_pow, hone, decide_eq_true (show bit < 16 by omega),
    Bool.true_and]

/-- No flag that survives the narrowing reaches into the address. -/
theorem testBit_flags (hflags : BuiltFromVmFlags flags) {bit : ℕ}
    (hlow : 12 ≤ bit) : (1 ||| flags % 2 ^ 16).testBit bit = false := by
  have hone : Nat.testBit 1 bit = false :=
    testBit_of_lt (show 1 < 2 ^ 1 by omega) (by omega)
  rw [Nat.testBit_or, Nat.testBit_mod_two_pow, hone, Bool.false_or]
  by_cases hhigh : bit < 16
  · have hall : vmFlagsAll.testBit bit = false := by
      interval_cases bit <;> decide
    have hor := congrArg (fun value => value.testBit bit) hflags
    simp only [Nat.testBit_or, hall, Bool.or_false] at hor
    rw [hor, Bool.and_false]
  · rw [decide_eq_false hhigh, Bool.false_and]

/-- A mapped page is found with the permissions that were asked for. -/
theorem leafTranslation_mapEntry (hmapping : PagingCall.MappingOk phys flags) :
    (leafTranslation (mapEntry phys flags)).map Translation.mapping =
      some (.requested phys flags) := by
  obtain ⟨haligned, hphys, hflags⟩ := hmapping
  have hmask : mapEntry phys flags &&& physAddrMask = phys := by
    rw [mapEntry_eq]
    exact or_and_physAddrMask haligned hphys fun bit hlow _ =>
      testBit_flags hflags hlow
  have hpresent : (mapEntry phys flags).testBit 0 = true := by
    rw [testBit_mapEntry haligned (by omega)]
    rfl
  have hwrite : (mapEntry phys flags).testBit 1 = flags.testBit 1 :=
    testBit_mapEntry haligned (by omega)
  have huser : (mapEntry phys flags).testBit 2 = flags.testBit 2 :=
    testBit_mapEntry haligned (by omega)
  have hrequested : PageMapping.requested phys flags =
      { frame := phys, writable := flags.testBit 1, user := flags.testBit 2 } := by
    rw [← and_two_pow_ne_zero flags 1, ← and_two_pow_ne_zero flags 2]
    rfl
  simp [leafTranslation, hpresent, hmask, translationOf, Translation.mapping, hwrite,
    huser, hrequested]

theorem leafTranslation_zero : leafTranslation 0 = none := rfl

end MapEntry

/-! ## Refinement -/

/-- The tables give every canonical page the translation of the address
spaces. -/
def PagingState.Represents (state : PagingState) (spaces : AddressSpaces) : Prop :=
  ∃ free tree, state.vmm.Holds state.roots free tree ∧
    ∀ root virt, Canonical virt →
      (leafTranslation (tree.leaf root (leafPath virt))).map Translation.mapping =
        spaces root (virt / pageSize)

namespace PagingState.Represents

variable {state : PagingState} {spaces : AddressSpaces}

theorem walk_eq (hrepresents : state.Represents spaces) {root virt : ℕ}
    (hroot : root ∈ state.roots) (hvirt : Canonical virt) :
    (walk state.vmm.pmm.map.physical root virt).map Translation.mapping =
      spaces root (virt / pageSize) := by
  obtain ⟨free, tree, hholds, hleaves⟩ := hrepresents
  rw [hholds.walk_eq hroot, hleaves root virt hvirt]

/-- Storing the leaf entry of a page changes the mapping of that page only. -/
theorem writeLeaf {root virt value : ℕ} {mapping : Option PageMapping}
    (hrepresents : state.Represents spaces)
    (htarget : PagingCall.TargetOk state root virt) (hvalue : value < 2 ^ 64)
    (hmapping : (leafTranslation value).map Translation.mapping = mapping) :
    ∃ after, Paging.writeLeaf state.vmm root virt value = some after ∧
      ({ state with vmm := after } : PagingState).Represents
        (spaces.set root virt mapping) := by
  obtain ⟨free, tree, hholds, hleaves⟩ := hrepresents
  obtain ⟨hroot, hvirt, halloc⟩ := htarget
  obtain ⟨after, tree', hrun, hholds', hleaf, -⟩ :=
    hholds.writeLeaf_spec hroot ((hholds.pathAllocates_iff hroot).mp halloc) hvalue
  refine ⟨after, hrun, _, _, hholds', ?_⟩
  intro root' virt' hvirt'
  by_cases hpage : root' = root ∧ virt' / pageSize = virt / pageSize
  · have hpath := (leafPath_eq_iff hvirt' hvirt).mpr hpage.2
    rw [hpage.1, hpath, setLeaf_leaf_self, hmapping, AddressSpaces.set,
      if_pos ⟨rfl, hpage.2⟩]
  · have hpath : ¬(root' = root ∧ leafPath virt' = leafPath virt) := by
      rw [leafPath_eq_iff hvirt' hvirt]
      exact hpage
    rw [setLeaf_leaf_of_ne hpath, hleaf, hleaves root' virt' hvirt',
      AddressSpaces.set, if_neg hpage]

theorem alloc (hrepresents : state.Represents spaces)
    (halloc : Allocates state.vmm.pmm) :
    ∃ pmm pml4, pmmAlloc state.vmm.pmm = some (pmm, pml4) ∧
      ({ state with vmm := { state.vmm with pmm := pmm } } :
        PagingState).Represents spaces ∧
      ∀ kernelPml4, ({ vmm := { state.vmm with pmm := pmm, kernelPml4 := kernelPml4 }
                       roots := pml4 :: state.roots } :
        PagingState).Represents spaces := by
  obtain ⟨free, tree, hholds, hleaves⟩ := hrepresents
  obtain ⟨frame, rest, rfl⟩ :=
    List.exists_cons_of_ne_nil ((allocates_iff hholds.freeList).mp halloc)
  obtain ⟨pmm, hrun, hholds', hroot⟩ := hholds.takeFrame
  exact ⟨pmm, frame, hrun, ⟨rest, tree, hholds', hleaves⟩, fun kernelPml4 =>
    ⟨rest, _, hroot.of_pmm_eq rfl, hleaves⟩⟩

/-- Every call succeeds and keeps the correspondence. -/
theorem step (hrepresents : state.Represents spaces) {call : PagingCall}
    (hallowed : call.Allowed state) :
    ∃ next, call.run state = some next ∧
      next.Represents (call.apply state spaces) := by
  have hmap : ∀ {root virt phys flags}, PagingCall.TargetOk state root virt →
      PagingCall.MappingOk phys flags →
        ∃ after, pagingMapPage state.vmm root virt phys flags = some after ∧
          ({ state with vmm := after } : PagingState).Represents
            (spaces.set root virt (some (.requested phys flags))) := by
    intro root virt phys flags htarget hmapping
    exact hrepresents.writeLeaf htarget (mapEntry_lt hmapping.2.1)
      (leafTranslation_mapEntry hmapping)
  have hunmap : ∀ {root virt}, PagingCall.TargetOk state root virt →
      ∃ after, pagingUnmapPage state.vmm root virt = some after ∧
        ({ state with vmm := after } : PagingState).Represents
          (spaces.set root virt none) := by
    intro root virt htarget
    exact hrepresents.writeLeaf htarget (by omega) rfl
  cases call with
  | alloc =>
      obtain ⟨pmm, pml4, hrun, hnext, -⟩ := hrepresents.alloc hallowed
      exact ⟨_, by simp [PagingCall.run, hrun], hnext⟩
  | newPml4 kernel =>
      obtain ⟨pmm, pml4, hrun, -, hnext⟩ := hrepresents.alloc hallowed
      refine ⟨_, ?_, hnext (if kernel then pml4 else state.vmm.kernelPml4)⟩
      simp [PagingCall.run, hrun]
  | map pml4 virt phys flags =>
      obtain ⟨after, hrun, hnext⟩ := hmap hallowed.1 hallowed.2
      exact ⟨_, by simp [PagingCall.run, vmmMap, hrun], hnext⟩
  | unmap pml4 virt =>
      obtain ⟨after, hrun, hnext⟩ := hunmap hallowed
      exact ⟨_, by simp [PagingCall.run, vmmUnmap, hrun], hnext⟩
  | kmap virt phys flags =>
      obtain ⟨after, hrun, hnext⟩ := hmap hallowed.1 hallowed.2
      exact ⟨_, by simp [PagingCall.run, vmmKmap, hrun], hnext⟩
  | kunmap virt =>
      obtain ⟨after, hrun, hnext⟩ := hunmap hallowed
      exact ⟨_, by simp [PagingCall.run, vmmKunmap, hrun], hnext⟩

theorem run (hrepresents : state.Represents spaces) {calls : List PagingCall}
    (hallowed : PagingCallsAllowed state calls) :
    ∃ after spaces', runPagingCalls state spaces calls = some (after, spaces') ∧
      after.Represents spaces' := by
  induction calls generalizing state spaces with
  | nil => exact ⟨state, spaces, rfl, hrepresents⟩
  | cons call calls ih =>
      obtain ⟨next, hrun, hnext⟩ := hrepresents.step hallowed.1
      obtain ⟨after, spaces', hafter, hfinal⟩ := ih hnext (hallowed.2 next hrun)
      exact ⟨after, spaces', by simp [runPagingCalls, hrun, hafter], hfinal⟩

end PagingState.Represents

/-- Before any root is allocated there are no tables. -/
def TableTree.empty : TableTree where
  table := fun _ _ => none
  leaf := fun _ _ => 0

theorem holds_empty {vmm : Vmm} {free : List ℕ} (hfree : vmm.pmm.FreeList free) :
    vmm.Holds [] free .empty where
  freeList := hfree
  root := by simp
  rooted := by simp [TableTree.empty]
  parent := by simp [TableTree.empty]
  unshared := by simp [TableTree.empty]
  frameOk := by simp [TableTree.empty]
  allocated := by simp [TableTree.empty]
  links := by simp [TableTree.empty]
  leaves := by simp [TableTree.empty]
  unmapped := by simp [TableTree.empty]

/-- The first root is the frame that `pmm_init` freed last, and it is empty. -/
theorem newPml4_pmmInit (physical : Memory) {offset frame : ℕ} {rest : List ℕ}
    {memoryMap : PhysMemoryMap} (hboot : BootMap offset memoryMap)
    (hframes : (usableFrames (memoryMap.entries.drop 1)).reverse = frame :: rest) :
    ∃ pmm after, pmmInit physical offset memoryMap = some pmm ∧ Allocates pmm ∧
      (PagingCall.newPml4 true).run { vmm := ⟨pmm, 0, 0, fun _ => none⟩, roots := [] } =
        some { vmm := ⟨after, frame, 0, fun _ => none⟩, roots := [frame] } ∧
      (⟨after, frame, 0, fun _ => none⟩ : Vmm).Holds [frame] rest
        (TableTree.empty.extend frame [] frame) := by
  obtain ⟨pmm, hinit, hfree, -⟩ := pmmInit_spec physical hboot
  rw [hframes] at hfree
  have hholds : (⟨pmm, 0, 0, fun _ => none⟩ : Vmm).Holds [] (frame :: rest) .empty :=
    holds_empty hfree
  obtain ⟨after, halloc, -, hroot⟩ := hholds.takeFrame
  refine ⟨pmm, after, hinit, (allocates_iff hfree).mpr (by simp), ?_,
    hroot.of_pmm_eq rfl⟩
  simp [PagingCall.run, halloc]

/-- After any sequence of calls, under every root that was allocated, the
hardware walk of every canonical address yields what the last call for its page
asked for. -/
theorem pageTables_refine_addressSpaces (physical : Memory) (offset : ℕ)
    (memoryMap : PhysMemoryMap) (hboot : BootMap offset memoryMap)
    (kernelPml4 cr3 : ℕ) (tlb : ℕ → Option Translation) :
    ∃ pmm, pmmInit physical offset memoryMap = some pmm ∧
      ∀ calls, PagingCallsAllowed { vmm := ⟨pmm, kernelPml4, cr3, tlb⟩, roots := [] }
          calls →
        ∃ state spaces,
          runPagingCalls { vmm := ⟨pmm, kernelPml4, cr3, tlb⟩, roots := [] }
              .empty calls = some (state, spaces) ∧
            ∀ root ∈ state.roots, ∀ virt, Canonical virt →
              (walk state.vmm.pmm.map.physical root virt).map Translation.mapping =
                spaces root (virt / pageSize) := by
  obtain ⟨pmm, hinit, hfree, -⟩ := pmmInit_spec physical hboot
  refine ⟨pmm, hinit, ?_⟩
  intro calls hallowed
  have hstart : ({ vmm := ⟨pmm, kernelPml4, cr3, tlb⟩, roots := [] } :
      PagingState).Represents .empty :=
    ⟨_, .empty, holds_empty hfree, by
      simp [TableTree.empty, leafTranslation_zero, AddressSpaces.empty]⟩
  obtain ⟨state, spaces, hrun, hrepresents⟩ := hstart.run hallowed
  refine ⟨state, spaces, hrun, ?_⟩
  intro root hroot virt hvirt
  exact hrepresents.walk_eq hroot hvirt

/-- Four usable pages behind a reserved one. -/
def fourPageMap : PhysMemoryMap where
  entries := [⟨0, 0x1000, .reserved⟩, ⟨0x1000, 0x4000, .usable⟩]

theorem bootMap_fourPageMap : BootMap 0xffff800000000000 fourPageMap where
  higherHalf := by decide
  aligned := by decide
  positive := by decide
  physical := by decide
  mapped := by decide
  disjoint := by decide

theorem usableFrames_fourPageMap :
    (usableFrames (fourPageMap.entries.drop 1)).reverse =
      [0x4000, 0x3000, 0x2000, 0x1000] := by
  decide

/-- With four frames the kernel can set up its tables and map one page. -/
theorem pageTables_refine_addressSpaces_fourPageMap :
    ∃ pmm state spaces,
      pmmInit (fun _ => 0) 0xffff800000000000 fourPageMap = some pmm ∧
        runPagingCalls { vmm := ⟨pmm, 0, 0, fun _ => none⟩, roots := [] } .empty
            [.newPml4 true, .kmap 0xffff810000000000 0x200000 vmFlagWrite] =
          some (state, spaces) ∧
        state.roots = [0x4000] ∧
        spaces 0x4000 (0xffff810000000000 / pageSize) = some ⟨0x200000, true, false⟩ ∧
        (walk state.vmm.pmm.map.physical 0x4000 0xffff810000000000).map
          Translation.mapping = some ⟨0x200000, true, false⟩ := by
  obtain ⟨pmm, hinit, hrefine⟩ := pageTables_refine_addressSpaces (fun _ => 0)
    0xffff800000000000 fourPageMap bootMap_fourPageMap 0 0 (fun _ => none)
  obtain ⟨pmm', after, hinit', halloc, hroot, hholds⟩ :=
    newPml4_pmmInit (fun _ => 0) bootMap_fourPageMap usableFrames_fourPageMap
  obtain rfl : pmm' = pmm := Option.some.inj (hinit'.symm.trans hinit)
  have hallowed : PagingCallsAllowed
      { vmm := ⟨pmm', 0, 0, fun _ => none⟩, roots := [] }
      [.newPml4 true, .kmap 0xffff810000000000 0x200000 vmFlagWrite] := by
    refine ⟨halloc, ?_⟩
    intro next hnext
    rw [hroot] at hnext
    obtain rfl := Option.some.inj hnext
    exact ⟨⟨⟨by simp, by decide, hholds.pathAllocates (by simp) (by simp)⟩,
      ⟨by decide, by decide, by decide⟩⟩, fun _ _ => trivial⟩
  obtain ⟨state, spaces, hrun, hwalk⟩ := hrefine _ hallowed
  have hcalls := hrun
  rw [runPagingCalls, hroot, Option.bind_eq_bind, Option.bind_some] at hcalls
  obtain ⟨next, hkmap, hcalls⟩ := Option.bind_eq_some_iff.mp hcalls
  obtain ⟨mapped, -, hkmap⟩ := Option.bind_eq_some_iff.mp hkmap
  obtain rfl := Option.some.inj hkmap
  obtain ⟨rfl, rfl⟩ := Prod.mk.inj (Option.some.inj hcalls)
  have hspaces : AddressSpaces.empty.set 0x4000 0xffff810000000000
      (some (.requested 0x200000 vmFlagWrite)) 0x4000 (0xffff810000000000 / pageSize) =
        some ⟨0x200000, true, false⟩ := by decide
  have hfound := hwalk 0x4000 (by simp) 0xffff810000000000 (by decide)
  exact ⟨pmm', _, _, hinit, hrun, rfl, hspaces, hfound.trans hspaces⟩

end Flurry.Paging
