import Flurry.Memory.HeapPages

/-!
# Permissions that are lost on the way to the page table

`vmm_map` takes 64-bit flags and `paging_map_page` takes 16 bits of them.  The
low flags get through, the no-execute flag in bit 63 does not, so every page the
kernel maps at boot can be executed.
-/

namespace Flurry.Paging

open ByteMemory PhysicalMemory BitField
open Kmalloc (heapStart heapEnd)

/-- The flags a caller can ask for. -/
def permissionFlags : List ℕ := [vmFlagWrite, vmFlagUser, vmFlagNoCache, vmFlagNx]

/-- A leaf entry has each flag exactly if it was asked for. -/
def LeafAsRequested (leaf flags : ℕ) : Prop :=
  ∀ flag ∈ permissionFlags, leaf &&& flag ≠ 0 ↔ flags &&& flag ≠ 0

/-- No address bit stands where a low flag was not asked for, and the top bit of the
address stands in for the no-execute flag. -/
def AddressSupplies (phys flags : ℕ) : Prop :=
  (∀ flag ∈ [vmFlagWrite, vmFlagUser, vmFlagNoCache],
    phys &&& flag ≠ 0 → flags &&& flag ≠ 0) ∧
      (phys &&& vmFlagNx ≠ 0 ↔ flags &&& vmFlagNx ≠ 0)

theorem and_two_pow_ne_zero_iff (word bit : ℕ) :
    word &&& 2 ^ bit ≠ 0 ↔ word.testBit bit = true := by
  rw [← and_two_pow_ne_zero word bit, decide_eq_true_iff]

theorem mapEntry_testBit (phys flags bit : ℕ) (hbit : bit ≠ 0) :
    (mapEntry phys flags).testBit bit =
      (phys.testBit bit || (decide (bit < 16) && flags.testBit bit)) := by
  have hone : Nat.testBit 1 bit = false := by
    rw [show 1 = 2 ^ 0 by rfl, Nat.testBit_two_pow]
    exact decide_eq_false (Ne.symm hbit)
  rw [mapEntry_eq, Nat.testBit_or, Nat.testBit_or, Nat.testBit_mod_two_pow, hone,
    Bool.false_or]

/-- The entry is as requested exactly if the address supplies what was cut off. -/
theorem leafAsRequested_mapEntry_iff (phys flags : ℕ) :
    LeafAsRequested (mapEntry phys flags) flags ↔ AddressSupplies phys flags := by
  have hlow : ∀ bit, bit ≠ 0 → bit < 16 →
      ((mapEntry phys flags &&& 2 ^ bit ≠ 0 ↔ flags &&& 2 ^ bit ≠ 0) ↔
        (phys &&& 2 ^ bit ≠ 0 → flags &&& 2 ^ bit ≠ 0)) := by
    intro bit hzero hbit
    simp only [and_two_pow_ne_zero_iff, mapEntry_testBit phys flags bit hzero, hbit]
    cases phys.testBit bit <;> cases flags.testBit bit <;> simp
  have hhigh : (mapEntry phys flags &&& 2 ^ 63 ≠ 0 ↔ flags &&& 2 ^ 63 ≠ 0) ↔
      (phys &&& 2 ^ 63 ≠ 0 ↔ flags &&& 2 ^ 63 ≠ 0) := by
    simp only [and_two_pow_ne_zero_iff,
      mapEntry_testBit phys flags 63 (by omega), show ¬63 < 16 by omega]
    simp
  have hwrite : vmFlagWrite = 2 ^ 1 := rfl
  have huser : vmFlagUser = 2 ^ 2 := rfl
  have hcache : vmFlagNoCache = 2 ^ 4 := rfl
  have hnx : vmFlagNx = 2 ^ 63 := rfl
  simp only [LeafAsRequested, AddressSupplies, permissionFlags, List.forall_mem_cons,
    List.not_mem_nil, false_implies, implies_true, and_true, hwrite, huser, hcache, hnx,
    hlow 1 (by omega) (by omega), hlow 2 (by omega) (by omega), hlow 4 (by omega) (by omega),
    hhigh, and_assoc]

/-- For the address of a frame, the condition is that execution is not forbidden. -/
theorem addressSupplies_frame_iff {phys flags : ℕ} (haligned : phys % pageSize = 0)
    (hphys : phys < 2 ^ 52) :
    AddressSupplies phys flags ↔ flags &&& vmFlagNx = 0 := by
  have hclear : ∀ bit, bit < 12 ∨ 52 ≤ bit → phys &&& 2 ^ bit = 0 := by
    intro bit hbit
    by_contra hne
    have htest := (and_two_pow_ne_zero_iff phys bit).mp hne
    rcases hbit with hbit | hbit
    · rw [testBit_of_aligned haligned hbit] at htest
      exact absurd htest (by simp)
    · rw [testBit_of_lt hphys hbit] at htest
      exact absurd htest (by simp)
  have hnx : phys &&& vmFlagNx = 0 := hclear 63 (by omega)
  have hlow : ∀ flag ∈ [vmFlagWrite, vmFlagUser, vmFlagNoCache], phys &&& flag = 0 := by
    simp only [List.forall_mem_cons, List.not_mem_nil, false_implies, implies_true, and_true]
    exact ⟨hclear 1 (by omega), hclear 2 (by omega), hclear 4 (by omega)⟩
  constructor
  · rintro ⟨-, hsupplied⟩
    by_contra hne
    exact hsupplied.mpr hne hnx
  · intro hallowed
    exact ⟨fun flag hflag hne => absurd (hlow flag hflag) hne, by simp [hnx, hallowed]⟩

/-! ## One call -/

/-- A word that was written can be read back. -/
theorem read64_of_write64 {map map' : DirectMap} {virt value : ℕ}
    (hwrite : map.write64 virt value = some map') (hvalue : value < 2 ^ 64) :
    map'.read64 virt = some value := by
  rw [DirectMap.write64, Option.map_eq_some_iff] at hwrite
  obtain ⟨phys, htranslate, rfl⟩ := hwrite
  change (map.translate virt).map (load64 (store64 map.physical phys value)) = some value
  rw [htranslate, Option.map_some, load64_store64_same hvalue]

/-- Whatever the tables hold, a call that returns has stored its entry in the leaf slot
of the address. -/
theorem writeLeaf_leaf {vmm after : Vmm} {pml4 virt value : ℕ}
    (hrun : writeLeaf vmm pml4 virt value = some after) (hvalue : value < 2 ^ 64) :
    ∃ middle slot, getPml1Entry vmm pml4 virt = some (middle, slot) ∧
      after.pmm.map.read64 slot = some value := by
  simp only [writeLeaf, Option.bind_eq_bind, Option.bind_eq_some_iff] at hrun
  obtain ⟨⟨middle, slot⟩, hpath, map, hwrite, hafter⟩ := hrun
  refine ⟨middle, slot, hpath, ?_⟩
  rw [← Option.some.inj hafter, invlpgIfNeeded_pmm]
  exact read64_of_write64 hwrite hvalue

/-! ## After boot -/

theorem executable_mapEntry {phys flags : ℕ} (hphys : phys < 2 ^ 52) :
    ∃ translation, leafTranslation (mapEntry phys flags) = some translation ∧
      translation.executable = true := by
  have hpresent : (mapEntry phys flags).testBit 0 = true := by
    rw [mapEntry_eq, Nat.testBit_or, Nat.testBit_or]
    simp
  have hnx : (mapEntry phys flags).testBit 63 = false := by
    rw [mapEntry_testBit phys flags 63 (by omega), testBit_of_lt hphys (by omega)]
    simp
  refine ⟨translationOf (mapEntry phys flags &&& physAddrMask) [mapEntry phys flags], ?_, ?_⟩
  · simp [leafTranslation, hpresent]
  · simp [translationOf, hnx]

/-- The pages that are not meant to hold code. -/
def IsDataPage (hhdmOffset : ℕ) (memmap : PhysMemoryMap) (sections : KernelSections)
    (virt : ℕ) : Prop :=
  sections.rodata.Contains virt ∨ sections.data.Contains virt ∨
    (∃ addr, MemmapContains memmap addr ∧ virt = hhdmOffset + addr) ∨ InHeap virt

/-- A call of `vmm_map` or `vmm_kmap` stores the permissions that were asked for exactly
if the address supplies them, which for a frame means that execution was not to be
forbidden; and after `vmm_init` and `kmalloc_init` every page that is not meant to hold
code can be executed. -/
theorem permissions_reach_table_iff (vmm : Vmm) :
    (∀ (after : Vmm) (pml4 virt phys flags : ℕ), phys < 2 ^ 64 →
      vmmMap vmm pml4 virt phys flags = some after ∨
        (pml4 = vmm.kernelPml4 ∧ vmmKmap vmm virt phys flags = some after) →
      ∃ middle slot leaf, getPml1Entry vmm pml4 virt = some (middle, slot) ∧
        after.pmm.map.read64 slot = some leaf ∧
        (LeafAsRequested leaf flags ↔ AddressSupplies phys flags) ∧
        (phys % pageSize = 0 → phys < 2 ^ 52 →
          (LeafAsRequested leaf flags ↔ flags &&& vmFlagNx = 0))) ∧
    ∀ (free : List ℕ) (memmap : PhysMemoryMap) (sections : KernelSections)
      (kernelAddress : KernelAddress), vmm.pmm.FreeList free →
      BootSpace vmm.pmm.map.hhdmOffset memmap sections kernelAddress →
      (requestTables (vmmInitRequests vmm.pmm.map.hhdmOffset memmap sections
        kernelAddress) ∪ tablePaths heapStart).card + heapPages < free.length →
      ∃ booted after, vmmInit vmm memmap sections kernelAddress = some booted ∧
        kmallocInitMap booted = some after ∧
        ∀ virt, IsDataPage vmm.pmm.map.hhdmOffset memmap sections virt →
          ∃ translation, walk after.pmm.map.physical after.cr3 virt = some translation ∧
            translation.executable = true := by
  constructor
  · intro after pml4 virt phys flags hphys hrun
    have hwrite : writeLeaf vmm pml4 virt (mapEntry phys flags) = some after := by
      rcases hrun with hrun | ⟨rfl, hrun⟩ <;> exact hrun
    obtain ⟨middle, slot, hpath, hread⟩ := writeLeaf_leaf hwrite (mapEntry_lt_word flags hphys)
    have hiff := leafAsRequested_mapEntry_iff phys flags
    exact ⟨middle, slot, mapEntry phys flags, hpath, hread, hiff, fun haligned hframe =>
      hiff.trans (addressSupplies_frame_iff haligned hframe)⟩
  · intro free memmap sections kernelAddress hfree hspace hframes
    obtain ⟨booted, after, root, freeBooted, freeAfter, entries, pathsBooted, pathsAfter,
      hinit, hloop, ⟨-, -, hcr3⟩, -, hmaps, hkept, hheap⟩ :=
      kernelBoot_spec hfree hspace hframes
    refine ⟨booted, after, hinit, hloop, ?_⟩
    intro virt hdata
    have hfound : ∀ {phys flags}, Canonical virt → phys < 2 ^ 52 →
        entries root (virt / pageSize) = mapEntry phys flags →
          ∃ translation, walk after.pmm.map.physical after.cr3 virt = some translation ∧
            translation.executable = true := by
      intro phys flags hvirt hphys hentry
      rw [hcr3, hmaps.walk_eq List.mem_cons_self hvirt, hentry]
      exact executable_mapEntry hphys
    by_cases hinside : InHeap virt
    · obtain ⟨frame, hframe, hentry⟩ := hheap virt hinside
      have hok := (hfree.frameOk frame hframe).physical
      exact hfound (canonical_heap hinside)
        ((Nat.lt_add_of_pos_right (by decide)).trans_le hok) hentry
    · have hsection : ∀ part ∈ sections.parts, part.1.Contains virt →
          ∃ translation, walk after.pmm.map.physical after.cr3 virt = some translation ∧
            translation.executable = true := by
        intro part hpart hvirt
        have hvalid := hspace.valid (hspace.section_mem hpart hvirt)
        exact hfound (canonical_page hvalid.canonical) hvalid.physical
          ((hkept virt hinside).trans (hspace.section_entry hpart hvirt))
      rcases hdata with hvirt | hvirt | ⟨addr, haddr, rfl⟩ | hvirt
      · exact hsection (sections.rodata, vmFlagNx) (by simp [KernelSections.parts]) hvirt
      · exact hsection (sections.data, vmFlagWrite ||| vmFlagNx)
          (by simp [KernelSections.parts]) hvirt
      · exact hfound (hspace.window.canonical addr haddr)
          (hspace.valid (hspace.window_mem haddr)).physical
          ((hkept _ hinside).trans (hspace.window_entry haddr))
      · exact absurd hvirt hinside

/-- With four frames the kernel can set up its tables and map the first page of the
heap. -/
theorem kmap_fourPageMap (flags : ℕ) :
    ∃ vmm after : Vmm, vmmKmap vmm heapStart 0x200000 flags = some after := by
  obtain ⟨pmm, -, hfree, -⟩ := pmmInit_spec (fun _ => 0) bootMap_fourPageMap
  rw [usableFrames_fourPageMap] at hfree
  obtain ⟨allocated, -, hmaps⟩ := @maps_newPml4 ⟨pmm, 0, 0, fun _ => none⟩ _ _ hfree
  have hkernel : (⟨allocated, 0x4000, 0, fun _ => none⟩ : Vmm).Maps _ _ _ _ _ :=
    hmaps.of_pmm_eq rfl
  have hcanonical : Canonical heapStart := by decide
  have hphysical : 0x200000 < 2 ^ 52 := by decide
  have hvalid : KmapRequest.Valid ⟨heapStart, 0x200000, flags⟩ := ⟨hcanonical, hphysical⟩
  have hroom : (∅ ∪ tablePaths heapStart).card ≤ 3 := by decide
  obtain ⟨after, -, hrun, -⟩ := KmapRequest.run_spec hkernel List.mem_cons_self rfl hvalid
    hroom
  exact ⟨_, after, hrun⟩

/-- A writable page is mapped as requested, and the heap can be executed. -/
theorem permissions_reach_table_heap :
    (∃ (vmm middle after : Vmm) (slot leaf : ℕ),
      vmmKmap vmm heapStart 0x200000 vmFlagWrite = some after ∧
      getPml1Entry vmm vmm.kernelPml4 heapStart = some (middle, slot) ∧
      after.pmm.map.read64 slot = some leaf ∧ LeafAsRequested leaf vmFlagWrite) ∧
    ∃ pmm booted after translation,
      pmmInit (fun _ => 0) 0xffff800000000000 (heapMap 0xfffffff000) = some pmm ∧
      vmmInit ⟨pmm, 0, 0, fun _ => none⟩ (heapMap 0xfffffff000) fivePageKernel
        fivePageKernelAddress = some booted ∧
      kmallocInitMap booted = some after ∧
      walk after.pmm.map.physical after.cr3 heapStart = some translation ∧
      translation.executable = true := by
  constructor
  · obtain ⟨vmm, after, hrun⟩ := kmap_fourPageMap vmFlagWrite
    obtain ⟨middle, slot, leaf, hslot, hread, -, hframe⟩ :=
      (permissions_reach_table_iff vmm).1 after _ _ _ _ (by decide) (Or.inr ⟨rfl, hrun⟩)
    exact ⟨vmm, middle, after, slot, leaf, hrun, hslot, hread,
      (hframe (by decide) (by decide)).mpr (by decide)⟩
  · obtain ⟨pmm, hinit, hfree, hoffset⟩ :=
      pmmInit_spec (fun _ => 0) (bootMap_heapMap 0xfffffff000)
    have happly := (permissions_reach_table_iff ⟨pmm, 0, 0, fun _ => none⟩).2 _
      (heapMap 0xfffffff000) fivePageKernel fivePageKernelAddress hfree
    dsimp only at happly
    rw [hoffset] at happly
    obtain ⟨booted, after, hrun, hmap, hall⟩ := happly (bootSpace_heapMap (by decide))
      (frames_heapMap (by decide) (by decide))
    obtain ⟨translation, hwalk, hexecutable⟩ :=
      hall heapStart (Or.inr (Or.inr (Or.inr (by decide))))
    exact ⟨pmm, booted, after, translation, hinit, hrun, hmap, hwalk, hexecutable⟩

/-- A page that is mapped with the no-execute flag gets an entry without it, and the
read-only data of the kernel can be executed after `vmm_init`. -/
theorem no_execute_flag_lost :
    (∃ (vmm middle after : Vmm) (slot leaf : ℕ),
      vmmKmap vmm heapStart 0x200000 (vmFlagWrite ||| vmFlagNx) = some after ∧
      getPml1Entry vmm vmm.kernelPml4 heapStart = some (middle, slot) ∧
      after.pmm.map.read64 slot = some leaf ∧ leaf &&& vmFlagNx = 0) ∧
    ∃ pmm booted translation,
      pmmInit (fun _ => 0) 0xffff800000000000 overlappingMap = some pmm ∧
      vmmInit ⟨pmm, 0, 0, fun _ => none⟩ overlappingMap fivePageKernel
        fivePageKernelAddress = some booted ∧
      fivePageKernel.rodata.Contains 0xffffffff80002000 ∧
      walk booted.pmm.map.physical booted.cr3 0xffffffff80002000 = some translation ∧
      translation.executable = true := by
  constructor
  · obtain ⟨vmm, after, hrun⟩ := kmap_fourPageMap (vmFlagWrite ||| vmFlagNx)
    obtain ⟨middle, slot, hslot, hread⟩ := writeLeaf_leaf hrun (by decide)
    exact ⟨vmm, middle, after, slot, _, hrun, hslot, hread, by decide⟩
  · obtain ⟨pmm, hinit, hfree, hoffset⟩ := pmmInit_spec (fun _ => 0) bootMap_overlappingMap
    have hspace : BootSpace 0xffff800000000000 overlappingMap fivePageKernel
        fivePageKernelAddress := bootSpace_fivePageKernel (by decide) (by decide)
    have hspec := @vmmInit_spec ⟨pmm, 0, 0, fun _ => none⟩ _ overlappingMap fivePageKernel
      fivePageKernelAddress hfree
    dsimp only at hspec
    rw [hoffset] at hspec
    obtain ⟨booted, root, free, hrun, hcr3, -, hmaps, -⟩ := hspec hspace (by decide +kernel)
    have hpart : (fivePageKernel.rodata, vmFlagNx) ∈ fivePageKernel.parts := by decide
    have hvirt : fivePageKernel.rodata.Contains 0xffffffff80002000 := by
      unfold SectionRange.Contains
      decide
    have hvalid := hspace.valid (hspace.section_mem hpart hvirt)
    obtain ⟨translation, hwalk, hexecutable⟩ := executable_mapEntry hvalid.physical
    refine ⟨pmm, booted, translation, hinit, hrun, hvirt, ?_, hexecutable⟩
    rw [hcr3, hmaps.walk_eq List.mem_cons_self (by decide),
      hspace.section_entry hpart hvirt, hwalk]

end Flurry.Paging
