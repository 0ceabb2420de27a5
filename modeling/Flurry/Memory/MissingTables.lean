import Flurry.Memory.FrameConservation
import Flurry.Memory.Tlb

/-!
# Calls that lack tables

Mapping and unmapping share the way down to the leaf entry, and both fill it in
where it ends early.  A mapping call for which the free list is too short links
in frame 0 as a table.  An unmapping call for a page without a page table takes
frames for tables that nothing will use.
-/

namespace Flurry.Paging

open ByteMemory PhysicalMemory

/-! ## Mapping with few frames left -/

/-- A mapping call returned, its way down did not link in frame 0, and all
translations other than that of the mapped page are kept. -/
def KeepsSpaces (vmm : Vmm) (roots : List ℕ) (root virt : ℕ) (result : Option Vmm) :
    Prop :=
  ¬InstallsFrameZero vmm root (upperIndices virt) ∧
    ∃ after, result = some after ∧
      ∀ root' ∈ roots, ∀ virt' translation,
        ¬(root' = root ∧ pageOf virt' = pageOf virt) →
          walk vmm.pmm.map.physical root' virt' = some translation →
            walk after.pmm.map.physical root' virt' = some translation

namespace Vmm.Holds

variable {vmm : Vmm} {roots free : List ℕ} {tree : TableTree} {root virt : ℕ}

theorem keepsSpaces_iff {value : ℕ} (hholds : vmm.Holds roots free tree)
    (hroot : root ∈ roots) (hvalue : value < 2 ^ 64) :
    KeepsSpaces vmm roots root virt (writeLeaf vmm root virt value) ↔
      missingTables vmm.pmm.map.physical root (upperIndices virt) ≤ free.length := by
  have hinstalls := hholds.installsFrameZero_iff (hholds.root root hroot)
    (upperWay_upperIndices virt)
  constructor
  · rintro ⟨hnone, -⟩
    rw [hinstalls] at hnone
    exact Nat.le_of_not_lt hnone
  · intro hframes
    obtain ⟨after, tree', hrun, hholds', hleaf, -⟩ :=
      hholds.writeLeaf_spec hroot hframes hvalue
    refine ⟨?_, after, hrun, ?_⟩
    · rw [hinstalls]
      exact Nat.not_lt_of_le hframes
    · intro root' hroot' virt' translation hother hwalk
      rw [hholds.walk_eq hroot'] at hwalk
      rw [← leafPath_eq_iff_pageOf] at hother
      rw [hholds'.walk_eq hroot', setLeaf_leaf_of_ne hother, hleaf, hwalk]

end Vmm.Holds

/-- A mapping call leaves the address spaces alone exactly if the free list has a
frame for each table that is missing, which is when no call of `pmm_alloc` on the
way returns 0. -/
theorem map_keeps_spaces_iff (vmm : Vmm) (roots free : List ℕ) (tree : TableTree)
    (hholds : vmm.Holds roots free tree) :
    (∀ root ∈ roots, ∀ virt phys flags, phys < 2 ^ 64 →
      (KeepsSpaces vmm roots root virt (vmmMap vmm root virt phys flags) ↔
        missingTables vmm.pmm.map.physical root (upperIndices virt) ≤ free.length) ∧
      (PathAllocates vmm root virt ↔
        missingTables vmm.pmm.map.physical root (upperIndices virt) ≤ free.length)) ∧
    (vmm.kernelPml4 ∈ roots → ∀ virt phys flags, phys < 2 ^ 64 →
      (KeepsSpaces vmm roots vmm.kernelPml4 virt (vmmKmap vmm virt phys flags) ↔
        missingTables vmm.pmm.map.physical vmm.kernelPml4 (upperIndices virt) ≤
          free.length)) := by
  constructor
  · intro root hroot virt phys flags hphys
    exact ⟨hholds.keepsSpaces_iff hroot (mapEntry_lt_word flags hphys),
      hholds.pathAllocates_iff hroot⟩
  · intro hroot virt phys flags hphys
    exact hholds.keepsSpaces_iff hroot (mapEntry_lt_word flags hphys)

/-- Under a root that was just allocated all three tables are missing. -/
theorem missingTables_newPml4 {vmm : Vmm} {frame : ℕ} {free : List ℕ}
    (hholds : vmm.Holds [frame] free (TableTree.empty.extend frame [] frame)) (virt : ℕ) :
    missingTables vmm.pmm.map.physical frame (upperIndices virt) = 3 := by
  apply hholds.missingTables_of_empty Vmm.Holds.extend_table_self
    (upperWay_upperIndices virt)
  intro index
  rw [Vmm.Holds.extend_table_of_ne (by simp)]
  rfl

/-- Three frames are enough for the first page. -/
theorem map_keeps_spaces_iff_fourPageMap :
    ∃ pmm state, pmmInit (fun _ => 0) 0xffff800000000000 fourPageMap = some pmm ∧
      (PagingCall.newPml4 true).run { vmm := ⟨pmm, 0, 0, fun _ => none⟩, roots := [] } =
        some state ∧
      KeepsSpaces state.vmm state.roots state.vmm.kernelPml4 0xffff810000000000
        (vmmKmap state.vmm 0xffff810000000000 0x200000 vmFlagWrite) := by
  obtain ⟨pmm, after, hinit, -, hrun, hholds⟩ :=
    newPml4_pmmInit (fun _ => 0) bootMap_fourPageMap usableFrames_fourPageMap
  have hiff := (map_keeps_spaces_iff _ _ _ _ hholds).2 (by simp) 0xffff810000000000
    0x200000 vmFlagWrite (by decide)
  exact ⟨pmm, _, hinit, hrun, hiff.mpr (missingTables_le _ _ _)⟩

/-- With the only frame used for the root, mapping a page finds no frame for the
first table and links in frame 0. -/
theorem kmap_installs_frame_zero :
    ∃ pmm state, pmmInit (fun _ => 0) 0xffff800000000000 onePageMap = some pmm ∧
      (PagingCall.newPml4 true).run { vmm := ⟨pmm, 0, 0, fun _ => none⟩, roots := [] } =
        some state ∧
      ¬PathAllocates state.vmm state.vmm.kernelPml4 0xffff810000000000 ∧
      InstallsFrameZero state.vmm state.vmm.kernelPml4
        (upperIndices 0xffff810000000000) ∧
      ¬KeepsSpaces state.vmm state.roots state.vmm.kernelPml4 0xffff810000000000
        (vmmKmap state.vmm 0xffff810000000000 0x200000 vmFlagWrite) := by
  have hframes : (usableFrames (onePageMap.entries.drop 1)).reverse = [0x1000] := by
    decide
  obtain ⟨pmm, after, hinit, -, hrun, hholds⟩ :=
    newPml4_pmmInit (fun _ => 0) bootMap_onePageMap hframes
  have hmissing := missingTables_newPml4 hholds 0xffff810000000000
  refine ⟨pmm, _, hinit, hrun, ?_, ?_, ?_⟩
  · simp [hholds.pathAllocates_iff, hmissing]
  · rw [hholds.installsFrameZero_iff Vmm.Holds.extend_table_self (upperWay_upperIndices _), hmissing]
    decide
  · rw [vmmKmap, pagingMapPage, hholds.keepsSpaces_iff (by simp) (by decide), hmissing]
    decide

/-! ## Unmapping a page without a page table -/

/-- The free list starts where it did, and no byte of memory changed outside the
leaf entry of `virt`, if there is one. -/
structure OnlyLeafChanged (before after : Vmm) (root virt : ℕ) : Prop where
  freeListHead : after.pmm.freeListHead = before.pmm.freeListHead
  outside : ∀ address,
    (∀ table ∈ tableAt before.pmm.map.physical root (upperIndices virt),
      address < table + 8 * pml1Index virt ∨
        table + 8 * pml1Index virt + 8 ≤ address) →
      after.pmm.map.physical address = before.pmm.map.physical address

/-- An unmapping call returned and changed at most the leaf entry. -/
def ChangesOnlyLeaf (vmm : Vmm) (root virt : ℕ) (result : Option Vmm) : Prop :=
  ∃ after, result = some after ∧ OnlyLeafChanged vmm after root virt

namespace Vmm.Holds

variable {vmm : Vmm} {roots free : List ℕ} {tree : TableTree} {root virt value : ℕ}

/-- Where no table is missing only the leaf entry is written. -/
theorem changesOnlyLeaf_of_tables (hholds : vmm.Holds roots free tree)
    (hroot : root ∈ roots)
    (hmissing : missingTables vmm.pmm.map.physical root (upperIndices virt) = 0) :
    ChangesOnlyLeaf vmm root virt (writeLeaf vmm root virt value) := by
  rw [missingTables_eq_zero_iff, Option.isSome_iff_exists] at hmissing
  obtain ⟨table, htableAt⟩ := hmissing
  have htable := hholds.tableAt_root hroot ▸ htableAt
  have hrun := hholds.descend_of_some (hholds.root root hroot)
    (upperWay_upperIndices virt) htable
  have hwrite := DirectMap.write64_window vmm.pmm.map (table + 8 * pml1Index virt) value
  rw [← hholds.entryPointer_eq htable] at hwrite
  set written : Vmm := { vmm with pmm := { vmm.pmm with map := { vmm.pmm.map with
    physical := store64 vmm.pmm.map.physical (table + 8 * pml1Index virt) value } } }
  refine ⟨invlpgIfNeeded written root virt, ?_, ?_, ?_⟩
  · simp only [writeLeaf, getPml1Entry_eq, hrun, hwrite, Option.bind_eq_bind,
      Option.bind_some]
    rfl
  · rw [invlpgIfNeeded_pmm]
  · intro address houtside
    rw [invlpgIfNeeded_pmm]
    apply store64_of_not_mem
    exact houtside table htableAt

/-- A call that fills in tables changes more than a leaf entry. -/
theorem tables_of_changesOnlyLeaf (hholds : vmm.Holds roots free tree)
    (hroot : root ∈ roots) (halloc : PathAllocates vmm root virt)
    (hvalue : value < 2 ^ 64)
    (hchanges : ChangesOnlyLeaf vmm root virt (writeLeaf vmm root virt value)) :
    missingTables vmm.pmm.map.physical root (upperIndices virt) = 0 := by
  rw [missingTables_eq_zero_iff]
  obtain ⟨after, hrun, honly⟩ := hchanges
  obtain ⟨after', tree', hrun', hholds', -, hsome⟩ :=
    hholds.writeLeaf_spec hroot ((hholds.pathAllocates_iff hroot).mp halloc) hvalue
  obtain rfl : after = after' := Option.some.inj (hrun.symm.trans hrun')
  by_contra hnone
  rw [Option.not_isSome_iff_eq_none] at hnone
  -- without a leaf entry no byte changed, so the tables cannot be there now
  have hsame : after.pmm.map.physical = vmm.pmm.map.physical := by
    funext address
    apply honly.outside
    simp [hnone]
  have htable : tableAt after.pmm.map.physical root (upperIndices virt) =
      tree'.table root (leafPath virt).tail :=
    hholds'.tableAt_root hroot
  rw [← htable, hsame, hnone] at hsome
  exact absurd hsome (by simp)

end Vmm.Holds

/-- In every state that calls lead to while frames last, unmapping a page changes
at most its leaf entry if no table above it is missing; and if there are frames
for the missing ones, only then. -/
theorem unmap_changes_only_leaf (physical : Memory) (offset : ℕ)
    (memoryMap : PhysMemoryMap) (hboot : BootMap offset memoryMap)
    (kernelPml4 cr3 : ℕ) (tlb : ℕ → Option Translation) :
    ∃ pmm, pmmInit physical offset memoryMap = some pmm ∧
      ∀ events, TlbEventsAllowed { vmm := ⟨pmm, kernelPml4, cr3, tlb⟩, roots := [] }
          events →
        ∃ state,
          runTlbEvents { vmm := ⟨pmm, kernelPml4, cr3, tlb⟩, roots := [] } events =
              some state ∧
            (∀ root ∈ state.roots, ∀ virt,
              (missingTables state.vmm.pmm.map.physical root (upperIndices virt) = 0 →
                ChangesOnlyLeaf state.vmm root virt (vmmUnmap state.vmm root virt)) ∧
              (PathAllocates state.vmm root virt →
                ChangesOnlyLeaf state.vmm root virt (vmmUnmap state.vmm root virt) →
                  missingTables state.vmm.pmm.map.physical root
                    (upperIndices virt) = 0)) ∧
            (state.vmm.kernelPml4 ∈ state.roots → ∀ virt,
              (missingTables state.vmm.pmm.map.physical state.vmm.kernelPml4
                  (upperIndices virt) = 0 →
                ChangesOnlyLeaf state.vmm state.vmm.kernelPml4 virt
                  (vmmKunmap state.vmm virt)) ∧
              (PathAllocates state.vmm state.vmm.kernelPml4 virt →
                ChangesOnlyLeaf state.vmm state.vmm.kernelPml4 virt
                    (vmmKunmap state.vmm virt) →
                  missingTables state.vmm.pmm.map.physical state.vmm.kernelPml4
                    (upperIndices virt) = 0)) := by
  obtain ⟨pmm, hinit, hfree, -⟩ := pmmInit_spec physical hboot
  refine ⟨pmm, hinit, ?_⟩
  intro events hallowed
  obtain ⟨state, hrun, hcached⟩ :=
    (cached_pmmInit kernelPml4 cr3 tlb hfree).run hallowed
  obtain ⟨free, tree, hholds⟩ := hcached.tables
  refine ⟨state, hrun, ?_, ?_⟩
  · intro root hroot virt
    exact ⟨hholds.changesOnlyLeaf_of_tables hroot, fun halloc =>
      hholds.tables_of_changesOnlyLeaf hroot halloc (by decide)⟩
  · intro hroot virt
    exact ⟨hholds.changesOnlyLeaf_of_tables hroot, fun halloc =>
      hholds.tables_of_changesOnlyLeaf hroot halloc (by decide)⟩

/-- The kernel's root is set up and a page is mapped under it. -/
def mapFirstPage : List TlbEvent :=
  [.call ⟨⟨[], []⟩, ⟨[], []⟩, ⟨[], []⟩, []⟩ (.newPml4 true),
    .call ⟨⟨[], []⟩, ⟨[], []⟩, ⟨[], []⟩, []⟩
      (.kmap 0xffff810000000000 0x200000 vmFlagWrite)]

/-- Unmapping the page again changes its leaf entry only. -/
theorem unmap_changes_only_leaf_fourPageMap :
    ∃ pmm state, pmmInit (fun _ => 0) 0xffff800000000000 fourPageMap = some pmm ∧
      runTlbEvents { vmm := ⟨pmm, 0, 0, fun _ => none⟩, roots := [] } mapFirstPage =
        some state ∧
      ChangesOnlyLeaf state.vmm 0x4000 0xffff810000000000
        (vmmUnmap state.vmm 0x4000 0xffff810000000000) := by
  obtain ⟨pmm, hinit, hchanges⟩ := unmap_changes_only_leaf (fun _ => 0)
    0xffff800000000000 fourPageMap bootMap_fourPageMap 0 0 (fun _ => none)
  obtain ⟨pmm', boot, hinit', halloc, hnew, hholds⟩ :=
    newPml4_pmmInit (fun _ => 0) bootMap_fourPageMap usableFrames_fourPageMap
  obtain rfl : pmm' = pmm := Option.some.inj (hinit'.symm.trans hinit)
  have hvalue : mapEntry 0x200000 vmFlagWrite < 2 ^ 64 := by decide
  obtain ⟨mapped, tree, hmap, hmapped, -, htable⟩ := hholds.writeLeaf_spec
    (List.mem_singleton_self 0x4000)
    (missingTables_le _ _ (upperIndices 0xffff810000000000)) hvalue
  have hkmap : (PagingCall.kmap 0xffff810000000000 0x200000 vmFlagWrite).run
      { vmm := ⟨boot, 0x4000, 0, fun _ => none⟩, roots := [0x4000] } =
        some { vmm := mapped, roots := [0x4000] } := by
    simp only [PagingCall.run, vmmKmap, pagingMapPage, ← mapEntry.eq_1, hmap,
      Option.bind_eq_bind, Option.bind_some]
    rfl
  have hrun : runTlbEvents { vmm := ⟨pmm', 0, 0, fun _ => none⟩, roots := [] }
      mapFirstPage = some { vmm := mapped, roots := [0x4000] } := by
    simp only [mapFirstPage, runTlbEvents, TlbEvent.run, PagingCall.runFilled_nil, hnew,
      hkmap, Option.bind_eq_bind, Option.bind_some]
  have hallowed : TlbEventsAllowed { vmm := ⟨pmm', 0, 0, fun _ => none⟩, roots := [] }
      mapFirstPage := by
    refine ⟨halloc, ?_⟩
    intro next hnext
    obtain rfl := Option.some.inj (hnew.symm.trans hnext)
    exact ⟨⟨by simp, hholds.pathAllocates (by simp) (by simp), by decide⟩,
      fun _ _ => trivial⟩
  obtain ⟨state, hstate, honly, -⟩ := hchanges mapFirstPage hallowed
  obtain rfl := Option.some.inj (hrun.symm.trans hstate)
  refine ⟨pmm', _, hinit, hrun, (honly 0x4000 (by simp) 0xffff810000000000).1 ?_⟩
  rw [missingTables_eq_zero_iff, hmapped.tableAt_root (by simp)]
  exact htable

/-- Unmapping a page that was never mapped takes the three free frames. -/
theorem kunmap_takes_frames :
    ∃ pmm state after,
      pmmInit (fun _ => 0) 0xffff800000000000 fourPageMap = some pmm ∧
      (PagingCall.newPml4 true).run { vmm := ⟨pmm, 0, 0, fun _ => none⟩, roots := [] } =
        some state ∧
      vmmKunmap state.vmm 0xffff810000000000 = some after ∧
      state.vmm.pmm.FreeList [0x3000, 0x2000, 0x1000] ∧ after.pmm.FreeList [] ∧
      ¬OnlyLeafChanged state.vmm after state.vmm.kernelPml4 0xffff810000000000 := by
  obtain ⟨pmm, boot, hinit, -, hnew, hholds⟩ :=
    newPml4_pmmInit (fun _ => 0) bootMap_fourPageMap usableFrames_fourPageMap
  have hmissing := missingTables_newPml4 hholds 0xffff810000000000
  obtain ⟨after, tree, hrun, hholds', -, -⟩ := hholds.writeLeaf_spec
    (List.mem_singleton_self 0x4000)
    (missingTables_le _ _ (upperIndices 0xffff810000000000)) (Nat.two_pow_pos 64)
  rw [hmissing] at hholds'
  refine ⟨pmm, _, after, hinit, hnew, hrun, hholds.freeList, hholds'.freeList, ?_⟩
  intro honly
  have hbefore : boot.freeListHead = 0x3000 + boot.map.hhdmOffset :=
    hholds.freeList.chain.1
  have hafter : after.pmm.freeListHead = 0 := hholds'.freeList.chain
  have hhead : after.pmm.freeListHead = boot.freeListHead := honly.freeListHead
  omega

end Flurry.Paging
