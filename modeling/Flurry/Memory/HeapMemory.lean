import Flurry.Memory.HeapPages
import Flurry.Memory.VirtualMemory

/-!
# The heap is plain memory

`kmalloc.c` reads and writes the heap as if it were an array of bytes.  After
`vmm_init` and `kmalloc_init` it is one: the loop of `kmalloc_init` gives each page a
cleared frame that nobody else has, so the heap starts out as zeros and keeps what is
stored to it.  The pages of the image and of the window are not among those of the heap,
and nobody may remap them later.
-/

namespace Flurry.Paging

open ByteMemory PhysicalMemory BitField
open Kmalloc (heapStart heapEnd heapSize)

/-- Writing a leaf entry costs a frame for each table that is missing. -/
theorem Vmm.Holds.missing_of_room {vmm : Vmm} {roots free : List ℕ} {tree : TableTree}
    {root virt count : ℕ} {paths : Finset (List ℕ)} (hholds : vmm.Holds roots free tree)
    (hroot : root ∈ roots) (hspans : tree.Spans root paths)
    (hroom : (paths ∪ tablePaths virt).card + count ≤ paths.card + free.length) :
    missingTables vmm.pmm.map.physical root (upperIndices virt) + count ≤ free.length ∧
      (paths ∪ tablePaths virt).card + (free.drop (missingTables vmm.pmm.map.physical root
        (upperIndices virt))).length = paths.card + free.length := by
  have hcard := hholds.missingTables_add_card hspans (hholds.root root hroot)
    (upperWay_upperIndices virt)
  rw [pathsBelow_upperIndices] at hcard
  rw [List.length_drop]
  omega

/-- The requests take their tables off the free list. -/
theorem kmapRequests_advances {vmm : Vmm} {roots free : List ℕ} {tree : TableTree} {root : ℕ}
    {paths : Finset (List ℕ)} {requests : List KmapRequest}
    (hholds : vmm.Holds roots free tree) (hspans : tree.Spans root paths)
    (hroot : root ∈ roots) (hkernel : vmm.kernelPml4 = root)
    (hvalid : ∀ request ∈ requests, request.Valid)
    (hroom : (paths ∪ requestTables requests).card ≤ paths.card + free.length) :
    ∃ after free' tree', requests.foldlM KmapRequest.run vmm = some after ∧
      after.kernelPml4 = root ∧ after.Holds roots free' tree' ∧
        tree'.Spans root (paths ∪ requestTables requests) ∧
          Advances vmm.pmm free tree after.pmm free' tree' ∧
            (paths ∪ requestTables requests).card + free'.length =
              paths.card + free.length := by
  induction requests generalizing vmm free tree paths with
  | nil =>
      have hnone : paths ∪ requestTables [] = paths := Finset.union_empty paths
      rw [hnone]
      exact ⟨vmm, free, tree, rfl, hkernel, hholds, hspans, Advances.refl _ _ _, rfl⟩
  | cons request requests ih =>
      have hfirst : (paths ∪ tablePaths request.virt).card ≤ paths.card + free.length :=
        (card_union_le_of_subset Finset.subset_union_left).trans hroom
      have hunion : paths ∪ requestTables (request :: requests) =
          paths ∪ tablePaths request.virt ∪ requestTables requests :=
        (Finset.union_assoc _ _ _).symm
      obtain ⟨hmissing, hcount⟩ := @Vmm.Holds.missing_of_room vmm roots free tree root
        request.virt 0 paths hholds hroot hspans hfirst
      obtain ⟨pmm, tree₁, hrun, hholds₁, -, hadvances₁, hspan₁⟩ :=
        hholds.writeLeaf_advances hroot hmissing
          (mapEntry_lt (hvalid request List.mem_cons_self).physical)
      rw [hunion] at hroom ⊢
      obtain ⟨after, free₂, tree₂, hrest, hkernel₂, hholds₂, hspans₂, hadvances₂, hcount₂⟩ :=
        ih (hholds₁.of_pmm_eq (invlpgIfNeeded_pmm { vmm with pmm := pmm } root request.virt))
          (hspan₁ paths hspans) ((invlpgIfNeeded_kernelPml4 _ _ _).trans hkernel)
          (fun other hother => hvalid other (List.mem_cons_of_mem request hother))
          (hroom.trans hcount.ge)
      rw [invlpgIfNeeded_pmm] at hadvances₂
      refine ⟨after, free₂, tree₂, ?_, hkernel₂, hholds₂, hspans₂,
        hadvances₁.trans hadvances₂, hcount₂.trans hcount⟩
      have hstep : request.run vmm =
          some (invlpgIfNeeded { vmm with pmm := pmm } root request.virt) := by
        rw [← hrun, ← hkernel]
        rfl
      simp only [List.foldlM_cons, hstep, Option.bind_eq_bind, Option.bind_some, hrest]

/-- The entries of the heap's pages and of the window. -/
theorem leafTranslation_heapEntry {frame : ℕ} (haligned : frame % pageSize = 0)
    (hphysical : frame < 2 ^ 52) :
    ∃ translation, leafTranslation (mapEntry frame (vmFlagWrite ||| vmFlagNx)) =
        some translation ∧ translation.frame = frame ∧ translation.writable = true := by
  have hmapping := @leafTranslation_mapEntry frame (vmFlagWrite ||| vmFlagNx)
    ⟨haligned, hphysical, by decide⟩
  obtain ⟨translation, htranslation, hrequested⟩ := Option.map_eq_some_iff.mp hmapping
  refine ⟨translation, htranslation, congrArg PageMapping.frame hrequested, ?_⟩
  have hwritable := congrArg PageMapping.writable hrequested
  exact hwritable.trans
    (show decide ((vmFlagWrite ||| vmFlagNx) &&& vmFlagWrite ≠ 0) = true by decide)

section Boot

variable {vmm : Vmm} {free : List ℕ} {memmap : PhysMemoryMap} {sections : KernelSections}
variable {kernelAddress : KernelAddress}

/-- What the processor finds in the window after `vmm_init`. -/
theorem vmmInit_window (hfree : vmm.pmm.FreeList free)
    (hspace : BootSpace vmm.pmm.map.hhdmOffset memmap sections kernelAddress)
    (hframes : (requestTables (vmmInitRequests vmm.pmm.map.hhdmOffset memmap sections
      kernelAddress)).card < free.length) {booted : Vmm}
    (hinit : vmmInit vmm memmap sections kernelAddress = some booted) {frame index : ℕ}
    (haddr : MemmapContains memmap frame) (haligned : frame % pageSize = 0)
    (hindex : index < pageSize) :
    ∃ translation, walk booted.pmm.map.physical booted.cr3
        (frame + index + vmm.pmm.map.hhdmOffset) = some translation ∧
      translation.frame = frame ∧ translation.writable = true := by
  obtain ⟨after, root, free', hinit', hcr3, -, hmaps, -⟩ := vmmInit_spec hfree hspace hframes
  obtain rfl : after = booted := Option.some.inj (hinit'.symm.trans hinit)
  have hoffset := hspace.window.aligned
  have hpage : (frame + index + vmm.pmm.map.hhdmOffset) / pageSize =
      (vmm.pmm.map.hhdmOffset + frame) / pageSize := by
    simp only [pageSize] at haligned hindex hoffset ⊢
    omega
  have hcanonical : Canonical (frame + index + vmm.pmm.map.hhdmOffset) :=
    hspace.canonical_kernelPages (Or.inr ⟨frame, haddr, hpage.symm⟩)
  have hrounded : frame / pageSize * pageSize = frame :=
    Nat.div_mul_cancel (Nat.dvd_of_mod_eq_zero haligned)
  have hphysical := (hspace.valid (hspace.window_mem haddr)).physical
  dsimp only at hphysical
  rw [hcr3, hmaps.walk_eq List.mem_cons_self hcanonical, hpage, hspace.window_entry haddr]
  rw [hrounded] at hphysical ⊢
  exact leafTranslation_heapEntry haligned hphysical

/-- After `vmm_init` the tables and the free frames are those of the boot memory map. -/
theorem vmmInit_backed (hfree : vmm.pmm.FreeList free)
    (hspace : BootSpace vmm.pmm.map.hhdmOffset memmap sections kernelAddress)
    (hframes : (requestTables (vmmInitRequests vmm.pmm.map.hhdmOffset memmap sections
      kernelAddress)).card < free.length) :
    ∃ booted root free' tree', vmmInit vmm memmap sections kernelAddress = some booted ∧
      booted.kernelPml4 = root ∧
      (⟨⟨booted, [root]⟩, []⟩ : MemoryState).Backed free root ∅
        ⟨vmm.pmm.map.hhdmOffset, kernelPages vmm.pmm.map.hhdmOffset memmap sections,
          walk booted.pmm.map.physical booted.cr3⟩ (fun _ => 0) (fun _ => 0) free' tree' ∧
      tree'.Spans root (requestTables (vmmInitRequests vmm.pmm.map.hhdmOffset memmap sections
        kernelAddress)) ∧
      (requestTables (vmmInitRequests vmm.pmm.map.hhdmOffset memmap sections
        kernelAddress)).card + free'.length + 1 = free.length := by
  set requests := vmmInitRequests vmm.pmm.map.hhdmOffset memmap sections kernelAddress
    with hrequests
  obtain ⟨root, rest, rfl⟩ := List.exists_cons_of_length_pos (Nat.zero_lt_of_lt hframes)
  obtain ⟨pmm, halloc, -, hroot⟩ := (holds_empty hfree).takeFrame
  obtain ⟨pmm', halloc', -, hoffset, -⟩ := pmmAlloc_cons hfree
  obtain rfl : pmm' = pmm := congrArg Prod.fst (Option.some.inj (halloc'.symm.trans halloc))
  have hkernel : ({ vmm with pmm := pmm', kernelPml4 := root } : Vmm).Holds [root] rest
      (TableTree.empty.extend root [] root) := hroot.of_pmm_eq rfl
  have hspans : (TableTree.empty.extend root [] root).Spans root ∅ := by
    intro path hpath
    rw [Vmm.Holds.extend_table_of_ne (fun hand => hpath hand.2)]
    simp [TableTree.empty]
  have hnone : ∅ ∪ requestTables requests = requestTables requests :=
    Finset.empty_union _
  obtain ⟨mapped, free', tree', hrun, hkernel', hholds, hspans', hadvances, hcount⟩ :=
    kmapRequests_advances hkernel hspans List.mem_cons_self rfl
      (fun request hmem => hspace.valid hmem) (by
        rw [hnone, Finset.card_empty, Nat.zero_add]
        exact Nat.le_of_lt_succ hframes)
  rw [hnone] at hspans' hcount
  have hstop : ∀ part ∈ sections.parts, part.1.stop + pageSize ≤ 2 ^ 64 := by
    intro part hpart
    have hbounds := hspace.part_bounds hpart
    have hbounded := hspace.image.bounded
    omega
  refine ⟨vmmLoadPml4 mapped root, root, free', tree', ?_, hkernel', ?_, hspans', ?_⟩
  · rw [vmmInit_eq hstop hspace.window.bounded, halloc, Option.bind_some, ← hrequests,
      hrun, Option.bind_some]
  · exact
      { holds := hholds.of_pmm_eq rfl
        active := rfl
        rooted := List.mem_cons_self
        agrees := fun _ _ _ hcached => absurd hcached (by simp [vmmLoadPml4, pagingLoadPml4])
        freeManaged := fun _ hmem => List.mem_cons_of_mem root (hadvances.subset hmem)
        tablesManaged := by
          intro root' path' table' htable
          rcases hadvances.tables htable with hold | hmem
          · rcases Vmm.Holds.extend_table_eq_some hold with ⟨-, -, rfl⟩ | hempty
            · exact List.mem_cons_self
            · exact absurd hempty (by simp [TableTree.empty])
          · exact List.mem_cons_of_mem root hmem
        lent := by simp
        canonical := by simp
        mapped := by simp
        own := by simp
        managed := by simp
        notLent := by simp
        injective := Set.injOn_empty _
        bytes := by simp
        offset := hadvances.offset.trans hoffset
        kernelCanonical := fun virt hvirt => hspace.canonical_kernelPages hvirt
        kernelMapped := fun virt _ => (hholds.walk_eq List.mem_cons_self).symm }
  · rw [hcount, Finset.card_empty, List.length_cons, Nat.zero_add]

end Boot

/-! ## The loop of `kmalloc_init` -/

/-- One page more, in a frame that was just taken. -/
theorem MemoryState.Backed.mapPage {vmm : Vmm} {managed rest : List ℕ} {root virt frame : ℕ}
    {region : Set ℕ} {kernel : KernelView} {frameOf : ℕ → ℕ} {tree : TableTree}
    {paths : Finset (List ℕ)}
    (hbacked : (⟨⟨vmm, [root]⟩, []⟩ : MemoryState).Backed managed root region kernel frameOf
      (fun _ => 0) (frame :: rest) tree)
    (hspans : tree.Spans root paths)
    (hcanonical : ∀ virt', virt' / pageSize = virt / pageSize → Canonical virt')
    (hnew : virt / pageSize ∉ region) (hother : virt / pageSize ∉ kernel.pages)
    (hroom : (paths ∪ tablePaths virt).card ≤ paths.card + rest.length) :
    ∃ pmm after free' tree', pmmAlloc vmm.pmm = some (pmm, frame) ∧
      writeLeaf { vmm with pmm := pmm } root virt
        (mapEntry frame (vmFlagWrite ||| vmFlagNx)) = some after ∧
      after.kernelPml4 = vmm.kernelPml4 ∧
      (⟨⟨after, [root]⟩, []⟩ : MemoryState).Backed managed root
        (insert (virt / pageSize) region) kernel
          (Function.update frameOf (virt / pageSize) frame) (fun _ => 0) free' tree' ∧
      tree'.Spans root (paths ∪ tablePaths virt) ∧
      (paths ∪ tablePaths virt).card + free'.length = paths.card + rest.length := by
  have hframe := hbacked.holds.freeList.frameOk frame List.mem_cons_self
  have hphysical : frame < 2 ^ 52 :=
    (Nat.lt_add_of_pos_right (by decide)).trans_le hframe.physical
  have hprivate := hbacked.holds.private_alloc
  obtain ⟨pmm, halloc, htaken, -⟩ := hbacked.takeFrame
  obtain ⟨pmm', halloc', -, -, hcleared⟩ := pmmAlloc_cons hbacked.holds.freeList
  obtain rfl : pmm' = pmm := congrArg Prod.fst (Option.some.inj (halloc'.symm.trans halloc))
  obtain ⟨hmissing, hcount⟩ := @Vmm.Holds.missing_of_room _ _ _ _ _ virt 0 _ htaken.holds
    htaken.rooted hspans hroom
  obtain ⟨pmm, tlb, tree', hrun, hholds, hleaf, hadvances, hspan, hagrees⟩ :=
    htaken.holds.writeLeafFilled_advances ⟨⟨[], []⟩, ⟨[], []⟩, ⟨[], []⟩, []⟩ htaken.rooted
      hmissing (mapEntry_lt hphysical)
  rw [writeLeafFilled_nil] at hrun
  have hothers : ∀ virt', virt' / pageSize ∈ region ∨ virt' / pageSize ∈ kernel.pages →
      tree'.leaf root (leafPath virt') = tree.leaf root (leafPath virt') :=
    fun _ hvirt' => hbacked.leaf_of_setLeaf hleaf
      (fun _ => ⟨hcanonical virt rfl, hnew, hother⟩) hvirt'
  have hold : (⟨⟨_, [root]⟩, []⟩ : MemoryState).Backed managed root region kernel frameOf
      (fun _ => 0) _ tree' := htaken.advance hadvances hholds hothers rfl (List.Subset.refl _)
    (hagrees (htaken.active ▸ htaken.rooted) htaken.agrees) rfl
  refine ⟨pmm', _, _, tree', halloc, hrun, rfl, ?_, hspan paths hspans, hcount⟩
  refine hold.insertPage hnew hcanonical ?_ (hprivate.of_advances hadvances)
    (hbacked.freeManaged List.mem_cons_self) (List.not_mem_nil) ?_ ?_
  · intro virt' hpage
    have hpath := (leafPath_eq_iff (hcanonical virt' hpage) (hcanonical virt rfl)).mpr hpage
    rw [hleaf, hpath, setLeaf_leaf_self]
    exact leafTranslation_heapEntry hframe.aligned hphysical
  · rintro page hpage rfl
    exact (hbacked.own page hpage).notFree List.mem_cons_self
  · intro virt' _
    have hlower := Nat.le_add_right frame (virt' % pageSize)
    have hupper := Nat.add_lt_add_left (Nat.mod_lt virt' (show 0 < pageSize by decide)) frame
    refine (hadvances.bytes hprivate _ hlower hupper).trans ?_
    change pmm'.map.physical _ = _
    rw [hcleared, fill_of_mem hlower hupper]

/-- The pages of the heap below an address. -/
def heapPagesBelow (virt : ℕ) : Set ℕ :=
  {page | heapStart / pageSize ≤ page ∧ page < virt / pageSize}

theorem inHeap_iff_mem {virt : ℕ} :
    InHeap virt ↔ virt / pageSize ∈ heapPagesBelow heapEnd := inHeap_iff_page

theorem kmallocInitPages_backed {count fuel virt root : ℕ} {vmm : Vmm} {managed free : List ℕ}
    {kernel : KernelView} {frameOf : ℕ → ℕ} {tree : TableTree} {paths : Finset (List ℕ)}
    (hapart : ∀ virt, InHeap virt → virt / pageSize ∉ kernel.pages) (hfuel : count ≤ fuel)
    (hvirt : virt + count * pageSize = heapEnd) (hstart : heapStart ≤ virt)
    (haligned : virt % pageSize = 0) (hkernel : vmm.kernelPml4 = root)
    (hbacked : (⟨⟨vmm, [root]⟩, []⟩ : MemoryState).Backed managed root (heapPagesBelow virt)
      kernel frameOf (fun _ => 0) free tree)
    (hspans : tree.Spans root paths)
    (hroom : (paths ∪ tablePaths heapStart).card + count ≤ paths.card + free.length) :
    ∃ after frameOf' free' tree', kmallocInitPages fuel virt vmm = some after ∧
      (⟨⟨after, [root]⟩, []⟩ : MemoryState).Backed managed root (heapPagesBelow heapEnd)
        kernel frameOf' (fun _ => 0) free' tree' := by
  induction count generalizing fuel virt vmm free frameOf tree paths with
  | zero =>
      have hdone : virt = heapEnd := by omega
      subst hdone
      refine ⟨vmm, frameOf, free, tree, ?_, hbacked⟩
      cases fuel <;> simp [kmallocInitPages]
  | succ count ih =>
      obtain ⟨fuel, rfl⟩ := Nat.exists_eq_succ_of_ne_zero (by omega : fuel ≠ 0)
      have hheap : InHeap virt := by
        simp only [InHeap, pageSize] at hvirt ⊢
        omega
      have hgrow : paths.card ≤ (paths ∪ tablePaths heapStart).card :=
        Finset.card_le_card Finset.subset_union_left
      obtain ⟨frame, rest, rfl⟩ := List.exists_cons_of_length_pos
        (show 0 < free.length by omega)
      rw [List.length_cons] at hroom
      have htables := tablePaths_heap hheap
      have hcanonical : ∀ virt', virt' / pageSize = virt / pageSize → Canonical virt' := by
        intro virt' hpage
        apply canonical_heap
        rw [inHeap_iff_page, hpage]
        exact inHeap_iff_page.mp hheap
      obtain ⟨pmm, next, free₁, tree₁, halloc, hrun, hkernel₁, hbacked₁, hspans₁, hcount₁⟩ :=
        hbacked.mapPage hspans hcanonical (fun hmem => lt_irrefl _ hmem.2)
          (hapart virt hheap) (by rw [htables]; omega)
      rw [htables] at hspans₁ hcount₁
      have hpage : (virt + pageSize) / pageSize = virt / pageSize + 1 :=
        Nat.add_div_right virt (by decide)
      have hregion : insert (virt / pageSize) (heapPagesBelow virt) =
          heapPagesBelow (virt + pageSize) := by
        have hlower := (inHeap_iff_page.mp hheap).1
        ext page
        simp only [heapPagesBelow, Set.mem_insert_iff, Set.mem_ofPred_eq, hpage]
        omega
      rw [hregion] at hbacked₁
      have hunion : paths ∪ tablePaths heapStart ∪ tablePaths heapStart =
          paths ∪ tablePaths heapStart := by
        rw [Finset.union_assoc, Finset.union_idempotent]
      have hend : heapEnd + pageSize < 2 ^ 64 := by decide
      obtain ⟨after, frameOf', free', tree', hloop, hfinal⟩ :=
        ih (Nat.le_of_succ_le_succ hfuel)
          (show virt + pageSize + count * pageSize = heapEnd by
            rw [← hvirt, Nat.succ_mul]
            omega)
          (by omega) (by simp only [pageSize] at haligned ⊢; omega) (hkernel₁.trans hkernel)
          hbacked₁ hspans₁ (by
            rw [hunion]
            omega)
      refine ⟨after, frameOf', free', tree', ?_, hfinal⟩
      have hwrap : wrap64 (virt + pageSize) = virt + pageSize :=
        wrap64_of_lt (by have := hheap.2; omega)
      have hkmap : vmmKmap { vmm with pmm := pmm } virt frame (vmFlagWrite ||| vmFlagNx) =
          some next := by
        rw [← hrun, ← hkernel]
        rfl
      simp only [kmallocInitPages, if_pos hheap.2, halloc, Option.bind_eq_bind,
        Option.bind_some, hkmap, hwrap, hloop]

/-- After `vmm_init` and `kmalloc_init` the heap is plain memory full of zeros, whatever
the cache holds, if the window shows nothing of the memory map where the heap is.  In every
interleaving of stores to the heap with lookups and evictions, calls of `vmm.c` for pages
of neither the heap nor the kernel, allocations of frames and stores to memory that is not
the allocator's any more, nothing faults and every word of the heap reads as in plain
memory after the same stores.  All the while the pages of the kernel are found as
`vmm_init` left them, and so the accesses of `pmm.c` and `paging.c` to the allocator's
frames reach these frames. -/
theorem heap_refines_plain_memory (vmm : Vmm) (free : List ℕ) (memmap : PhysMemoryMap)
    (sections : KernelSections) (kernelAddress : KernelAddress)
    (hfree : vmm.pmm.FreeList free)
    (hmanaged : ∀ frame ∈ free, MemmapContains memmap frame)
    (hspace : BootSpace vmm.pmm.map.hhdmOffset memmap sections kernelAddress)
    (hlinked : heapEnd ≤ sections.limineRequests.start)
    (hapart : ∀ addr, MemmapContains memmap addr → ¬InHeap (vmm.pmm.map.hhdmOffset + addr))
    (hframes : (requestTables (vmmInitRequests vmm.pmm.map.hhdmOffset memmap sections
      kernelAddress) ∪ tablePaths heapStart).card + heapPages < free.length) :
    ∃ booted mapped, vmmInit vmm memmap sections kernelAddress = some booted ∧
      kmallocInitMap booted = some mapped ∧ mapped.cr3 = booted.kernelPml4 ∧
      ∀ events, MemoryEventsAllowed free mapped.cr3 (heapPagesBelow heapEnd)
          (kernelPages vmm.pmm.map.hhdmOffset memmap sections)
          ⟨⟨mapped, [mapped.cr3]⟩, []⟩ events →
        ∃ state, runMemoryEvents ⟨⟨mapped, [mapped.cr3]⟩, []⟩ events = some state ∧
          (∀ virt, virt / pageSize ∈ kernelPages vmm.pmm.map.hhdmOffset memmap sections →
            translate state.paging.vmm virt =
              walk booted.pmm.map.physical booted.kernelPml4 virt) ∧
          (∀ frame ∈ free, ∀ index < pageSize,
            state.paging.vmm.ShowsAt (frame + index + vmm.pmm.map.hhdmOffset)) ∧
          ∀ width virt, heapStart ≤ virt → virt + width ≤ heapEnd →
            loadWord state.paging.vmm width virt =
              some (load (events.foldl MemoryEvent.apply fun _ => 0) width virt) := by
  have hgrow : (requestTables (vmmInitRequests vmm.pmm.map.hhdmOffset memmap sections
      kernelAddress)).card ≤ (requestTables (vmmInitRequests vmm.pmm.map.hhdmOffset memmap
        sections kernelAddress) ∪ tablePaths heapStart).card :=
    Finset.card_le_card Finset.subset_union_left
  obtain ⟨booted, root, free₁, tree₁, hinit, hkernel, hbooted, hspans, hcount⟩ :=
    vmmInit_backed hfree hspace (by omega)
  have hempty : heapPagesBelow heapStart = ∅ :=
    Set.eq_empty_of_forall_notMem fun page hpage => absurd hpage.2 (Nat.not_lt.mpr hpage.1)
  rw [← hempty] at hbooted
  have hcr3 : booted.cr3 = root := hbooted.active
  obtain ⟨mapped, frameOf, free₂, tree₂, hloop, hmapped⟩ :=
    kmallocInitPages_backed (fun virt => heap_notMem_kernelPages hspace hlinked hapart)
      (show heapPages ≤ pageCount by decide)
      (show heapStart + heapPages * pageSize = heapEnd by decide) le_rfl (by decide)
      hkernel hbooted hspans (by omega)
  obtain rfl : mapped.cr3 = root := hmapped.active
  refine ⟨booted, mapped, hinit, hloop, hkernel.symm, ?_⟩
  intro events hallowed
  obtain ⟨state, free', tree', hrun, hfinal⟩ := hmapped.run hallowed
  have hshown : ∀ virt, virt / pageSize ∈ kernelPages vmm.pmm.map.hhdmOffset memmap
      sections → translate state.paging.vmm virt =
        walk booted.pmm.map.physical booted.cr3 virt :=
    fun virt hvirt => hfinal.translate_kernel hvirt
  refine ⟨state, hrun, ?_, ?_, fun width virt hlower hupper => hfinal.loadWord_eq ?_⟩
  · rw [hkernel, ← hcr3]
    exact hshown
  · intro frame hframe index hindex
    have haligned := (hfree.frameOk frame hframe).aligned
    have hoffset := hspace.window.aligned
    obtain ⟨translation, hwalk, hfound, hwritable⟩ := vmmInit_window hfree hspace
      (by omega) hinit (hmanaged frame hframe) haligned hindex
    refine ⟨translation, (hshown _ (Or.inr ⟨frame, hmanaged frame hframe, ?_⟩)).trans hwalk,
      hwritable, ?_⟩
    · simp only [pageSize] at haligned hindex hoffset ⊢
      omega
    · have hwindow : state.paging.vmm.pmm.map.hhdmOffset = vmm.pmm.map.hhdmOffset :=
        hfinal.offset
      have hindex' : (frame + index + vmm.pmm.map.hhdmOffset) % pageSize = index := by
        simp only [pageSize] at haligned hindex hoffset ⊢
        omega
      rw [hfound, hindex', ← hwindow, DirectMap.translate_window]
  · intro target hfrom hto
    exact inHeap_iff_mem.mp ⟨by omega, by omega⟩

/-- The frames of the free list that `pmm_init` makes are in the memory map. -/
theorem memmapContains_usableFrames {offset frame : ℕ} {memmap : PhysMemoryMap}
    (hboot : BootMap offset memmap)
    (hframe : frame ∈ (usableFrames (memmap.entries.drop 1)).reverse) :
    MemmapContains memmap frame := by
  obtain ⟨entry, hentry, husable, hmem⟩ := mem_usableFrames.mp (List.mem_reverse.mp hframe)
  have hmember := List.mem_of_mem_drop hentry
  obtain ⟨-, hlower, hupper⟩ := mem_frames (hboot.aligned entry hmember husable) hmem
  simp only [pageSize] at hupper
  exact ⟨entry, hmember, hlower, by omega⟩

/-- Two words, one of them across the end of the first page, with a lookup and an
eviction in between. -/
def firstPageStores : List MemoryEvent :=
  [.store 8 heapStart 0x1122334455667788, .fill heapStart, .store 8 (heapStart + 4092) 7,
    .evict heapStart]

/-- The first pages of the heap of a machine with 2.4 MiB. -/
theorem heap_refines_plain_memory_first_page :
    ∃ pmm booted mapped state,
      pmmInit (fun _ => 0) 0xffff800000000000 (heapMap 0xfffffff000) = some pmm ∧
      vmmInit ⟨pmm, 0, 0, fun _ => none⟩ (heapMap 0xfffffff000) fivePageKernel
        fivePageKernelAddress = some booted ∧
      kmallocInitMap booted = some mapped ∧
      runMemoryEvents ⟨⟨mapped, [mapped.cr3]⟩, []⟩ firstPageStores = some state ∧
      state.paging.vmm.ShowsAt 0xffff800000001008 ∧
      loadWord state.paging.vmm 8 heapStart = some 0x1122334455667788 ∧
      loadWord state.paging.vmm 8 (heapStart + 4092) = some 7 ∧
      loadWord state.paging.vmm 8 (heapStart + 8) = some 0 := by
  obtain ⟨pmm, hinit, hfree, hoffset⟩ :=
    pmmInit_spec (fun _ => 0) (bootMap_heapMap 0xfffffff000)
  have hplain := heap_refines_plain_memory ⟨pmm, 0, 0, fun _ => none⟩ _
    (heapMap 0xfffffff000) fivePageKernel fivePageKernelAddress hfree
    (fun frame => memmapContains_usableFrames (bootMap_heapMap _))
  dsimp only at hplain
  rw [hoffset] at hplain
  obtain ⟨booted, mapped, hboot, hmap, -, hreads⟩ := hplain (bootSpace_heapMap (by decide))
    (by decide) (fun addr => apart_heapMap) (frames_heapMap (by decide) (by decide))
  have hpage : ∀ {virt}, heapStart ≤ virt → virt + 8 ≤ heapEnd → ∀ target, virt ≤ target →
      target < virt + 8 → target / pageSize ∈ heapPagesBelow heapEnd :=
    fun hlower hupper target hfrom hto => inHeap_iff_mem.mp ⟨by omega, by omega⟩
  obtain ⟨state, hrun, -, hwindow, hwords⟩ := hreads firstPageStores
    ⟨hpage (by decide) (by decide), fun _ _ => ⟨trivial, fun _ _ =>
      ⟨hpage (by decide) (by decide), fun _ _ => ⟨trivial, fun _ _ => trivial⟩⟩⟩⟩
  have hframe : 0x1000 ∈ (usableFrames ((heapMap 0xfffffff000).entries.drop 1)).reverse := by
    rw [usableFrames_heapMap, List.mem_reverse, mem_pagesFrom]
    exact ⟨0, by decide, rfl⟩
  refine ⟨pmm, booted, mapped, state, hinit, hboot, hmap, hrun,
    hwindow 0x1000 hframe 8 (by decide), ?_, ?_, ?_⟩
  · rw [hwords 8 _ (by decide) (by decide)]
    decide
  · rw [hwords 8 _ (by decide) (by decide)]
    decide
  · rw [hwords 8 _ (by decide) (by decide)]
    decide

end Flurry.Paging
