import Flurry.Memory.KernelSpace
import Flurry.Memory.Kmalloc

/-!
# The pages `kmalloc_init` maps

The heap stands at a fixed address above the usual start of the window onto
physical memory.  Whether the window reaches it depends on the memory map: a
region far enough up has its image where the heap is, and the loop that maps the
heap then takes those pages away from the window.
-/

namespace Flurry.Paging

open ByteMemory PhysicalMemory BitField
open Kmalloc (heapStart heapEnd heapSize)

/-- The loop of `kmalloc_init`, `none` if it is still running after `fuel`
iterations. -/
def kmallocInitPages : ℕ → ℕ → Vmm → Option Vmm
  | 0, virt, vmm => if virt < heapEnd then none else some vmm
  | fuel + 1, virt, vmm =>
      if virt < heapEnd then do
        let (pmm, phys) ← pmmAlloc vmm.pmm
        let vmm ← vmmKmap { vmm with pmm := pmm } virt phys (vmFlagWrite ||| vmFlagNx)
        kmallocInitPages fuel (wrap64 (virt + pageSize)) vmm
      else some vmm

/-- What `kmalloc_init` does before it writes the first chunk. -/
def kmallocInitMap (vmm : Vmm) : Option Vmm := kmallocInitPages pageCount heapStart vmm

/-- The pages of the heap. -/
def heapPages : ℕ := heapSize / pageSize

/-- A page of the heap. -/
def InHeap (virt : ℕ) : Prop := heapStart ≤ virt ∧ virt < heapEnd

instance (virt : ℕ) : Decidable (InHeap virt) :=
  inferInstanceAs (Decidable (_ ∧ _))

/-- One page table spans 2 MiB. -/
theorem tablePaths_congr {virt virt' : ℕ} (hsame : virt / 2 ^ 21 = virt' / 2 ^ 21) :
    tablePaths virt = tablePaths virt' := by
  have hshift : ∀ bits, virt >>> (21 + bits) = virt' >>> (21 + bits) := by
    intro bits
    rw [Nat.shiftRight_add, Nat.shiftRight_add, Nat.shiftRight_eq_div_pow virt,
      Nat.shiftRight_eq_div_pow virt', hsame]
  have h4 : pml4Index virt = pml4Index virt' := congrArg (· &&& 0x1ff) (hshift 18)
  have h3 : pml3Index virt = pml3Index virt' := congrArg (· &&& 0x1ff) (hshift 9)
  have h2 : pml2Index virt = pml2Index virt' := congrArg (· &&& 0x1ff) (hshift 0)
  rw [tablePaths, h4, h3, h2, tablePaths]

theorem tablePaths_heap {virt : ℕ} (hheap : InHeap virt) :
    tablePaths virt = tablePaths heapStart := by
  apply tablePaths_congr
  simp only [InHeap, heapEnd, heapSize, heapStart] at hheap ⊢
  omega

theorem canonical_heap {virt : ℕ} (hheap : InHeap virt) : Canonical virt := by
  simp only [InHeap, heapEnd, heapSize, heapStart] at hheap
  exact Or.inr ⟨by omega, by omega⟩

/-- The loop gives each page of the heap a frame of its own from the allocator and
leaves the other pages alone. -/
theorem kmallocInitPages_spec {count fuel virt root : ℕ} {vmm : Vmm} {free : List ℕ}
    {entries : PageEntries} {paths : Finset (List ℕ)} (hfuel : count ≤ fuel)
    (hvirt : virt + count * pageSize = heapEnd) (hstart : heapStart ≤ virt)
    (haligned : virt % pageSize = 0) (hkernel : vmm.kernelPml4 = root)
    (hmaps : vmm.Maps [root] free entries root paths)
    (hroom : (paths ∪ tablePaths heapStart).card + count ≤ paths.card + free.length) :
    ∃ after free' entries' paths', kmallocInitPages fuel virt vmm = some after ∧
      after.cr3 = vmm.cr3 ∧ after.Maps [root] free' entries' root paths' ∧
        (∀ page, page < virt / pageSize ∨ heapEnd / pageSize ≤ page →
          entries' root page = entries root page) ∧
        (∀ page, virt / pageSize ≤ page → page < heapEnd / pageSize →
          ∃ frame ∈ free,
            entries' root page = mapEntry frame (vmFlagWrite ||| vmFlagNx)) ∧
        after.kernelPml4 = root ∧ paths' ⊆ paths ∪ tablePaths heapStart ∧
          paths'.card + free'.length + count = paths.card + free.length := by
  induction count generalizing fuel virt vmm free entries paths with
  | zero =>
      have hdone : ¬virt < heapEnd := by omega
      refine ⟨vmm, free, entries, paths, ?_, rfl, hmaps, fun page _ => rfl, ?_, hkernel,
        Finset.subset_union_left, rfl⟩
      · cases fuel <;> simp [kmallocInitPages, hdone]
      · intro page hlower hupper
        rw [← hvirt, Nat.zero_mul, Nat.add_zero] at hupper
        omega
  | succ count ih =>
      obtain ⟨fuel, rfl⟩ := Nat.exists_eq_succ_of_ne_zero (by omega : fuel ≠ 0)
      have hheap : InHeap virt := by
        simp only [InHeap, pageSize] at hvirt ⊢
        omega
      have hgrow : paths.card ≤ (paths ∪ tablePaths heapStart).card :=
        Finset.card_le_card Finset.subset_union_left
      obtain ⟨frame, rest, rfl⟩ := List.exists_cons_of_length_pos
        (show 0 < free.length by omega)
      rw [List.length_cons] at hroom
      have hframe := hmaps.frameOk (List.mem_cons_self : frame ∈ frame :: rest)
      have hphysical : frame < 2 ^ 52 :=
        (Nat.lt_add_of_pos_right (by decide)).trans_le hframe.physical
      obtain ⟨pmm, halloc, hallocated⟩ := hmaps.alloc
      have hvalid : KmapRequest.Valid ⟨virt, frame, vmFlagWrite ||| vmFlagNx⟩ :=
        ⟨canonical_heap hheap, hphysical⟩
      have htables := tablePaths_heap hheap
      obtain ⟨next, free₁, hrun, hkernel₁, hcr3₁, hmaps₁, hsuffix, hcount₁⟩ :=
        KmapRequest.run_spec hallocated List.mem_cons_self hkernel hvalid (by
          dsimp only
          rw [htables]
          omega)
      dsimp only at hmaps₁ hcount₁
      rw [htables] at hmaps₁ hcount₁
      have hunion : paths ∪ tablePaths heapStart ∪ tablePaths heapStart =
          paths ∪ tablePaths heapStart := by
        rw [Finset.union_assoc, Finset.union_idempotent]
      have hend : heapEnd + pageSize < 2 ^ 64 := by decide
      have hvirt' : virt + pageSize + count * pageSize = heapEnd := by
        rw [← hvirt, Nat.succ_mul]
        omega
      obtain ⟨after, free', entries', paths', hloop, hcr3, hmaps', hkept, hmapped, hkernel',
        hsubset, hcount⟩ :=
        ih (Nat.le_of_succ_le_succ hfuel) hvirt' (by omega)
          (by simp only [pageSize] at haligned ⊢; omega) hkernel₁ hmaps₁ (by
            rw [hunion]
            omega)
      have hpage : (virt + pageSize) / pageSize = virt / pageSize + 1 :=
        Nat.add_div_right virt (by decide)
      rw [hpage] at hkept hmapped
      refine ⟨after, free', entries', paths', ?_, hcr3.trans hcr3₁, hmaps', ?_, ?_, hkernel',
        hsubset.trans hunion.subset, by rw [List.length_cons]; omega⟩
      · have hwrap : wrap64 (virt + pageSize) = virt + pageSize :=
          wrap64_of_lt (by have := hheap.2; omega)
        rw [KmapRequest.run] at hrun
        simp only [kmallocInitPages, if_pos hheap.2, halloc, Option.bind_eq_bind,
          Option.bind_some, hrun, hwrap, hloop]
      · intro page houtside
        rw [hkept page (by omega), PageEntries.set_of_ne]
        rintro ⟨-, rfl⟩
        have hbelow : virt / pageSize < heapEnd / pageSize :=
          Nat.div_lt_div_of_lt_of_dvd (by decide) hheap.2
        omega
      · intro page hlower hupper
        by_cases hfirst : page = virt / pageSize
        · refine ⟨frame, List.mem_cons_self, ?_⟩
          rw [hkept page (by omega), hfirst, PageEntries.set_self rfl]
          rfl
        · obtain ⟨other, hother, hentry⟩ := hmapped page (by omega) hupper
          exact ⟨other, List.mem_cons_of_mem frame (hsuffix.subset hother), hentry⟩

/-- The heap consists of whole pages. -/
theorem inHeap_iff_page {virt : ℕ} :
    InHeap virt ↔ heapStart / pageSize ≤ virt / pageSize ∧
      virt / pageSize < heapEnd / pageSize := by
  simp only [InHeap, heapEnd, heapSize, heapStart, pageSize]
  omega

/-- The heap shares no page with the image and the window. -/
theorem heap_notMem_kernelPages {hhdmOffset : ℕ} {memmap : PhysMemoryMap}
    {sections : KernelSections} {kernelAddress : KernelAddress}
    (hspace : BootSpace hhdmOffset memmap sections kernelAddress)
    (hlinked : heapEnd ≤ sections.limineRequests.start)
    (hapart : ∀ addr, MemmapContains memmap addr → ¬InHeap (hhdmOffset + addr)) {virt : ℕ}
    (hheap : InHeap virt) : virt / pageSize ∉ kernelPages hhdmOffset memmap sections := by
  have hpages := inHeap_iff_page.mp hheap
  rintro (⟨other, ⟨part, hpart, hcontains⟩, hpage⟩ | ⟨addr, haddr, hpage⟩)
  · have hother : InHeap other := inHeap_iff_page.mpr (hpage ▸ hpages)
    have hbounds := (hspace.part_bounds hpart).1
    have hlower := hcontains.1
    have hupper := hother.2
    omega
  · exact hapart addr haddr (inHeap_iff_page.mpr (hpage ▸ hpages))

section Boot

variable {vmm : Vmm} {free : List ℕ} {memmap : PhysMemoryMap} {sections : KernelSections}
variable {kernelAddress : KernelAddress}

/-- Both initialisations run through if there is a frame for the root, for each table
and for each page of the heap.  The frames that they do not need stay free. -/
theorem kernelBoot_room (hfree : vmm.pmm.FreeList free)
    (hspace : BootSpace vmm.pmm.map.hhdmOffset memmap sections kernelAddress)
    (hframes : (requestTables (vmmInitRequests vmm.pmm.map.hhdmOffset memmap sections
      kernelAddress) ∪ tablePaths heapStart).card + heapPages < free.length) :
    ∃ booted after root freeBooted freeAfter entries pathsBooted pathsAfter,
      vmmInit vmm memmap sections kernelAddress = some booted ∧
      kmallocInitMap booted = some after ∧
      (booted.cr3 = root ∧ booted.kernelPml4 = root ∧ after.cr3 = root) ∧
      booted.Maps [root] freeBooted (requestEntries root (vmmInitRequests
        vmm.pmm.map.hhdmOffset memmap sections kernelAddress) .empty) root pathsBooted ∧
      after.Maps [root] freeAfter entries root pathsAfter ∧
      (∀ virt, ¬InHeap virt → entries root (virt / pageSize) =
        requestEntries root (vmmInitRequests vmm.pmm.map.hhdmOffset memmap sections
          kernelAddress) .empty root (virt / pageSize)) ∧
      (∀ virt, InHeap virt → ∃ frame ∈ free, entries root (virt / pageSize) =
        mapEntry frame (vmFlagWrite ||| vmFlagNx)) ∧
      after.kernelPml4 = root ∧
      pathsAfter ⊆ requestTables (vmmInitRequests vmm.pmm.map.hhdmOffset memmap sections
        kernelAddress) ∪ tablePaths heapStart ∧
      pathsAfter.card + freeAfter.length + heapPages + 1 = free.length := by
  have hgrow : (requestTables (vmmInitRequests vmm.pmm.map.hhdmOffset memmap sections
      kernelAddress)).card ≤ (requestTables (vmmInitRequests vmm.pmm.map.hhdmOffset memmap
        sections kernelAddress) ∪ tablePaths heapStart).card :=
    Finset.card_le_card Finset.subset_union_left
  obtain ⟨booted, root, freeBooted, hinit, hcr3, hkernel, hmaps, hsuffix, hcount⟩ :=
    vmmInit_spec hfree hspace (by omega)
  obtain ⟨after, freeAfter, entries, pathsAfter, hloop, hcr3', hmaps', hkept, hmapped,
    hkernel', hsubset, hcount'⟩ :=
    kmallocInitPages_spec (show heapPages ≤ pageCount by decide)
      (show heapStart + heapPages * pageSize = heapEnd by decide) le_rfl (by decide)
      hkernel hmaps (by omega)
  refine ⟨booted, after, root, freeBooted, freeAfter, entries, _, pathsAfter, hinit, hloop,
    ⟨hcr3, hkernel, hcr3'.trans hcr3⟩, hmaps, hmaps', ?_, ?_, hkernel', hsubset, by omega⟩
  · intro virt houtside
    apply hkept
    rw [inHeap_iff_page] at houtside
    omega
  · intro virt hheap
    obtain ⟨hlower, hupper⟩ := inHeap_iff_page.mp hheap
    obtain ⟨frame, hframe, hentry⟩ := hmapped _ hlower hupper
    exact ⟨frame, hsuffix.subset hframe, hentry⟩

theorem kernelBoot_spec (hfree : vmm.pmm.FreeList free)
    (hspace : BootSpace vmm.pmm.map.hhdmOffset memmap sections kernelAddress)
    (hframes : (requestTables (vmmInitRequests vmm.pmm.map.hhdmOffset memmap sections
      kernelAddress) ∪ tablePaths heapStart).card + heapPages < free.length) :
    ∃ booted after root freeBooted freeAfter entries pathsBooted pathsAfter,
      vmmInit vmm memmap sections kernelAddress = some booted ∧
      kmallocInitMap booted = some after ∧
      (booted.cr3 = root ∧ booted.kernelPml4 = root ∧ after.cr3 = root) ∧
      booted.Maps [root] freeBooted (requestEntries root (vmmInitRequests
        vmm.pmm.map.hhdmOffset memmap sections kernelAddress) .empty) root pathsBooted ∧
      after.Maps [root] freeAfter entries root pathsAfter ∧
      (∀ virt, ¬InHeap virt → entries root (virt / pageSize) =
        requestEntries root (vmmInitRequests vmm.pmm.map.hhdmOffset memmap sections
          kernelAddress) .empty root (virt / pageSize)) ∧
      ∀ virt, InHeap virt → ∃ frame ∈ free, entries root (virt / pageSize) =
        mapEntry frame (vmFlagWrite ||| vmFlagNx) := by
  obtain ⟨booted, after, root, freeBooted, freeAfter, entries, pathsBooted, pathsAfter, hinit,
    hloop, hroots, hmaps, hmaps', hkept, hheap, -⟩ := kernelBoot_room hfree hspace hframes
  exact ⟨booted, after, root, freeBooted, freeAfter, entries, pathsBooted, pathsAfter, hinit,
    hloop, hroots, hmaps, hmaps', hkept, hheap⟩

end Boot

/-- `vmm_init` leaves the pages of the heap unmapped exactly if the window shows no
address of the memory map there, and in that case all of the memory map is still found
in the window after `kmalloc_init`. -/
theorem heap_unmapped_iff_window_apart (vmm : Vmm) (free : List ℕ)
    (memmap : PhysMemoryMap) (sections : KernelSections) (kernelAddress : KernelAddress)
    (hfree : vmm.pmm.FreeList free)
    (hspace : BootSpace vmm.pmm.map.hhdmOffset memmap sections kernelAddress)
    (hlinked : heapEnd ≤ sections.limineRequests.start)
    (hframes : (requestTables (vmmInitRequests vmm.pmm.map.hhdmOffset memmap sections
      kernelAddress) ∪ tablePaths heapStart).card + heapPages < free.length) :
    ∃ booted after, vmmInit vmm memmap sections kernelAddress = some booted ∧
      kmallocInitMap booted = some after ∧
      ((∀ virt, InHeap virt →
          walk booted.pmm.map.physical booted.kernelPml4 virt = none) ↔
        ∀ addr, MemmapContains memmap addr → ¬InHeap (vmm.pmm.map.hhdmOffset + addr)) ∧
      ((∀ addr, MemmapContains memmap addr →
          ¬InHeap (vmm.pmm.map.hhdmOffset + addr)) →
        ∀ addr, MemmapContains memmap addr →
          after.lookup (vmm.pmm.map.hhdmOffset + addr) = some (addr, true)) := by
  obtain ⟨booted, after, root, freeBooted, freeAfter, entries, pathsBooted, pathsAfter, hinit,
    hloop, ⟨hcr3, hkernel, hcr3'⟩, hmaps, hmaps', hkept, -⟩ :=
    kernelBoot_spec hfree hspace hframes
  refine ⟨booted, after, hinit, hloop, ⟨?_, ?_⟩, ?_⟩
  · intro hunmapped addr haddr hheap
    have hfound := lookup_window hspace hcr3 hmaps haddr (hspace.window_entry haddr)
    rw [Vmm.lookup, hcr3, ← hkernel, hunmapped _ hheap] at hfound
    exact absurd hfound (by simp)
  · intro hapart virt hheap
    have hother := heap_notMem_kernelPages hspace hlinked hapart hheap
    rw [hkernel, hmaps.walk_eq List.mem_cons_self (canonical_heap hheap),
      hspace.other_entry, leafTranslation_zero]
    · exact fun other hpage hcontains => hother (Or.inl ⟨other, hcontains, hpage⟩)
    · exact fun addr hpage haddr => hother (Or.inr ⟨addr, haddr, hpage⟩)
  · intro hapart addr haddr
    apply lookup_window hspace hcr3' hmaps' haddr
    rw [hkept _ (hapart addr haddr), hspace.window_entry haddr]

/-- Enough memory for the tables and the heap, and one more page at `base`. -/
def heapMap (base : ℕ) : PhysMemoryMap where
  entries := [⟨0, 0x1000, .reserved⟩, ⟨0x1000, 0x260000, .usable⟩, ⟨base, 0x1000, .reserved⟩]

theorem bootMap_heapMap (base : ℕ) : BootMap 0xffff800000000000 (heapMap base) where
  higherHalf := by decide
  aligned := by simp [heapMap, pageSize]
  positive := by simp [heapMap]
  physical := by simp [heapMap]
  mapped := by simp [heapMap]
  disjoint := by simp [heapMap]

theorem bootSpace_heapMap {base : ℕ} (hbase : base + 0x1000 ≤ 2 ^ 46) :
    BootSpace 0xffff800000000000 (heapMap base) fivePageKernel fivePageKernelAddress := by
  apply bootSpace_fivePageKernel
  · simp [heapMap]
  · simpa [heapMap] using hbase

theorem usableFrames_heapMap (base : ℕ) :
    usableFrames ((heapMap base).entries.drop 1) = pagesFrom 0x1000 0x260 := by
  simp [usableFrames, heapMap, PhysMemoryRegion.frames, pageSize]

/-- Five page tables at most, each with the two tables above it. -/
theorem card_tables_heapMap {base : ℕ} (haligned : base % pageSize = 0)
    (hbase : base + 0x1000 ≤ 2 ^ 46) :
    (requestTables (vmmInitRequests 0xffff800000000000 (heapMap base) fivePageKernel
      fivePageKernelAddress) ∪ tablePaths heapStart).card ≤ 15 := by
  have hthree : ∀ virt, (tablePaths virt).card ≤ 3 := fun virt => Finset.card_le_three
  have hspace := bootSpace_heapMap hbase
  have hsubset : requestTables (vmmInitRequests 0xffff800000000000 (heapMap base)
      fivePageKernel fivePageKernelAddress) ⊆
        tablePaths 0xffffffff80000000 ∪ (tablePaths 0xffff800000000000 ∪
          (tablePaths 0xffff800000200000 ∪ tablePaths (0xffff800000000000 + base))) := by
    apply requestTables_subset
    intro request hmem
    rcases hspace.mem_requests.mp hmem with ⟨part, hpart, page, -, hcontains, rfl⟩ |
      ⟨addr, ⟨entry, hentry, hlower, hupper⟩, rfl⟩
    · have hpage := le_of_fivePageKernel_contains ⟨part, hpart, hcontains⟩
      have hend : ∀ part ∈ fivePageKernel.parts, part.1.stop ≤ 0xffffffff80004800 := by
        decide
      have hpage' := hcontains.2.trans_le (hend part hpart)
      have hslot : page / 2 ^ 21 = 0xffffffff80000000 / 2 ^ 21 := by omega
      rw [tablePaths_congr hslot]
      exact Finset.subset_union_left
    · have hslot : (0xffff800000000000 + addr) / 4096 * 4096 / 2 ^ 21 =
            0xffff800000000000 / 2 ^ 21 ∨
          (0xffff800000000000 + addr) / 4096 * 4096 / 2 ^ 21 =
            0xffff800000200000 / 2 ^ 21 ∨
          (0xffff800000000000 + addr) / 4096 * 4096 / 2 ^ 21 =
            (0xffff800000000000 + base) / 2 ^ 21 := by
        simp only [heapMap, List.mem_cons, List.not_mem_nil, or_false, pageSize]
          at hentry haligned
        rcases hentry with rfl | rfl | rfl <;> dsimp only at hlower hupper <;> omega
      rcases hslot with hslot | hslot | hslot
      · exact (tablePaths_congr hslot).subset.trans
          (Finset.subset_union_left.trans Finset.subset_union_right)
      · exact (tablePaths_congr hslot).subset.trans (Finset.subset_union_left.trans
          (Finset.subset_union_right.trans Finset.subset_union_right))
      · exact (tablePaths_congr hslot).subset.trans (Finset.subset_union_right.trans
          (Finset.subset_union_right.trans Finset.subset_union_right))
  calc _ ≤ (tablePaths 0xffffffff80000000 ∪ (tablePaths 0xffff800000000000 ∪
          (tablePaths 0xffff800000200000 ∪ tablePaths (0xffff800000000000 + base))) ∪
            tablePaths heapStart).card :=
        Finset.card_le_card (Finset.union_subset_union_left hsubset)
    _ ≤ 3 + (3 + (3 + 3)) + 3 := by
        refine (Finset.card_union_le _ _).trans (Nat.add_le_add ?_ (hthree _))
        refine (Finset.card_union_le _ _).trans (Nat.add_le_add (hthree _) ?_)
        refine (Finset.card_union_le _ _).trans (Nat.add_le_add (hthree _) ?_)
        exact (Finset.card_union_le _ _).trans (Nat.add_le_add (hthree _) (hthree _))

/-- The frames of the map are enough for the tables and the heap. -/
theorem frames_heapMap {base : ℕ} (haligned : base % pageSize = 0)
    (hbase : base + 0x1000 ≤ 2 ^ 46) :
    (requestTables (vmmInitRequests 0xffff800000000000 (heapMap base) fivePageKernel
      fivePageKernelAddress) ∪ tablePaths heapStart).card + heapPages <
        (usableFrames ((heapMap base).entries.drop 1)).reverse.length := by
  have hcard := card_tables_heapMap haligned hbase
  have hheap : heapPages = 0x200 := by decide
  rw [List.length_reverse, usableFrames_heapMap, length_pagesFrom, hheap]
  omega

/-- The window shows nothing of this map where the heap is. -/
theorem apart_heapMap {addr : ℕ} (haddr : MemmapContains (heapMap 0xfffffff000) addr) :
    ¬InHeap (0xffff800000000000 + addr) := by
  obtain ⟨entry, hentry, -, hupper⟩ := haddr
  intro hheap
  have hlower := hheap.1
  simp only [heapStart] at hlower
  simp only [heapMap, List.mem_cons, List.not_mem_nil, or_false] at hentry
  rcases hentry with rfl | rfl | rfl <;> dsimp only at hupper <;> omega

/-- A reserved page just below 1 TiB is shown just below the heap. -/
theorem heap_unmapped_iff_window_apart_below :
    ∃ pmm booted after,
      pmmInit (fun _ => 0) 0xffff800000000000 (heapMap 0xfffffff000) = some pmm ∧
      vmmInit ⟨pmm, 0, 0, fun _ => none⟩ (heapMap 0xfffffff000) fivePageKernel
        fivePageKernelAddress = some booted ∧
      kmallocInitMap booted = some after ∧
      walk booted.pmm.map.physical booted.kernelPml4 heapStart = none ∧
      after.lookup 0xffff80fffffff123 = some (0xfffffff123, true) := by
  obtain ⟨pmm, hinit, hfree, hoffset⟩ :=
    pmmInit_spec (fun _ => 0) (bootMap_heapMap 0xfffffff000)
  have happly := heap_unmapped_iff_window_apart ⟨pmm, 0, 0, fun _ => none⟩ _
    (heapMap 0xfffffff000) fivePageKernel fivePageKernelAddress hfree
  dsimp only at happly
  rw [hoffset] at happly
  obtain ⟨booted, after, hrun, hmap, hunmapped, hfound⟩ := happly
    (bootSpace_heapMap (by decide)) (by decide) (frames_heapMap (by decide) (by decide))
  have hapart := fun addr => @apart_heapMap addr
  refine ⟨pmm, booted, after, hinit, hrun, hmap, hunmapped.mpr hapart _ (by decide), ?_⟩
  exact hfound hapart 0xfffffff123
    ⟨⟨0xfffffff000, 0x1000, .reserved⟩, by simp [heapMap], by decide, by decide⟩

/-- A reserved page at 1 TiB is shown where the heap starts: `vmm_init` maps the page and
`kmalloc_init` maps it again to a frame of its own. -/
theorem heap_takes_page_of_window :
    ∃ pmm booted after,
      pmmInit (fun _ => 0) 0xffff800000000000 (heapMap 0x10000000000) = some pmm ∧
      vmmInit ⟨pmm, 0, 0, fun _ => none⟩ (heapMap 0x10000000000) fivePageKernel
        fivePageKernelAddress = some booted ∧
      kmallocInitMap booted = some after ∧
      MemmapContains (heapMap 0x10000000000) 0x10000000000 ∧
      heapStart = 0xffff800000000000 + 0x10000000000 ∧
      booted.lookup heapStart = some (0x10000000000, true) ∧
      after.lookup heapStart ≠ some (0x10000000000, true) := by
  obtain ⟨pmm, hinit, hfree, hoffset⟩ :=
    pmmInit_spec (fun _ => 0) (bootMap_heapMap 0x10000000000)
  have hspace : BootSpace 0xffff800000000000 (heapMap 0x10000000000) fivePageKernel
      fivePageKernelAddress := bootSpace_heapMap (by decide)
  have hboot := @kernelBoot_spec ⟨pmm, 0, 0, fun _ => none⟩ _ (heapMap 0x10000000000)
    fivePageKernel fivePageKernelAddress hfree
  dsimp only at hboot
  rw [hoffset] at hboot
  obtain ⟨booted, after, root, freeBooted, freeAfter, entries, pathsBooted, pathsAfter, hrun,
    hmap, ⟨hcr3, -, hcr3'⟩, hmaps, hmaps', -, hheap⟩ :=
    hboot hspace (frames_heapMap (by decide) (by decide))
  have haddr : MemmapContains (heapMap 0x10000000000) 0x10000000000 :=
    ⟨⟨0x10000000000, 0x1000, .reserved⟩, by simp [heapMap], by decide, by decide⟩
  have hstart : heapStart = 0xffff800000000000 + 0x10000000000 := by decide
  refine ⟨pmm, booted, after, hinit, hrun, hmap, haddr, hstart, ?_, ?_⟩
  · rw [hstart]
    exact lookup_window hspace hcr3 hmaps haddr (hspace.window_entry haddr)
  · obtain ⟨frame, hframe, hentry⟩ := hheap heapStart (by decide)
    have hok := hfree.frameOk frame hframe
    have hphysical : frame < 2 ^ 52 :=
      (Nat.lt_add_of_pos_right (by decide)).trans_le hok.physical
    have hwalk : walk after.pmm.map.physical after.cr3 heapStart =
        leafTranslation (mapEntry frame (vmFlagWrite ||| vmFlagNx)) := by
      rw [hcr3', hmaps'.walk_eq List.mem_cons_self (by decide), hentry]
    have hlow : frame < 0x10000000000 := by
      rw [usableFrames_heapMap, List.mem_reverse, mem_pagesFrom] at hframe
      obtain ⟨index, hindex, rfl⟩ := hframe
      simp only [pageSize]
      omega
    rw [lookup_of_mapEntry hwalk ⟨hok.aligned, hphysical, by decide⟩]
    intro hsame
    have hzero : heapStart % pageSize = 0 := by decide
    have hequal := congrArg Prod.fst (Option.some.inj hsame)
    simp only [hzero] at hequal
    omega

end Flurry.Paging
