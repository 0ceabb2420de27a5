import Flurry.Memory.PageEntries

/-!
# The kernel's address space of `vmm_init`

Four loops map the sections of the kernel image and a fifth maps every region of
the memory map into the higher-half window.  The loops are run together as one
list of requests to `vmm_kmap`; the entries and the frames that are left are read
off that list.
-/

namespace Flurry.Paging

open ByteMemory PhysicalMemory BitField

def alignUp (addr align : ℕ) : ℕ :=
  wrap64 (addr + align - 1) &&& complement64 (align - 1)

def alignDown (addr align : ℕ) : ℕ := addr &&& complement64 (align - 1)

/-- Two of the symbols `linker.ld` defines. -/
structure SectionRange where
  start : ℕ
  stop : ℕ
  deriving DecidableEq, Repr

/-- The ranges between the `_START` and `_END` symbols. -/
structure KernelSections where
  text : SectionRange
  rodata : SectionRange
  data : SectionRange
  limineRequests : SectionRange
  deriving DecidableEq, Repr

/-- Where the loader put the kernel. -/
structure KernelAddress where
  virt : ℕ
  phys : ℕ
  deriving DecidableEq, Repr

/-- A loop of `vmm_init` that maps one page in each iteration, `none` if it is
still running after `fuel` iterations. -/
def kmapPages (virt phys : ℕ → ℕ) (flags stop : ℕ) : ℕ → ℕ → Vmm → Option Vmm
  | 0, cursor, vmm => if cursor < stop then none else some vmm
  | fuel + 1, cursor, vmm =>
      if cursor < stop then do
        let vmm ← vmmKmap vmm (virt cursor) (phys cursor) flags
        kmapPages virt phys flags stop fuel (wrap64 (cursor + pageSize)) vmm
      else some vmm

/-- The loop over the pages of one section. -/
def kmapSection (range : SectionRange) (kernelVirtToPhysOffset flags : ℕ)
    (vmm : Vmm) : Option Vmm :=
  kmapPages (fun virt => virt) (fun virt => sub64 virt kernelVirtToPhysOffset) flags
    range.stop pageCount range.start vmm

/-- The loop over the pages of one region of physical memory. -/
def kmapRegion (hhdmOffset : ℕ) (vmm : Vmm) (entry : PhysMemoryRegion) : Option Vmm :=
  kmapPages (fun phys => wrap64 (phys + hhdmOffset)) (fun phys => phys)
    (vmFlagWrite ||| vmFlagNx)
    (alignUp (wrap64 (entry.base + entry.length)) pageSize) pageCount
    (alignDown entry.base pageSize) vmm

/-- `kinit` passes `vmm_init` the offset it passed `pmm_init`. -/
def vmmInit (vmm : Vmm) (memmap : PhysMemoryMap) (sections : KernelSections)
    (kernelAddress : KernelAddress) : Option Vmm := do
  let hhdmOffset := vmm.pmm.map.hhdmOffset
  let (pmm, kernelPml4) ← pmmAlloc vmm.pmm
  let vmm := { vmm with pmm := pmm, kernelPml4 := kernelPml4 }
  let offset := sub64 kernelAddress.virt kernelAddress.phys
  let vmm ← kmapSection sections.text offset vmFlagDefault vmm
  let vmm ← kmapSection sections.rodata offset vmFlagNx vmm
  let vmm ← kmapSection sections.data offset (vmFlagWrite ||| vmFlagNx) vmm
  let vmm ← kmapSection sections.limineRequests offset vmFlagNx vmm
  let vmm ← memmap.entries.foldlM (kmapRegion hhdmOffset) vmm
  return vmmLoadPml4 vmm kernelPml4

/-! ## Requests -/

/-- The arguments of one call of `vmm_kmap`. -/
structure KmapRequest where
  virt : ℕ
  phys : ℕ
  flags : ℕ
  deriving DecidableEq, Repr

namespace KmapRequest

def run (vmm : Vmm) (request : KmapRequest) : Option Vmm :=
  vmmKmap vmm request.virt request.phys request.flags

/-- The entry that the call stores. -/
def entry (request : KmapRequest) : ℕ := mapEntry request.phys request.flags

/-- A canonical address and a physical address that an entry can hold. -/
structure Valid (request : KmapRequest) : Prop where
  canonical : Canonical request.virt
  physical : request.phys < 2 ^ 52

end KmapRequest

/-- All tables that the requests pass through. -/
def requestTables : List KmapRequest → Finset (List ℕ)
  | [] => ∅
  | request :: requests => tablePaths request.virt ∪ requestTables requests

theorem requestTables_subset {requests : List KmapRequest} {paths : Finset (List ℕ)}
    (hpaths : ∀ request ∈ requests, tablePaths request.virt ⊆ paths) :
    requestTables requests ⊆ paths := by
  induction requests with
  | nil => exact Finset.empty_subset paths
  | cons request requests ih =>
      exact Finset.union_subset (hpaths request List.mem_cons_self)
        (ih fun other hother => hpaths other (List.mem_cons_of_mem request hother))

/-- The entries after the requests were made for the tables under `root`. -/
def requestEntries (root : ℕ) (requests : List KmapRequest) (entries : PageEntries) :
    PageEntries :=
  requests.foldl (fun entries request => entries.set root request.virt request.entry)
    entries

section RequestEntries

variable {root page : ℕ} {requests : List KmapRequest} {entries : PageEntries}

theorem requestEntries_of_not_mem
    (hpage : ∀ request ∈ requests, request.virt / pageSize ≠ page) :
    requestEntries root requests entries root page = entries root page := by
  induction requests generalizing entries with
  | nil => rfl
  | cons request requests ih =>
      have hrest := fun other hother => hpage other (List.mem_cons_of_mem request hother)
      have hne := hpage request List.mem_cons_self
      rw [requestEntries, List.foldl_cons, ← requestEntries, ih hrest,
        PageEntries.set_of_ne (fun hand => hne hand.2.symm)]

/-- If the requests for a page agree, the page gets what they ask for. -/
theorem requestEntries_of_mem {value : ℕ}
    (hsome : ∃ request ∈ requests, request.virt / pageSize = page)
    (hagree : ∀ request ∈ requests, request.virt / pageSize = page →
      request.entry = value) :
    requestEntries root requests entries root page = value := by
  induction requests generalizing entries with
  | nil => simp at hsome
  | cons first requests ih =>
      have hrest := fun other hother =>
        hagree other (List.mem_cons_of_mem first hother)
      rw [requestEntries, List.foldl_cons, ← requestEntries]
      by_cases hlater : ∃ request ∈ requests, request.virt / pageSize = page
      · exact ih hlater hrest
      · have hfirst : first.virt / pageSize = page := by
          obtain ⟨request, hmem, hpage⟩ := hsome
          rcases List.mem_cons.mp hmem with rfl | hmem
          · exact hpage
          · exact absurd ⟨request, hmem, hpage⟩ hlater
        rw [requestEntries_of_not_mem
            (fun other hother heq => hlater ⟨other, hother, heq⟩),
          PageEntries.set_self hfirst.symm, hagree first List.mem_cons_self hfirst]

end RequestEntries

theorem card_union_le_of_subset {α : Type*} [DecidableEq α] {left middle right : Finset α}
    (hsubset : middle ⊆ right) : (left ∪ middle).card ≤ (left ∪ right).card :=
  Finset.card_le_card (Finset.union_subset_union_right hsubset)

/-- One call of `vmm_kmap`. -/
theorem KmapRequest.run_spec {vmm : Vmm} {roots free : List ℕ} {entries : PageEntries}
    {root : ℕ} {paths : Finset (List ℕ)} {request : KmapRequest}
    (hmaps : vmm.Maps roots free entries root paths) (hroot : root ∈ roots)
    (hkernel : vmm.kernelPml4 = root) (hvalid : request.Valid)
    (hroom : (paths ∪ tablePaths request.virt).card ≤ paths.card + free.length) :
    ∃ after free', request.run vmm = some after ∧ after.kernelPml4 = root ∧
      after.cr3 = vmm.cr3 ∧
        after.Maps roots free' (entries.set root request.virt request.entry) root
          (paths ∪ tablePaths request.virt) ∧ free' <:+ free ∧
            (paths ∪ tablePaths request.virt).card + free'.length =
              paths.card + free.length := by
  subst hkernel
  have hentry : request.entry < 2 ^ 64 := mapEntry_lt hvalid.physical
  obtain ⟨pmm, free', hrun, hmaps', hsuffix, hcount⟩ :=
    hmaps.writeLeaf hroot hvalid.canonical hroom hentry
  refine ⟨_, free', hrun, invlpgIfNeeded_kernelPml4 _ _ _, ?_,
    hmaps'.of_pmm_eq (invlpgIfNeeded_pmm _ _ _), hsuffix, hcount⟩
  · rw [invlpgIfNeeded]
    split <;> rfl

/-- All calls succeed if the frames last for the tables that they lack. -/
theorem kmapRequests_spec {vmm : Vmm} {roots free : List ℕ} {entries : PageEntries}
    {root : ℕ} {paths : Finset (List ℕ)} {requests : List KmapRequest}
    (hmaps : vmm.Maps roots free entries root paths) (hroot : root ∈ roots)
    (hkernel : vmm.kernelPml4 = root) (hvalid : ∀ request ∈ requests, request.Valid)
    (hroom : (paths ∪ requestTables requests).card ≤ paths.card + free.length) :
    ∃ after free', requests.foldlM KmapRequest.run vmm = some after ∧
      after.kernelPml4 = root ∧ after.cr3 = vmm.cr3 ∧
        after.Maps roots free' (requestEntries root requests entries) root
          (paths ∪ requestTables requests) ∧ free' <:+ free ∧
            (paths ∪ requestTables requests).card + free'.length =
              paths.card + free.length := by
  induction requests generalizing vmm free entries paths with
  | nil =>
      have hnone : paths ∪ requestTables [] = paths := Finset.union_empty paths
      rw [hnone]
      exact ⟨vmm, free, rfl, hkernel, rfl, hmaps, List.suffix_rfl, rfl⟩
  | cons request requests ih =>
      have hfirst : (paths ∪ tablePaths request.virt).card ≤ paths.card + free.length :=
        (card_union_le_of_subset Finset.subset_union_left).trans hroom
      have hunion : paths ∪ requestTables (request :: requests) =
          paths ∪ tablePaths request.virt ∪ requestTables requests :=
        (Finset.union_assoc _ _ _).symm
      obtain ⟨next, free₁, hrun, hkernel₁, hcr3₁, hmaps₁, hsuffix₁, hcount₁⟩ :=
        KmapRequest.run_spec hmaps hroot hkernel (hvalid request List.mem_cons_self) hfirst
      rw [hunion] at hroom ⊢
      obtain ⟨after, free₂, hrest, hkernel₂, hcr3₂, hmaps₂, hsuffix₂, hcount₂⟩ := ih hmaps₁
        hkernel₁ (fun other hother => hvalid other (List.mem_cons_of_mem request hother))
        (hroom.trans hcount₁.ge)
      refine ⟨after, free₂, ?_, hkernel₂, hcr3₂.trans hcr3₁, hmaps₂,
        hsuffix₂.trans hsuffix₁, hcount₂.trans hcount₁⟩
      simp only [List.foldlM_cons, hrun, Option.bind_eq_bind, Option.bind_some, hrest]

/-! ## The loops as requests -/

theorem complement64_pageSize : complement64 (pageSize - 1) = fieldMask 12 52 := by
  norm_num [complement64, pageSize, fieldMask, Nat.shiftLeft_eq]

theorem alignDown_pageSize {addr : ℕ} (haddr : addr < 2 ^ 64) :
    alignDown addr pageSize = addr / pageSize * pageSize := by
  rw [alignDown, complement64_pageSize]
  exact and_fieldMask_eq_div haddr

theorem alignUp_pageSize {addr : ℕ} (haddr : addr + pageSize ≤ 2 ^ 64) :
    alignUp addr pageSize = (addr + (pageSize - 1)) / pageSize * pageSize := by
  have hlt : addr + pageSize - 1 < 2 ^ 64 := by
    simp only [pageSize] at haddr ⊢
    omega
  rw [alignUp, complement64_pageSize, wrap64_of_lt hlt]
  exact and_fieldMask_eq_div hlt

/-- How many pages, the last one possibly in part, lie between two addresses. -/
def pagesBetween (start stop : ℕ) : ℕ := (stop - start + (pageSize - 1)) / pageSize

/-- The loop makes one request for each page. -/
theorem kmapPages_eq {virt phys : ℕ → ℕ} {flags stop fuel cursor : ℕ} (vmm : Vmm)
    (hfuel : pagesBetween cursor stop ≤ fuel) (hstop : stop + pageSize ≤ 2 ^ 64) :
    kmapPages virt phys flags stop fuel cursor vmm =
      ((pagesFrom cursor (pagesBetween cursor stop)).map fun page =>
        (⟨virt page, phys page, flags⟩ : KmapRequest)).foldlM KmapRequest.run vmm := by
  induction fuel generalizing cursor vmm with
  | zero =>
      have hnone : pagesBetween cursor stop = 0 := by omega
      have hdone : ¬cursor < stop := by
        simp only [pagesBetween, pageSize] at hnone
        omega
      simp [kmapPages, hdone, hnone, pagesFrom]
  | succ fuel ih =>
      by_cases hmore : cursor < stop
      · have hcount : pagesBetween cursor stop =
            pagesBetween (cursor + pageSize) stop + 1 := by
          simp only [pagesBetween, pageSize]
          omega
        have hwrap : wrap64 (cursor + pageSize) = cursor + pageSize :=
          wrap64_of_lt (by omega)
        rw [hcount] at hfuel ⊢
        have hrest := fun next : Vmm => ih next (Nat.le_of_lt_succ hfuel)
        rw [kmapPages, if_pos hmore, hwrap, pagesFrom, List.map_cons, List.foldlM_cons]
        simp only [hrest]
        rfl
      · have hnone : pagesBetween cursor stop = 0 := by
          simp only [pagesBetween, pageSize]
          omega
        simp [kmapPages, hmore, hnone, pagesFrom]

def sectionRequests (range : SectionRange) (offset flags : ℕ) : List KmapRequest :=
  (pagesFrom range.start (pagesBetween range.start range.stop)).map fun virt =>
    ⟨virt, sub64 virt offset, flags⟩

def regionRequests (hhdmOffset : ℕ) (entry : PhysMemoryRegion) : List KmapRequest :=
  (pagesFrom (entry.base / pageSize * pageSize)
    (pagesBetween (entry.base / pageSize * pageSize) (entry.base + entry.length))).map
      fun phys => ⟨wrap64 (phys + hhdmOffset), phys, vmFlagWrite ||| vmFlagNx⟩

/-- The sections in the order of the loops, with the flags of each. -/
def KernelSections.parts (sections : KernelSections) : List (SectionRange × ℕ) :=
  [(sections.text, vmFlagDefault), (sections.rodata, vmFlagNx),
    (sections.data, vmFlagWrite ||| vmFlagNx), (sections.limineRequests, vmFlagNx)]

/-- All calls of `vmm_kmap` that `vmm_init` makes. -/
def vmmInitRequests (hhdmOffset : ℕ) (memmap : PhysMemoryMap) (sections : KernelSections)
    (kernelAddress : KernelAddress) : List KmapRequest :=
  (sections.parts.flatMap fun part =>
    sectionRequests part.1 (sub64 kernelAddress.virt kernelAddress.phys) part.2) ++
      memmap.entries.flatMap (regionRequests hhdmOffset)

theorem kmapSection_eq {range : SectionRange} {offset flags : ℕ} (vmm : Vmm)
    (hstop : range.stop + pageSize ≤ 2 ^ 64) :
    kmapSection range offset flags vmm =
      (sectionRequests range offset flags).foldlM KmapRequest.run vmm := by
  apply kmapPages_eq vmm _ hstop
  simp only [pagesBetween, pageCount, pageSize] at hstop ⊢
  omega

theorem kmapRegion_eq {hhdmOffset : ℕ} {entry : PhysMemoryRegion} (vmm : Vmm)
    (hentry : entry.base + entry.length ≤ 2 ^ 47) :
    kmapRegion hhdmOffset vmm entry =
      (regionRequests hhdmOffset entry).foldlM KmapRequest.run vmm := by
  have hwrap : wrap64 (entry.base + entry.length) = entry.base + entry.length :=
    wrap64_of_lt (by omega)
  have hcount : pagesBetween (entry.base / pageSize * pageSize)
      ((entry.base + entry.length + (pageSize - 1)) / pageSize * pageSize) =
        pagesBetween (entry.base / pageSize * pageSize) (entry.base + entry.length) := by
    simp only [pagesBetween, pageSize]
    omega
  rw [kmapRegion, hwrap, alignDown_pageSize (by omega),
    alignUp_pageSize (by simp only [pageSize]; omega), kmapPages_eq vmm, hcount]
  · rfl
  · simp only [pagesBetween, pageCount, pageSize]
    omega
  · simp only [pageSize]
    omega

theorem kmapRegions_eq {hhdmOffset : ℕ} {entries : List PhysMemoryRegion} (vmm : Vmm)
    (hentries : ∀ entry ∈ entries, entry.base + entry.length ≤ 2 ^ 47) :
    entries.foldlM (kmapRegion hhdmOffset) vmm =
      (entries.flatMap (regionRequests hhdmOffset)).foldlM KmapRequest.run vmm := by
  induction entries generalizing vmm with
  | nil => rfl
  | cons entry entries ih =>
      have hrest := fun next : Vmm =>
        ih next fun other hother => hentries other (List.mem_cons_of_mem entry hother)
      rw [List.foldlM_cons, List.flatMap_cons, List.foldlM_append,
        kmapRegion_eq vmm (hentries entry List.mem_cons_self)]
      simp only [hrest]

/-- `vmm_init` allocates a root, makes its requests and loads the root. -/
theorem vmmInit_eq {vmm : Vmm} {memmap : PhysMemoryMap} {sections : KernelSections}
    {kernelAddress : KernelAddress}
    (hsections : ∀ part ∈ sections.parts, part.1.stop + pageSize ≤ 2 ^ 64)
    (hentries : ∀ entry ∈ memmap.entries, entry.base + entry.length ≤ 2 ^ 47) :
    vmmInit vmm memmap sections kernelAddress =
      (pmmAlloc vmm.pmm).bind fun allocated =>
        ((vmmInitRequests vmm.pmm.map.hhdmOffset memmap sections kernelAddress).foldlM
          KmapRequest.run
          { vmm with pmm := allocated.1, kernelPml4 := allocated.2 }).bind fun mapped =>
            some (vmmLoadPml4 mapped allocated.2) := by
  have hsection := fun (part : SectionRange × ℕ) (hpart : part ∈ sections.parts) =>
    fun next : Vmm => @kmapSection_eq part.1 (sub64 kernelAddress.virt kernelAddress.phys)
      part.2 next (hsections part hpart)
  have htext := hsection (sections.text, vmFlagDefault) (by simp [KernelSections.parts])
  have hrodata := hsection (sections.rodata, vmFlagNx) (by simp [KernelSections.parts])
  have hdata := hsection (sections.data, vmFlagWrite ||| vmFlagNx)
    (by simp [KernelSections.parts])
  have hlimine := hsection (sections.limineRequests, vmFlagNx)
    (by simp [KernelSections.parts])
  have hregions := fun next : Vmm =>
    @kmapRegions_eq vmm.pmm.map.hhdmOffset memmap.entries next hentries
  simp only [vmmInit, htext, hrodata, hdata, hlimine, hregions, vmmInitRequests,
    KernelSections.parts, List.flatMap_cons, List.flatMap_nil, List.append_nil,
    List.foldlM_append, Option.bind_eq_bind, Option.bind_assoc]
  rfl

end Flurry.Paging
