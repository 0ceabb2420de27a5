import Flurry.Memory.VmmInit

/-!
# What the kernel's address space contains after `vmm_init`

The sections of the image follow each other on page boundaries, and the window
onto physical memory shares no page with them.  So two requests for one page are
always the same request, and nothing an earlier loop mapped is overwritten by a
later one.
-/

namespace Flurry.Paging

open ByteMemory PhysicalMemory BitField

def SectionRange.Contains (range : SectionRange) (virt : ℕ) : Prop :=
  range.start ≤ virt ∧ virt < range.stop

/-- An address of one of the four sections. -/
def KernelSections.Contains (sections : KernelSections) (virt : ℕ) : Prop :=
  ∃ part ∈ sections.parts, part.1.Contains virt

/-- An address inside some entry of the map. -/
def MemmapContains (memmap : PhysMemoryMap) (addr : ℕ) : Prop :=
  ∃ entry ∈ memmap.entries, entry.base ≤ addr ∧ addr < entry.base + entry.length

/-- The layout of `linker.ld`: the sections start on page boundaries and follow each
other in the order Limine requests, text, rodata, data.  The last page of the address
space is not used, and the image is loaded at page-aligned physical addresses of at
most 52 bits. -/
structure KernelImage (sections : KernelSections) (kernelAddress : KernelAddress) :
    Prop where
  virtAligned : kernelAddress.virt % pageSize = 0
  physAligned : kernelAddress.phys % pageSize = 0
  aligned : ∀ part ∈ sections.parts, part.1.start % pageSize = 0
  higherHalf : 2 ^ 64 - 2 ^ 47 ≤ sections.limineRequests.start
  base : kernelAddress.virt ≤ sections.limineRequests.start
  limineRequests : sections.limineRequests.start ≤ sections.limineRequests.stop
  text : sections.limineRequests.stop = sections.text.start
  textOrdered : sections.text.start ≤ sections.text.stop
  rodata : sections.text.stop = sections.rodata.start
  rodataOrdered : sections.rodata.start ≤ sections.rodata.stop
  data : sections.rodata.stop = sections.data.start
  dataOrdered : sections.data.start ≤ sections.data.stop
  bounded : sections.data.stop + pageSize ≤ 2 ^ 64
  physical : kernelAddress.phys + (sections.data.stop - kernelAddress.virt) ≤ 2 ^ 52

/-- The entries of the map are not empty and lie below `2 ^ 47`, in any order and
with any overlap, and the window shows them at canonical addresses. -/
structure HhdmImage (hhdmOffset : ℕ) (memmap : PhysMemoryMap) : Prop where
  aligned : hhdmOffset % pageSize = 0
  nonempty : ∀ entry ∈ memmap.entries, 0 < entry.length
  bounded : ∀ entry ∈ memmap.entries, entry.base + entry.length ≤ 2 ^ 47
  canonical : ∀ addr, MemmapContains memmap addr → Canonical (hhdmOffset + addr)

/-- What the loader passes to `vmm_init`. -/
structure BootSpace (hhdmOffset : ℕ) (memmap : PhysMemoryMap) (sections : KernelSections)
    (kernelAddress : KernelAddress) : Prop where
  image : KernelImage sections kernelAddress
  window : HhdmImage hhdmOffset memmap
  apart : ∀ virt addr, sections.Contains virt → MemmapContains memmap addr →
    virt / pageSize ≠ (hhdmOffset + addr) / pageSize

/-- A page is canonical as a whole. -/
theorem canonical_page {virt : ℕ} (hpage : Canonical (virt / pageSize * pageSize)) :
    Canonical virt := by
  simp only [Canonical, pageSize] at hpage ⊢
  omega

theorem mem_pagesBetween {start stop page : ℕ} (hstart : start % pageSize = 0) :
    page ∈ pagesFrom start (pagesBetween start stop) ↔
      page % pageSize = 0 ∧ start ≤ page ∧ page < stop := by
  rw [mem_pagesFrom]
  simp only [pagesBetween, pageSize] at hstart ⊢
  constructor
  · rintro ⟨index, hindex, rfl⟩
    omega
  · rintro ⟨hpage, hlower, hupper⟩
    exact ⟨(page - start) / 4096, by omega, by omega⟩

theorem mem_sectionRequests {range : SectionRange} {offset flags : ℕ}
    {request : KmapRequest} (hstart : range.start % pageSize = 0) :
    request ∈ sectionRequests range offset flags ↔
      ∃ page, page % pageSize = 0 ∧ range.Contains page ∧
        request = ⟨page, sub64 page offset, flags⟩ := by
  simp only [sectionRequests, List.mem_map, mem_pagesBetween hstart,
    SectionRange.Contains, and_assoc, eq_comm]

/-- The pages of a region are those that have an address in it. -/
theorem mem_regionRequests {hhdmOffset : ℕ} {entry : PhysMemoryRegion}
    {request : KmapRequest} (hlength : 0 < entry.length) :
    request ∈ regionRequests hhdmOffset entry ↔
      ∃ addr, entry.base ≤ addr ∧ addr < entry.base + entry.length ∧
        request = ⟨wrap64 (addr / pageSize * pageSize + hhdmOffset),
          addr / pageSize * pageSize, vmFlagWrite ||| vmFlagNx⟩ := by
  have hstart : entry.base / pageSize * pageSize % pageSize = 0 :=
    Nat.mul_mod_left _ _
  simp only [regionRequests, List.mem_map, mem_pagesBetween hstart]
  constructor
  · rintro ⟨page, ⟨hpage, hlower, hupper⟩, rfl⟩
    -- the page starts in the region, or the region starts in the page
    refine ⟨max page entry.base, by omega, by omega, ?_⟩
    have hrounded : max page entry.base / pageSize * pageSize = page := by
      simp only [pageSize] at hpage hlower ⊢
      omega
    rw [hrounded]
  · rintro ⟨addr, hlower, hupper, rfl⟩
    refine ⟨addr / pageSize * pageSize, ⟨Nat.mul_mod_left _ _, ?_, ?_⟩, rfl⟩
    · exact Nat.mul_le_mul_right _ (Nat.div_le_div_right hlower)
    · exact (Nat.div_mul_le_self addr pageSize).trans_lt hupper

namespace BootSpace

variable {hhdmOffset : ℕ} {memmap : PhysMemoryMap} {sections : KernelSections}
variable {kernelAddress : KernelAddress}

/-- Every section lies between the start of the Limine requests and the end of the
data. -/
theorem part_bounds (hspace : BootSpace hhdmOffset memmap sections kernelAddress)
    {part : SectionRange × ℕ} (hpart : part ∈ sections.parts) :
    sections.limineRequests.start ≤ part.1.start ∧
      part.1.stop ≤ sections.data.stop := by
  obtain ⟨-, -, -, -, -, hlimine, htext, htext', hrodata, hrodata', hdata, hdata', -, -⟩ :=
    hspace.image
  simp only [KernelSections.parts, List.mem_cons, List.not_mem_nil, or_false] at hpart
  rcases hpart with rfl | rfl | rfl | rfl <;> dsimp only <;> omega

/-- Two sections share no page. -/
theorem part_eq_of_page (hspace : BootSpace hhdmOffset memmap sections kernelAddress)
    {part other : SectionRange × ℕ} {virt page : ℕ} (hpart : part ∈ sections.parts)
    (hother : other ∈ sections.parts) (hvirt : part.1.Contains virt)
    (hpage : other.1.Contains page) (hsame : page / pageSize = virt / pageSize) :
    part = other := by
  have haligned := hspace.image.aligned part hpart
  have haligned' := hspace.image.aligned other hother
  obtain ⟨-, -, -, -, -, hlimine, htext, htext', hrodata, hrodata', hdata, hdata', -, -⟩ :=
    hspace.image
  simp only [KernelSections.parts, List.mem_cons, List.not_mem_nil, or_false] at hpart hother
  simp only [SectionRange.Contains, pageSize] at hvirt hpage hsame haligned haligned'
  rcases hpart with rfl | rfl | rfl | rfl <;>
    rcases hother with rfl | rfl | rfl | rfl <;>
      first | rfl | (dsimp only at *; omega)

/-- The physical address behind an address of the image. -/
theorem sub64_eq (hspace : BootSpace hhdmOffset memmap sections kernelAddress)
    {virt : ℕ} (hlower : sections.limineRequests.start ≤ virt)
    (hupper : virt < sections.data.stop) :
    sub64 virt (sub64 kernelAddress.virt kernelAddress.phys) =
      kernelAddress.phys + (virt - kernelAddress.virt) := by
  have hbase := hspace.image.base
  have hbounded := hspace.image.bounded
  have hphysical := hspace.image.physical
  simp only [sub64, wrap64, pageSize] at hbounded ⊢
  omega

/-- A window address does not wrap around, and rounding it down rounds the physical
address down. -/
theorem window_eq (hspace : BootSpace hhdmOffset memmap sections kernelAddress) {addr : ℕ}
    (haddr : MemmapContains memmap addr) :
    wrap64 (addr / pageSize * pageSize + hhdmOffset) =
      (hhdmOffset + addr) / pageSize * pageSize := by
  have haligned := hspace.window.aligned
  have hcanonical := hspace.window.canonical addr haddr
  simp only [Canonical, wrap64, pageSize] at *
  omega

/-- What `vmm_init` asks for: each page of each section, and each page of the window
that shows an address of the map. -/
theorem mem_requests (hspace : BootSpace hhdmOffset memmap sections kernelAddress)
    {request : KmapRequest} :
    request ∈ vmmInitRequests hhdmOffset memmap sections kernelAddress ↔
      (∃ part ∈ sections.parts, ∃ page, page % pageSize = 0 ∧ part.1.Contains page ∧
        request =
          ⟨page, sub64 page (sub64 kernelAddress.virt kernelAddress.phys), part.2⟩) ∨
      ∃ addr, MemmapContains memmap addr ∧
        request = ⟨(hhdmOffset + addr) / pageSize * pageSize, addr / pageSize * pageSize,
          vmFlagWrite ||| vmFlagNx⟩ := by
  rw [vmmInitRequests, List.mem_append, List.mem_flatMap, List.mem_flatMap]
  apply or_congr
  · apply exists_congr
    intro part
    apply and_congr_right
    intro hpart
    exact mem_sectionRequests (hspace.image.aligned part hpart)
  · constructor
    · rintro ⟨entry, hentry, hmem⟩
      obtain ⟨addr, hlower, hupper, rfl⟩ :=
        (mem_regionRequests (hspace.window.nonempty entry hentry)).mp hmem
      have haddr : MemmapContains memmap addr := ⟨entry, hentry, hlower, hupper⟩
      exact ⟨addr, haddr, by rw [hspace.window_eq haddr]⟩
    · rintro ⟨addr, haddr, rfl⟩
      obtain ⟨entry, hentry, hlower, hupper⟩ := haddr
      refine ⟨entry, hentry,
        (mem_regionRequests (hspace.window.nonempty entry hentry)).mpr
          ⟨addr, hlower, hupper, ?_⟩⟩
      rw [hspace.window_eq ⟨entry, hentry, hlower, hupper⟩]

theorem valid (hspace : BootSpace hhdmOffset memmap sections kernelAddress)
    {request : KmapRequest}
    (hmem : request ∈ vmmInitRequests hhdmOffset memmap sections kernelAddress) :
    request.Valid := by
  rcases hspace.mem_requests.mp hmem with ⟨part, hpart, page, hpage, hcontains, rfl⟩ |
    ⟨addr, haddr, rfl⟩
  · obtain ⟨hlower, hupper⟩ := hspace.part_bounds hpart
    have hpart' : sections.limineRequests.start ≤ page ∧ page < sections.data.stop :=
      ⟨hlower.trans hcontains.1, hcontains.2.trans_le hupper⟩
    have hhigher := hspace.image.higherHalf
    have hbounded := hspace.image.bounded
    have hphysical := hspace.image.physical
    have hbase := hspace.image.base
    have hcanonical : Canonical page := Or.inr ⟨by omega, by omega⟩
    have hphys : kernelAddress.phys + (page - kernelAddress.virt) < 2 ^ 52 := by omega
    exact ⟨hcanonical, (hspace.sub64_eq hpart'.1 hpart'.2).trans_lt hphys⟩
  · have hcanonical := hspace.window.canonical addr haddr
    obtain ⟨entry, hentry, -, hupper⟩ := haddr
    have hbounded := hspace.window.bounded entry hentry
    constructor
    · simp only [Canonical, pageSize] at hcanonical ⊢
      omega
    · simp only [pageSize]
      omega

/-- All requests for the page of a section's address are one request. -/
theorem section_agrees (hspace : BootSpace hhdmOffset memmap sections kernelAddress)
    {part : SectionRange × ℕ} {virt : ℕ} (hpart : part ∈ sections.parts)
    (hvirt : part.1.Contains virt) {request : KmapRequest}
    (hmem : request ∈ vmmInitRequests hhdmOffset memmap sections kernelAddress)
    (hpage : request.virt / pageSize = virt / pageSize) :
    request = ⟨virt / pageSize * pageSize, sub64 (virt / pageSize * pageSize)
      (sub64 kernelAddress.virt kernelAddress.phys), part.2⟩ := by
  rcases hspace.mem_requests.mp hmem with ⟨other, hother, page, haligned, hcontains, rfl⟩ |
    ⟨addr, haddr, rfl⟩
  · obtain rfl := hspace.part_eq_of_page hpart hother hvirt hcontains hpage
    have hrounded : virt / pageSize * pageSize = page := by
      rw [← hpage]
      exact Nat.div_mul_cancel (Nat.dvd_of_mod_eq_zero haligned)
    rw [hrounded]
  · exfalso
    apply hspace.apart virt addr ⟨part, hpart, hvirt⟩ haddr
    rw [← hpage]
    exact Nat.mul_div_cancel _ (by decide)

theorem window_agrees (hspace : BootSpace hhdmOffset memmap sections kernelAddress)
    {addr : ℕ} (haddr : MemmapContains memmap addr) {request : KmapRequest}
    (hmem : request ∈ vmmInitRequests hhdmOffset memmap sections kernelAddress)
    (hpage : request.virt / pageSize = (hhdmOffset + addr) / pageSize) :
    request = ⟨(hhdmOffset + addr) / pageSize * pageSize, addr / pageSize * pageSize,
      vmFlagWrite ||| vmFlagNx⟩ := by
  rcases hspace.mem_requests.mp hmem with ⟨part, hpart, page, -, hcontains, rfl⟩ |
    ⟨other, hother, rfl⟩
  · exact absurd hpage (hspace.apart page addr ⟨part, hpart, hcontains⟩ haddr)
  · have haligned := hspace.window.aligned
    have hsame : (hhdmOffset + other) / pageSize = (hhdmOffset + addr) / pageSize := by
      rw [← hpage]
      exact (Nat.mul_div_cancel _ (by decide)).symm
    have haddr' : other / pageSize = addr / pageSize := by
      simp only [pageSize] at hsame haligned ⊢
      omega
    rw [hsame, haddr']

/-! ### Entries -/

theorem section_mem (hspace : BootSpace hhdmOffset memmap sections kernelAddress)
    {part : SectionRange × ℕ} {virt : ℕ} (hpart : part ∈ sections.parts)
    (hvirt : part.1.Contains virt) :
    ⟨virt / pageSize * pageSize, sub64 (virt / pageSize * pageSize)
      (sub64 kernelAddress.virt kernelAddress.phys), part.2⟩ ∈
        vmmInitRequests hhdmOffset memmap sections kernelAddress := by
  have hstart := hspace.image.aligned part hpart
  have hcontains : part.1.Contains (virt / pageSize * pageSize) := by
    simp only [SectionRange.Contains, pageSize] at hvirt hstart ⊢
    omega
  exact hspace.mem_requests.mpr
    (Or.inl ⟨part, hpart, _, Nat.mul_mod_left _ _, hcontains, rfl⟩)

theorem section_entry (hspace : BootSpace hhdmOffset memmap sections kernelAddress)
    {part : SectionRange × ℕ} {root virt : ℕ} (hpart : part ∈ sections.parts)
    (hvirt : part.1.Contains virt) :
    requestEntries root (vmmInitRequests hhdmOffset memmap sections kernelAddress) .empty
        root (virt / pageSize) =
      mapEntry (sub64 (virt / pageSize * pageSize)
        (sub64 kernelAddress.virt kernelAddress.phys)) part.2 := by
  apply requestEntries_of_mem
  · exact ⟨_, hspace.section_mem hpart hvirt, Nat.mul_div_cancel _ (by decide)⟩
  · intro request hmem hpage
    rw [hspace.section_agrees hpart hvirt hmem hpage]
    rfl

theorem window_mem (hspace : BootSpace hhdmOffset memmap sections kernelAddress)
    {addr : ℕ} (haddr : MemmapContains memmap addr) :
    ⟨(hhdmOffset + addr) / pageSize * pageSize, addr / pageSize * pageSize,
      vmFlagWrite ||| vmFlagNx⟩ ∈
        vmmInitRequests hhdmOffset memmap sections kernelAddress :=
  hspace.mem_requests.mpr (Or.inr ⟨addr, haddr, rfl⟩)

theorem window_entry (hspace : BootSpace hhdmOffset memmap sections kernelAddress)
    {root addr : ℕ} (haddr : MemmapContains memmap addr) :
    requestEntries root (vmmInitRequests hhdmOffset memmap sections kernelAddress) .empty
        root ((hhdmOffset + addr) / pageSize) =
      mapEntry (addr / pageSize * pageSize) (vmFlagWrite ||| vmFlagNx) := by
  apply requestEntries_of_mem
  · exact ⟨_, hspace.window_mem haddr, Nat.mul_div_cancel _ (by decide)⟩
  · intro request hmem hpage
    rw [hspace.window_agrees haddr hmem hpage]
    rfl

/-- A page without an address of a section or of the window gets no entry. -/
theorem other_entry (hspace : BootSpace hhdmOffset memmap sections kernelAddress)
    {root page : ℕ}
    (hsections : ∀ virt, virt / pageSize = page → ¬sections.Contains virt)
    (hwindow : ∀ addr, (hhdmOffset + addr) / pageSize = page →
      ¬MemmapContains memmap addr) :
    requestEntries root (vmmInitRequests hhdmOffset memmap sections kernelAddress) .empty
        root page = 0 := by
  apply requestEntries_of_not_mem
  intro request hmem hpage
  rcases hspace.mem_requests.mp hmem with ⟨part, hpart, virt, -, hcontains, rfl⟩ |
    ⟨addr, haddr, rfl⟩
  · exact hsections virt hpage ⟨part, hpart, hcontains⟩
  · refine hwindow addr ?_ haddr
    rw [← hpage]
    exact (Nat.mul_div_cancel _ (by decide)).symm

end BootSpace

/-- The pages that `vmm_init` maps: those of the image and of the window. -/
def kernelPages (hhdmOffset : ℕ) (memmap : PhysMemoryMap) (sections : KernelSections) :
    Set ℕ :=
  {page | (∃ virt, sections.Contains virt ∧ virt / pageSize = page) ∨
    ∃ addr, MemmapContains memmap addr ∧ (hhdmOffset + addr) / pageSize = page}

theorem BootSpace.canonical_kernelPages {hhdmOffset : ℕ} {memmap : PhysMemoryMap}
    {sections : KernelSections} {kernelAddress : KernelAddress}
    (hspace : BootSpace hhdmOffset memmap sections kernelAddress) {virt : ℕ}
    (hvirt : virt / pageSize ∈ kernelPages hhdmOffset memmap sections) : Canonical virt := by
  apply canonical_page
  rcases hvirt with ⟨other, ⟨part, hpart, hcontains⟩, hpage⟩ | ⟨addr, haddr, hpage⟩
  · rw [← hpage]
    exact (hspace.valid (hspace.section_mem hpart hcontains)).canonical
  · rw [← hpage]
    exact (hspace.valid (hspace.window_mem haddr)).canonical

/-! ## The address space -/

/-- The physical address behind a virtual one under the active root, and whether it
may be written. -/
def Vmm.lookup (vmm : Vmm) (virt : ℕ) : Option (ℕ × Bool) :=
  (walk vmm.pmm.map.physical vmm.cr3 virt).map fun translation =>
    (translation.frame + virt % pageSize, translation.writable)

theorem lookup_of_mapEntry {vmm : Vmm} {virt phys flags : ℕ}
    (hwalk : walk vmm.pmm.map.physical vmm.cr3 virt =
      leafTranslation (mapEntry phys flags))
    (hmapping : PagingCall.MappingOk phys flags) :
    vmm.lookup virt =
      some (phys + virt % pageSize, decide (flags &&& vmFlagWrite ≠ 0)) := by
  have hmapped := congrArg
    (Option.map fun mapping : PageMapping =>
      (mapping.frame + virt % pageSize, mapping.writable))
    (leafTranslation_mapEntry hmapping)
  rw [Option.map_map] at hmapped
  rw [Vmm.lookup, hwalk]
  exact hmapped

theorem lookup_of_entry {vmm : Vmm} {root virt phys flags : ℕ} {free : List ℕ}
    {entries : PageEntries} {paths : Finset (List ℕ)} (hroot : vmm.cr3 = root)
    (hmaps : vmm.Maps [root] free entries root paths) (hvirt : Canonical virt)
    (hentry : entries root (virt / pageSize) = mapEntry phys flags)
    (hmapping : PagingCall.MappingOk phys flags) :
    vmm.lookup virt =
      some (phys + virt % pageSize, decide (flags &&& vmFlagWrite ≠ 0)) := by
  refine lookup_of_mapEntry ?_ hmapping
  rw [hroot, hmaps.walk_eq List.mem_cons_self hvirt, hentry]

theorem builtFromVmFlags_part {sections : KernelSections} {part : SectionRange × ℕ}
    (hpart : part ∈ sections.parts) : BuiltFromVmFlags part.2 := by
  have hflags : part.2 ∈ [vmFlagDefault, vmFlagNx, vmFlagWrite ||| vmFlagNx, vmFlagNx] :=
    List.mem_map_of_mem (f := Prod.snd) hpart
  revert hflags
  generalize part.2 = flags
  revert flags
  decide

section VmmInit

variable {vmm : Vmm} {free : List ℕ} {memmap : PhysMemoryMap} {sections : KernelSections}
variable {kernelAddress : KernelAddress}

/-- `vmm_init` needs one frame for the root and one for each table below it. -/
theorem vmmInit_spec (hfree : vmm.pmm.FreeList free)
    (hspace : BootSpace vmm.pmm.map.hhdmOffset memmap sections kernelAddress)
    (hframes : (requestTables (vmmInitRequests vmm.pmm.map.hhdmOffset memmap sections
      kernelAddress)).card < free.length) :
    ∃ after root free', vmmInit vmm memmap sections kernelAddress = some after ∧
      after.cr3 = root ∧ after.kernelPml4 = root ∧
        after.Maps [root] free' (requestEntries root (vmmInitRequests
          vmm.pmm.map.hhdmOffset memmap sections kernelAddress) .empty) root
          (requestTables (vmmInitRequests vmm.pmm.map.hhdmOffset memmap sections
            kernelAddress)) ∧ free' <:+ free ∧
          (requestTables (vmmInitRequests vmm.pmm.map.hhdmOffset memmap sections
            kernelAddress)).card + free'.length + 1 = free.length := by
  set requests := vmmInitRequests vmm.pmm.map.hhdmOffset memmap sections kernelAddress
    with hrequests
  obtain ⟨root, rest, rfl⟩ := List.exists_cons_of_length_pos (Nat.zero_lt_of_lt hframes)
  obtain ⟨pmm, halloc, hmaps⟩ := maps_newPml4 hfree
  have hkernel : ({ vmm with pmm := pmm, kernelPml4 := root } : Vmm).Maps [root] rest
      .empty root ∅ := hmaps.of_pmm_eq rfl
  have hnone : ∅ ∪ requestTables requests = requestTables requests :=
    Finset.empty_union _
  obtain ⟨mapped, free', hrun, hkernel', -, hmapped, hsuffix, hcount⟩ := kmapRequests_spec
    hkernel List.mem_cons_self rfl (fun request hmem => hspace.valid hmem) (by
      rw [hnone, Finset.card_empty, Nat.zero_add]
      exact Nat.le_of_lt_succ hframes)
  rw [hnone] at hmapped hcount
  have hstop : ∀ part ∈ sections.parts, part.1.stop + pageSize ≤ 2 ^ 64 := by
    intro part hpart
    have hbounds := hspace.part_bounds hpart
    have hbounded := hspace.image.bounded
    omega
  refine ⟨vmmLoadPml4 mapped root, root, free', ?_, rfl, hkernel',
    hmapped.of_pmm_eq rfl, hsuffix.trans (List.suffix_cons root rest), ?_⟩
  · rw [vmmInit_eq hstop hspace.window.bounded, halloc, Option.bind_some, ← hrequests,
      hrun, Option.bind_some]
  · rw [hcount, Finset.card_empty, List.length_cons, Nat.zero_add]

/-- With the entry that `vmm_init` makes for it, an address of a section is found where
the loader put it. -/
theorem lookup_section_of_entry {after : Vmm} {root virt : ℕ} {free' : List ℕ}
    {paths : Finset (List ℕ)} {entries : PageEntries} {part : SectionRange × ℕ}
    {hhdmOffset : ℕ} (hspace : BootSpace hhdmOffset memmap sections kernelAddress)
    (hroot : after.cr3 = root) (hmaps : after.Maps [root] free' entries root paths)
    (hpart : part ∈ sections.parts) (hvirt : part.1.Contains virt)
    (hentry : entries root (virt / pageSize) = mapEntry (sub64 (virt / pageSize * pageSize)
      (sub64 kernelAddress.virt kernelAddress.phys)) part.2) :
    after.lookup virt =
      some (sub64 virt (sub64 kernelAddress.virt kernelAddress.phys),
        decide (part.2 &&& vmFlagWrite ≠ 0)) := by
  have hvalid := hspace.valid (hspace.section_mem hpart hvirt)
  have hphysical := hvalid.physical
  obtain ⟨hlower, hupper⟩ := hspace.part_bounds hpart
  have hstart := hspace.image.aligned part hpart
  have hbase := hspace.image.base
  have hvirtAligned := hspace.image.virtAligned
  have hphysAligned := hspace.image.physAligned
  obtain ⟨hvirtLower, hvirtUpper⟩ := id hvirt
  -- the page of the address lies in the image too
  have hpage : part.1.start ≤ virt / pageSize * pageSize := by
    simp only [pageSize] at hstart ⊢
    omega
  have hpage' : virt / pageSize * pageSize ≤ virt := Nat.div_mul_le_self virt pageSize
  dsimp only at hphysical
  rw [hspace.sub64_eq (by omega) (by omega)] at hentry hphysical ⊢
  have hmapping : PagingCall.MappingOk
      (kernelAddress.phys + (virt / pageSize * pageSize - kernelAddress.virt)) part.2 := by
    refine ⟨?_, hphysical, builtFromVmFlags_part hpart⟩
    simp only [pageSize] at hpage hvirtAligned hphysAligned ⊢
    omega
  have hoffset : kernelAddress.phys + (virt / pageSize * pageSize - kernelAddress.virt) +
      virt % pageSize = kernelAddress.phys + (virt - kernelAddress.virt) := by
    simp only [pageSize] at hpage ⊢
    omega
  rw [lookup_of_entry hroot hmaps (canonical_page hvalid.canonical) hentry hmapping, hoffset]

/-- After `vmm_init`, an address of a section is found where the loader put it. -/
theorem lookup_section {after : Vmm} {root virt : ℕ} {free' : List ℕ}
    {paths : Finset (List ℕ)} {part : SectionRange × ℕ} {hhdmOffset : ℕ}
    (hspace : BootSpace hhdmOffset memmap sections kernelAddress)
    (hroot : after.cr3 = root)
    (hmaps : after.Maps [root] free' (requestEntries root
      (vmmInitRequests hhdmOffset memmap sections kernelAddress) .empty) root paths)
    (hpart : part ∈ sections.parts) (hvirt : part.1.Contains virt) :
    after.lookup virt =
      some (sub64 virt (sub64 kernelAddress.virt kernelAddress.phys),
        decide (part.2 &&& vmFlagWrite ≠ 0)) :=
  lookup_section_of_entry hspace hroot hmaps hpart hvirt (hspace.section_entry hpart hvirt)

/-- After `vmm_init`, physical memory is found in the window. -/
theorem lookup_window {after : Vmm} {root addr hhdmOffset : ℕ} {free' : List ℕ}
    {paths : Finset (List ℕ)} {entries : PageEntries}
    (hspace : BootSpace hhdmOffset memmap sections kernelAddress)
    (hroot : after.cr3 = root) (hmaps : after.Maps [root] free' entries root paths)
    (haddr : MemmapContains memmap addr)
    (hentry : entries root ((hhdmOffset + addr) / pageSize) =
      mapEntry (addr / pageSize * pageSize) (vmFlagWrite ||| vmFlagNx)) :
    after.lookup (hhdmOffset + addr) = some (addr, true) := by
  have haligned := hspace.window.aligned
  have hmapping : PagingCall.MappingOk (addr / pageSize * pageSize)
      (vmFlagWrite ||| vmFlagNx) :=
    ⟨Nat.mul_mod_left _ _, (hspace.valid (hspace.window_mem haddr)).physical, by decide⟩
  have hoffset : addr / pageSize * pageSize + (hhdmOffset + addr) % pageSize = addr := by
    simp only [pageSize] at haligned ⊢
    omega
  rw [lookup_of_entry hroot hmaps (hspace.window.canonical addr haddr) hentry hmapping, hoffset]
  rfl

/-- When `vmm_init` has loaded the kernel's tables, the sections are found where the
loader put them and only the data can be written, all of the memory map is found in the
window and can be written, and no other page is present. -/
theorem vmmInit_kernel_space (vmm : Vmm) (free : List ℕ) (memmap : PhysMemoryMap)
    (sections : KernelSections) (kernelAddress : KernelAddress)
    (hfree : vmm.pmm.FreeList free)
    (hspace : BootSpace vmm.pmm.map.hhdmOffset memmap sections kernelAddress)
    (hframes : (requestTables (vmmInitRequests vmm.pmm.map.hhdmOffset memmap sections
      kernelAddress)).card < free.length) :
    ∃ after, vmmInit vmm memmap sections kernelAddress = some after ∧
      after.cr3 = after.kernelPml4 ∧
      (∀ virt, sections.text.Contains virt → after.lookup virt =
        some (sub64 virt (sub64 kernelAddress.virt kernelAddress.phys), false)) ∧
      (∀ virt, sections.rodata.Contains virt → after.lookup virt =
        some (sub64 virt (sub64 kernelAddress.virt kernelAddress.phys), false)) ∧
      (∀ virt, sections.data.Contains virt → after.lookup virt =
        some (sub64 virt (sub64 kernelAddress.virt kernelAddress.phys), true)) ∧
      (∀ virt, sections.limineRequests.Contains virt → after.lookup virt =
        some (sub64 virt (sub64 kernelAddress.virt kernelAddress.phys), false)) ∧
      (∀ addr, MemmapContains memmap addr →
        after.lookup (vmm.pmm.map.hhdmOffset + addr) = some (addr, true)) ∧
      ∀ virt, Canonical virt →
        (∀ other, other / pageSize = virt / pageSize → ¬sections.Contains other ∧
          ∀ addr, vmm.pmm.map.hhdmOffset + addr = other → ¬MemmapContains memmap addr) →
        walk after.pmm.map.physical after.cr3 virt = none := by
  obtain ⟨after, root, free', hinit, hcr3, hkernel, hmaps, -⟩ :=
    vmmInit_spec hfree hspace hframes
  have hsection : ∀ range flags writable, (range, flags) ∈ sections.parts →
      decide (flags &&& vmFlagWrite ≠ 0) = writable → ∀ virt, range.Contains virt →
        after.lookup virt =
          some (sub64 virt (sub64 kernelAddress.virt kernelAddress.phys), writable) := by
    intro range flags writable hpart hwritable virt hvirt
    rw [← hwritable]
    exact lookup_section hspace hcr3 hmaps hpart hvirt
  refine ⟨after, hinit, hcr3.trans hkernel.symm, ?_, ?_, ?_, ?_, ?_, ?_⟩
  · exact hsection _ vmFlagDefault false (by simp [KernelSections.parts]) (by decide)
  · exact hsection _ vmFlagNx false (by simp [KernelSections.parts]) (by decide)
  · exact hsection _ (vmFlagWrite ||| vmFlagNx) true (by simp [KernelSections.parts])
      (by decide)
  · exact hsection _ vmFlagNx false (by simp [KernelSections.parts]) (by decide)
  · intro addr haddr
    exact lookup_window hspace hcr3 hmaps haddr (hspace.window_entry haddr)
  · intro virt hvirt hother
    rw [hcr3, hmaps.walk_eq List.mem_cons_self hvirt, hspace.other_entry,
      leafTranslation_zero]
    · exact fun other hpage => (hother other hpage).1
    · exact fun addr hpage => (hother _ hpage).2 addr rfl

/-- An image of five pages, the last one used in part. -/
def fivePageKernel : KernelSections where
  limineRequests := ⟨0xffffffff80000000, 0xffffffff80001000⟩
  text := ⟨0xffffffff80001000, 0xffffffff80002000⟩
  rodata := ⟨0xffffffff80002000, 0xffffffff80003000⟩
  data := ⟨0xffffffff80003000, 0xffffffff80004800⟩

def fivePageKernelAddress : KernelAddress := ⟨0xffffffff80000000, 0x100000⟩

theorem kernelImage_fivePageKernel :
    KernelImage fivePageKernel fivePageKernelAddress where
  virtAligned := by decide
  physAligned := by decide
  aligned := by decide
  higherHalf := by decide
  base := by decide
  limineRequests := by decide
  text := by decide
  textOrdered := by decide
  rodata := by decide
  rodataOrdered := by decide
  data := by decide
  dataOrdered := by decide
  bounded := by decide
  physical := by decide

theorem le_of_fivePageKernel_contains {virt : ℕ} (hvirt : fivePageKernel.Contains virt) :
    0xffffffff80000000 ≤ virt := by
  obtain ⟨part, hpart, hcontains⟩ := hvirt
  have hstart : ∀ part ∈ fivePageKernel.parts, 0xffffffff80000000 ≤ part.1.start := by
    decide
  exact (hstart part hpart).trans hcontains.1

/-- Physical memory below `2 ^ 46` is shown far below the image. -/
theorem bootSpace_fivePageKernel {memmap : PhysMemoryMap}
    (hnonempty : ∀ entry ∈ memmap.entries, 0 < entry.length)
    (hbounded : ∀ entry ∈ memmap.entries, entry.base + entry.length ≤ 2 ^ 46) :
    BootSpace 0xffff800000000000 memmap fivePageKernel fivePageKernelAddress := by
  have hlow : ∀ addr, MemmapContains memmap addr → addr < 2 ^ 46 := by
    rintro addr ⟨entry, hentry, -, hupper⟩
    exact hupper.trans_le (hbounded entry hentry)
  refine ⟨kernelImage_fivePageKernel, ⟨by decide, hnonempty, ?_, ?_⟩, ?_⟩
  · intro entry hentry
    exact (hbounded entry hentry).trans (by decide)
  · intro addr haddr
    have haddr := hlow addr haddr
    exact Or.inr ⟨by omega, by omega⟩
  · intro virt addr hvirt haddr
    have haddr := hlow addr haddr
    have hhigh := le_of_fivePageKernel_contains hvirt
    simp only [pageSize]
    omega

/-- Usable pages between a reserved one and an unaligned region that overlaps them. -/
def overlappingMap : PhysMemoryMap where
  entries := [⟨0, 0x1000, .reserved⟩, ⟨0x1000, 0x9000, .usable⟩, ⟨0x9800, 0x1000, .reserved⟩]

theorem bootMap_overlappingMap : BootMap 0xffff800000000000 overlappingMap where
  higherHalf := by decide
  aligned := by decide
  positive := by decide
  physical := by decide
  mapped := by decide
  disjoint := by decide

theorem vmmInit_kernel_space_overlappingMap :
    ∃ pmm after, pmmInit (fun _ => 0) 0xffff800000000000 overlappingMap = some pmm ∧
      vmmInit ⟨pmm, 0, 0, fun _ => none⟩ overlappingMap fivePageKernel
        fivePageKernelAddress = some after ∧
      after.lookup 0xffffffff80002123 = some (0x102123, false) ∧
      after.lookup 0xffff80000000a7ff = some (0xa7ff, true) ∧
      walk after.pmm.map.physical after.cr3 0xffff810000000000 = none := by
  obtain ⟨pmm, hinit, hfree, hoffset⟩ := pmmInit_spec (fun _ => 0) bootMap_overlappingMap
  have hspace : BootSpace pmm.map.hhdmOffset overlappingMap fivePageKernel
      fivePageKernelAddress := by
    rw [hoffset]
    exact bootSpace_fivePageKernel (by decide) (by decide)
  obtain ⟨after, hrun, -, -, hrodata, -, -, hwindow, hother⟩ :=
    vmmInit_kernel_space ⟨pmm, 0, 0, fun _ => none⟩ _ overlappingMap fivePageKernel
      fivePageKernelAddress hfree hspace (by
        change (requestTables (vmmInitRequests pmm.map.hhdmOffset _ _ _)).card < _
        rw [hoffset]
        decide +kernel)
  refine ⟨pmm, after, hinit, hrun, ?_, ?_, ?_⟩
  · exact hrodata 0xffffffff80002123 (by unfold SectionRange.Contains; decide)
  · have haddr : MemmapContains overlappingMap 0xa7ff :=
      ⟨⟨0x9800, 0x1000, .reserved⟩, by decide, by decide, by decide⟩
    have hfound := hwindow 0xa7ff haddr
    rwa [show (⟨pmm, 0, 0, fun _ => none⟩ : Vmm).pmm.map.hhdmOffset = _ from hoffset]
      at hfound
  · apply hother 0xffff810000000000 (by decide)
    intro virt hpage
    simp only [pageSize] at hpage
    constructor
    · intro hvirt
      have hhigh := le_of_fivePageKernel_contains hvirt
      omega
    · rintro addr hsum ⟨entry, hentry, -, hupper⟩
      have hlow : ∀ entry ∈ overlappingMap.entries, entry.base + entry.length ≤ 2 ^ 20 := by
        decide
      have haddr := hupper.trans_le (hlow entry hentry)
      have hsum' : pmm.map.hhdmOffset + addr = virt := hsum
      rw [hoffset] at hsum'
      omega

end VmmInit

end Flurry.Paging
