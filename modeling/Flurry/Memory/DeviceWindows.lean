import Flurry.Hardware.LapicSetup
import Flurry.Memory.HeapPages

/-!
# The registers of the devices

After `vmm_init` and `kmalloc_init`, `kinit` sets up the HPET, the local APIC and the
I/O APIC.  Each of them maps the page of its registers where the window onto physical
memory would show it, whether or not the memory map has that page.  A page that the
window shows already is mapped once more, to the same frame.
-/

namespace Flurry.Paging

open ByteMemory PhysicalMemory BitField Madt IoApic LapicSetup
open Kmalloc (heapStart heapEnd)

/-! ## The calls -/

/-- What the three functions have in common. -/
def kmapRegisters (vmm : Vmm) (hhdmOffset addr flags : ℕ) : Option Vmm :=
  vmmKmap vmm (wrap64 (addr + hhdmOffset)) addr flags

/-- What `hpet_setup` does before it uses the registers. -/
def hpetSetupMap (vmm : Vmm) (hhdmOffset addr : ℕ) : Option Vmm :=
  kmapRegisters vmm hhdmOffset addr (vmFlagWrite ||| vmFlagNx)

/-- The mapping that `lapic_init` makes for the base it reads. -/
def lapicInitMap (wide : FullShift) (vmm : Vmm) (hhdmOffset : ℕ) (msr : BitVec 64) :
    Option Vmm :=
  kmapRegisters vmm hhdmOffset (lapicInitBase wide msr).1.toNat (vmFlagWrite ||| vmFlagNoCache)

/-- The mapping that `ioapic_init` makes, `none` for a null pointer. -/
def ioapicInitMap (vmm : Vmm) (hhdmOffset : ℕ) (lists : MadtLists) : Option Vmm := do
  let ioapic ← ioapicInit lists
  kmapRegisters vmm hhdmOffset ioapic.ioapicAddr.toNat (vmFlagWrite ||| vmFlagNx)

/-- Where the devices are: the address in the HPET table, the base register of the local
APIC and the lists of the MADT. -/
structure Devices where
  hpetAddress : ℕ
  apicBaseMsr : BitVec 64
  madt : MadtLists

/-- The calls in the order of `kinit`. -/
def kinitDevices (wide : FullShift) (vmm : Vmm) (hhdmOffset : ℕ) (devices : Devices) :
    Option Vmm := do
  let vmm ← hpetSetupMap vmm hhdmOffset devices.hpetAddress
  let vmm ← lapicInitMap wide vmm hhdmOffset devices.apicBaseMsr
  ioapicInitMap vmm hhdmOffset devices.madt

/-! ## Pages of registers -/

/-- A page of registers with the flags it is mapped with. -/
structure RegisterPage where
  base : ℕ
  flags : ℕ
  deriving DecidableEq, Repr

def RegisterPage.request (hhdmOffset : ℕ) (page : RegisterPage) : KmapRequest :=
  ⟨hhdmOffset + page.base, page.base, page.flags⟩

def Devices.pages (wide : FullShift) (devices : Devices) : List RegisterPage :=
  ⟨devices.hpetAddress, vmFlagWrite ||| vmFlagNx⟩ ::
    ⟨(lapicInitBase wide devices.apicBaseMsr).1.toNat, vmFlagWrite ||| vmFlagNoCache⟩ ::
      (ioapicInit devices.madt).toList.map fun ioapic =>
        ⟨ioapic.ioapicAddr.toNat, vmFlagWrite ||| vmFlagNx⟩

/-- The pages can be mapped in the window, and take nothing away from the image and from
the heap there. -/
structure RegisterSpace (hhdmOffset : ℕ) (sections : KernelSections)
    (pages : List RegisterPage) : Prop where
  aligned : ∀ page ∈ pages, page.base % pageSize = 0
  physical : ∀ page ∈ pages, page.base < 2 ^ 52
  canonical : ∀ page ∈ pages, Canonical (hhdmOffset + page.base)
  image : ∀ page ∈ pages, ∀ virt, sections.Contains virt →
    (hhdmOffset + page.base) / pageSize ≠ virt / pageSize
  heap : ∀ page ∈ pages, ¬InHeap (hhdmOffset + page.base)

theorem Devices.flags_ok {wide : FullShift} {devices : Devices} {page : RegisterPage}
    (hpage : page ∈ devices.pages wide) :
    BuiltFromVmFlags page.flags ∧ page.flags &&& vmFlagWrite ≠ 0 := by
  have hflags : page.flags = vmFlagWrite ||| vmFlagNx ∨
      page.flags = vmFlagWrite ||| vmFlagNoCache := by
    simp only [Devices.pages, List.mem_cons, List.mem_map] at hpage
    rcases hpage with rfl | rfl | ⟨ioapic, -, rfl⟩
    · exact Or.inl rfl
    · exact Or.inr rfl
    · exact Or.inl rfl
  rcases hflags with hflags | hflags <;> rw [hflags] <;> decide

section Registers

variable {hhdmOffset root number : ℕ} {sections : KernelSections} {pages : List RegisterPage}
variable {page : RegisterPage} {entries : PageEntries}

/-- A page either gets the entry of a page of registers or keeps the one it has. -/
theorem registerEntries_cases :
    (∃ page ∈ pages, (hhdmOffset + page.base) / pageSize = number ∧
      requestEntries root (pages.map (RegisterPage.request hhdmOffset)) entries root number =
        mapEntry page.base page.flags) ∨
    (∀ page ∈ pages, (hhdmOffset + page.base) / pageSize ≠ number) ∧
      requestEntries root (pages.map (RegisterPage.request hhdmOffset)) entries root number =
        entries root number := by
  induction pages generalizing entries with
  | nil => exact Or.inr ⟨nofun, rfl⟩
  | cons first pages ih =>
      rw [List.map_cons, requestEntries, List.foldl_cons, ← requestEntries]
      rcases ih with ⟨page, hpage, hnumber, hentry⟩ | ⟨hnone, hentry⟩
      · exact Or.inl ⟨page, List.mem_cons_of_mem first hpage, hnumber, hentry⟩
      · by_cases hfirst : (hhdmOffset + first.base) / pageSize = number
        · exact Or.inl ⟨first, List.mem_cons_self, hfirst,
            hentry.trans (PageEntries.set_self hfirst.symm)⟩
        · exact Or.inr ⟨List.forall_mem_cons.mpr ⟨hfirst, hnone⟩,
            hentry.trans (PageEntries.set_of_ne fun hand => hfirst hand.2.symm)⟩

/-- The window shows a page of registers where it would show any other page. -/
theorem RegisterSpace.lookup (hregisters : RegisterSpace hhdmOffset sections pages)
    (hflags : ∀ page ∈ pages, BuiltFromVmFlags page.flags ∧ page.flags &&& vmFlagWrite ≠ 0)
    (haligned : hhdmOffset % pageSize = 0) {after : Vmm} {free : List ℕ}
    {paths : Finset (List ℕ)} (hroot : after.cr3 = root)
    (hmaps : after.Maps [root] free (requestEntries root
      (pages.map (RegisterPage.request hhdmOffset)) entries) root paths)
    (hpage : page ∈ pages) {addr : ℕ}
    (hsame : (hhdmOffset + page.base) / pageSize = (hhdmOffset + addr) / pageSize) :
    after.lookup (hhdmOffset + addr) = some (addr, true) := by
  rcases @registerEntries_cases hhdmOffset root ((hhdmOffset + addr) / pageSize) pages
    entries with ⟨last, hlast, hnumber, hentry⟩ | ⟨hnone, -⟩
  · -- pages that coincide have the same frame
    have hbase := hregisters.aligned last hlast
    have hstart : (hhdmOffset + addr) / pageSize * pageSize = hhdmOffset + last.base := by
      simp only [pageSize] at haligned hbase hnumber ⊢
      omega
    have hoffset : last.base + (hhdmOffset + addr) % pageSize = addr := by
      simp only [pageSize] at haligned hbase hnumber ⊢
      omega
    have hcanonical : Canonical (hhdmOffset + addr) := by
      apply canonical_page
      rw [hstart]
      exact hregisters.canonical last hlast
    obtain ⟨hbuilt, hwrite⟩ := hflags last hlast
    rw [lookup_of_entry hroot hmaps hcanonical hentry
      ⟨hbase, hregisters.physical last hlast, hbuilt⟩, hoffset, decide_eq_true hwrite]
  · exact absurd hsame (hnone page hpage)

end Registers

theorem kinitDevices_eq {wide : FullShift} {vmm : Vmm} {hhdmOffset : ℕ} {devices : Devices}
    (hioapic : devices.madt.ioapics ≠ [])
    (hcanonical : ∀ page ∈ devices.pages wide, Canonical (hhdmOffset + page.base)) :
    kinitDevices wide vmm hhdmOffset devices =
      ((devices.pages wide).map (RegisterPage.request hhdmOffset)).foldlM KmapRequest.run
        vmm := by
  have hwrap : ∀ page ∈ devices.pages wide,
      wrap64 (page.base + hhdmOffset) = hhdmOffset + page.base := by
    intro page hpage
    have hbound := hcanonical page hpage
    simp only [Canonical] at hbound
    rw [Nat.add_comm]
    exact wrap64_of_lt (by omega)
  obtain ⟨ioapic, rest, hlist⟩ := List.exists_cons_of_ne_nil hioapic
  have hfirst : ioapicInit devices.madt = some ioapic := by rw [ioapicInit, hlist]; rfl
  simp only [Devices.pages, hfirst, Option.toList_some, List.map_cons, List.map_nil,
    List.forall_mem_cons] at hwrap
  obtain ⟨hhpet, hlapic, hio, -⟩ := hwrap
  simp only [kinitDevices, hpetSetupMap, lapicInitMap, ioapicInitMap, kmapRegisters, hfirst,
    hhpet, hlapic, hio, Devices.pages, Option.toList_some, List.map_cons, List.map_nil,
    RegisterPage.request, List.foldlM_cons, List.foldlM_nil, KmapRequest.run,
    Option.bind_eq_bind, Option.bind_some, Option.pure_def, Option.bind_fun_some]

/-! ## The address space of the kernel -/

/-- What the kernel finds in its address space. -/
structure KernelMap (vmm : Vmm) (hhdmOffset : ℕ) (memmap : PhysMemoryMap)
    (sections : KernelSections) (kernelAddress : KernelAddress) (free : List ℕ)
    (pages : List RegisterPage) : Prop where
  image : ∀ part ∈ sections.parts, ∀ virt, part.1.Contains virt →
    vmm.lookup virt = some (sub64 virt (sub64 kernelAddress.virt kernelAddress.phys),
      decide (part.2 &&& vmFlagWrite ≠ 0))
  window : ∀ addr, MemmapContains memmap addr →
    vmm.lookup (hhdmOffset + addr) = some (addr, true)
  heap : ∀ virt, InHeap virt →
    ∃ frame ∈ free, vmm.lookup virt = some (frame + virt % pageSize, true)
  registers : ∀ page ∈ pages, ∀ register < pageSize,
    vmm.lookup (hhdmOffset + page.base + register) = some (page.base + register, true)
  nothingElse : ∀ virt, Canonical virt → ¬InHeap virt →
    (∀ other, other / pageSize = virt / pageSize → ¬sections.Contains other ∧
      (∀ addr, hhdmOffset + addr = other → ¬MemmapContains memmap addr) ∧
        ∀ page ∈ pages, hhdmOffset + page.base ≠ other) →
    walk vmm.pmm.map.physical vmm.cr3 virt = none

/-- The entries that `vmm_init` and `kmalloc_init` made, with the pages of registers over
them. -/
theorem KernelMap.of_entries {after : Vmm} {hhdmOffset root : ℕ} {memmap : PhysMemoryMap}
    {sections : KernelSections} {kernelAddress : KernelAddress} {free freeAfter : List ℕ}
    {pages : List RegisterPage} {entries : PageEntries} {paths : Finset (List ℕ)}
    (hspace : BootSpace hhdmOffset memmap sections kernelAddress)
    (hlinked : heapEnd ≤ sections.limineRequests.start)
    (hapart : ∀ addr, MemmapContains memmap addr → ¬InHeap (hhdmOffset + addr))
    (hframes : ∀ frame ∈ free, frame % pageSize = 0 ∧ frame < 2 ^ 52)
    (hregisters : RegisterSpace hhdmOffset sections pages)
    (hflags : ∀ page ∈ pages, BuiltFromVmFlags page.flags ∧ page.flags &&& vmFlagWrite ≠ 0)
    (hkept : ∀ virt, ¬InHeap virt → entries root (virt / pageSize) = requestEntries root
      (vmmInitRequests hhdmOffset memmap sections kernelAddress) .empty root (virt / pageSize))
    (hheap : ∀ virt, InHeap virt → ∃ frame ∈ free, entries root (virt / pageSize) =
      mapEntry frame (vmFlagWrite ||| vmFlagNx))
    (hroot : after.cr3 = root)
    (hmaps : after.Maps [root] freeAfter (requestEntries root
      (pages.map (RegisterPage.request hhdmOffset)) entries) root paths) :
    KernelMap after hhdmOffset memmap sections kernelAddress free pages := by
  have haligned := hspace.window.aligned
  have houtside : ∀ virt,
      (∀ page ∈ pages, (hhdmOffset + page.base) / pageSize ≠ virt / pageSize) →
        requestEntries root (pages.map (RegisterPage.request hhdmOffset)) entries root
          (virt / pageSize) = entries root (virt / pageSize) := by
    intro virt hnone
    rcases registerEntries_cases with ⟨page, hpage, hnumber, -⟩ | ⟨-, hentry⟩
    · exact absurd hnumber (hnone page hpage)
    · exact hentry
  refine ⟨?_, ?_, ?_, ?_, ?_⟩
  · intro part hpart virt hvirt
    have hinside : ¬InHeap virt := fun hin =>
      heap_notMem_kernelPages hspace hlinked hapart hin
        (Or.inl ⟨virt, ⟨part, hpart, hvirt⟩, rfl⟩)
    apply lookup_section_of_entry hspace hroot hmaps hpart hvirt
    rw [houtside virt fun page hpage => hregisters.image page hpage virt ⟨part, hpart, hvirt⟩,
      hkept virt hinside, hspace.section_entry hpart hvirt]
  · intro addr haddr
    by_cases hshown : ∃ page ∈ pages,
        (hhdmOffset + page.base) / pageSize = (hhdmOffset + addr) / pageSize
    · obtain ⟨page, hpage, hsame⟩ := hshown
      exact hregisters.lookup hflags haligned hroot hmaps hpage hsame
    · apply lookup_window hspace hroot hmaps haddr
      rw [houtside _ fun page hpage hsame => hshown ⟨page, hpage, hsame⟩,
        hkept _ (hapart addr haddr), hspace.window_entry haddr]
  · intro virt hvirt
    obtain ⟨frame, hframe, hentry⟩ := hheap virt hvirt
    have hnone : ∀ page ∈ pages, (hhdmOffset + page.base) / pageSize ≠ virt / pageSize := by
      intro page hpage hsame
      apply hregisters.heap page hpage
      rw [inHeap_iff_page, hsame]
      exact inHeap_iff_page.mp hvirt
    obtain ⟨hframe', hphysical⟩ := hframes frame hframe
    exact ⟨frame, hframe, lookup_of_entry hroot hmaps (canonical_heap hvirt)
      ((houtside virt hnone).trans hentry) ⟨hframe', hphysical, by decide⟩⟩
  · intro page hpage register hregister
    rw [Nat.add_assoc]
    apply hregisters.lookup hflags haligned hroot hmaps hpage
    have hbase := hregisters.aligned page hpage
    simp only [pageSize] at haligned hbase hregister ⊢
    omega
  · intro virt hvirt hinside hother
    rw [hroot, hmaps.walk_eq List.mem_cons_self hvirt, houtside virt
      fun page hpage hsame => (hother _ hsame).2.2 page hpage rfl, hkept virt hinside,
      hspace.other_entry, leafTranslation_zero]
    · exact fun other hpage => (hother other hpage).1
    · exact fun addr hpage => (hother _ hpage).2.1 addr rfl

/-- When `kinit` has set up memory and the devices, the image, the memory map, the heap
and the registers of all devices are found where the rest of the kernel looks for them,
and no other page is present.  This takes a window that shows neither the memory map nor
registers where the heap and the image are. -/
theorem kinit_address_space (wide : FullShift) (vmm : Vmm) (free : List ℕ)
    (memmap : PhysMemoryMap) (sections : KernelSections) (kernelAddress : KernelAddress)
    (devices : Devices) (hfree : vmm.pmm.FreeList free)
    (hspace : BootSpace vmm.pmm.map.hhdmOffset memmap sections kernelAddress)
    (hlinked : heapEnd ≤ sections.limineRequests.start)
    (hapart : ∀ addr, MemmapContains memmap addr → ¬InHeap (vmm.pmm.map.hhdmOffset + addr))
    (hioapic : devices.madt.ioapics ≠ [])
    (hregisters : RegisterSpace vmm.pmm.map.hhdmOffset sections (devices.pages wide))
    (hframes : (requestTables (vmmInitRequests vmm.pmm.map.hhdmOffset memmap sections
      kernelAddress) ∪ tablePaths heapStart ∪ requestTables ((devices.pages wide).map
        (RegisterPage.request vmm.pmm.map.hhdmOffset))).card + heapPages < free.length) :
    ∃ booted heap after, vmmInit vmm memmap sections kernelAddress = some booted ∧
      kmallocInitMap booted = some heap ∧
      kinitDevices wide heap vmm.pmm.map.hhdmOffset devices = some after ∧
      after.cr3 = after.kernelPml4 ∧
      KernelMap after vmm.pmm.map.hhdmOffset memmap sections kernelAddress free
        (devices.pages wide) := by
  set hhdmOffset := vmm.pmm.map.hhdmOffset
  set requests := (devices.pages wide).map (RegisterPage.request hhdmOffset)
  set tables := requestTables (vmmInitRequests hhdmOffset memmap sections kernelAddress) ∪
    tablePaths heapStart
  have hgrow : tables.card ≤ (tables ∪ requestTables requests).card :=
    Finset.card_le_card Finset.subset_union_left
  obtain ⟨booted, heap, root, freeBooted, freeHeap, entries, pathsBooted, pathsHeap, hinit,
    hloop, ⟨-, -, hcr3⟩, -, hmaps, hkept, hheap, hkernel, hpaths, hcount⟩ :=
    kernelBoot_room hfree hspace
      ((Nat.add_le_add_right hgrow heapPages).trans_lt hframes)
  have hvalid : ∀ request ∈ requests, request.Valid := by
    intro request hrequest
    obtain ⟨page, hpage, rfl⟩ := List.mem_map.mp hrequest
    exact ⟨hregisters.canonical page hpage, hregisters.physical page hpage⟩
  have hroom : (pathsHeap ∪ requestTables requests).card ≤
      pathsHeap.card + freeHeap.length := by
    have htables : (pathsHeap ∪ requestTables requests).card ≤
        (tables ∪ requestTables requests).card :=
      Finset.card_le_card (Finset.union_subset_union_left hpaths)
    omega
  obtain ⟨after, freeAfter, hrun, hkernel', hcr3', hmaps', -⟩ :=
    kmapRequests_spec hmaps List.mem_cons_self hkernel hvalid hroom
  have hroot : after.cr3 = root := hcr3'.trans hcr3
  have hphysical : ∀ frame ∈ free, frame % pageSize = 0 ∧ frame < 2 ^ 52 := by
    intro frame hframe
    have hok := hfree.frameOk frame hframe
    exact ⟨hok.aligned, (Nat.lt_add_of_pos_right (by decide)).trans_le hok.physical⟩
  exact ⟨booted, heap, after, hinit, hloop,
    (kinitDevices_eq hioapic hregisters.canonical).trans hrun, hroot.trans hkernel'.symm,
    .of_entries hspace hlinked hapart hphysical hregisters (fun _ => Devices.flags_ok) hkept
      hheap hroot hmaps'⟩

/-- Each request passes through three tables. -/
theorem card_requestTables_le (requests : List KmapRequest) :
    (requestTables requests).card ≤ 3 * requests.length := by
  induction requests with
  | nil => exact le_rfl
  | cons request requests ih =>
      have hfirst : (tablePaths request.virt).card ≤ 3 := Finset.card_le_three
      have hunion := Finset.card_union_le (tablePaths request.virt) (requestTables requests)
      rw [requestTables, List.length_cons]
      omega

/-- The shift folded to zero. -/
def foldedShift : FullShift := ⟨fun _ => 0, rfl⟩

/-- The usual addresses of a PC. -/
def pcDevices : Devices where
  hpetAddress := 0xfed00000
  apicBaseMsr := 0xfee00900
  madt := { ioapics := [⟨0, 0, 0xfec00000, 0⟩] }

theorem pages_pcDevices : pcDevices.pages foldedShift =
    [⟨0xfed00000, vmFlagWrite ||| vmFlagNx⟩, ⟨0xfee00000, vmFlagWrite ||| vmFlagNoCache⟩,
      ⟨0xfec00000, vmFlagWrite ||| vmFlagNx⟩] := by
  decide +kernel

theorem registerSpace_pcDevices :
    RegisterSpace 0xffff800000000000 fivePageKernel (pcDevices.pages foldedShift) := by
  rw [pages_pcDevices]
  refine ⟨by decide, by decide, by decide, ?_, by decide⟩
  intro page hpage virt hvirt
  have hlower := le_of_fivePageKernel_contains hvirt
  simp only [List.mem_cons, List.not_mem_nil, or_false] at hpage
  simp only [pageSize]
  rcases hpage with rfl | rfl | rfl <;> dsimp only <;> omega

/-- A memory map that has the page of the HPET too. -/
theorem kinit_address_space_pcDevices :
    ∃ pmm booted heap after,
      pmmInit (fun _ => 0) 0xffff800000000000 (heapMap 0xfed00000) = some pmm ∧
      vmmInit ⟨pmm, 0, 0, fun _ => none⟩ (heapMap 0xfed00000) fivePageKernel
        fivePageKernelAddress = some booted ∧
      kmallocInitMap booted = some heap ∧
      kinitDevices foldedShift heap 0xffff800000000000 pcDevices = some after ∧
      after.lookup 0xffff8000fed000f0 = some (0xfed000f0, true) ∧
      after.lookup 0xffff8000fee000b0 = some (0xfee000b0, true) ∧
      after.lookup 0xffff8000fec00010 = some (0xfec00010, true) ∧
      after.lookup 0xffffffff80001234 = some (0x101234, false) := by
  obtain ⟨pmm, hinit, hfree, hoffset⟩ := pmmInit_spec (fun _ => 0) (bootMap_heapMap 0xfed00000)
  have happly := kinit_address_space foldedShift ⟨pmm, 0, 0, fun _ => none⟩ _
    (heapMap 0xfed00000) fivePageKernel fivePageKernelAddress pcDevices hfree
  dsimp only at happly
  rw [hoffset] at happly
  have hapart : ∀ addr, MemmapContains (heapMap 0xfed00000) addr →
      ¬InHeap (0xffff800000000000 + addr) := by
    rintro addr ⟨entry, hentry, -, hupper⟩ hheap
    have hlower := hheap.1
    simp only [heapStart] at hlower
    simp only [heapMap, List.mem_cons, List.not_mem_nil, or_false] at hentry
    rcases hentry with rfl | rfl | rfl <;> dsimp only at hupper <;> omega
  obtain ⟨booted, heap, after, hrun, hloop, hdevices, -, hmap⟩ := happly
    (bootSpace_heapMap (by decide)) (by decide) hapart (by decide) registerSpace_pcDevices (by
      have htables := card_tables_heapMap (show 0xfed00000 % pageSize = 0 by decide) (by decide)
      have hrequests := card_requestTables_le ((pcDevices.pages foldedShift).map
        (RegisterPage.request 0xffff800000000000))
      have hpages : (pcDevices.pages foldedShift).length = 3 := by rw [pages_pcDevices]; rfl
      have hunion := Finset.card_union_le (requestTables (vmmInitRequests 0xffff800000000000
        (heapMap 0xfed00000) fivePageKernel fivePageKernelAddress) ∪ tablePaths heapStart)
        (requestTables ((pcDevices.pages foldedShift).map
          (RegisterPage.request 0xffff800000000000)))
      have hheap : heapPages = 0x200 := by decide
      rw [List.length_map, hpages] at hrequests
      rw [List.length_reverse, usableFrames_heapMap, length_pagesFrom, hheap]
      omega)
  rw [pages_pcDevices] at hmap
  refine ⟨pmm, booted, heap, after, hinit, hrun, hloop, hdevices, ?_, ?_, ?_, ?_⟩
  · exact hmap.registers _ List.mem_cons_self 0xf0 (by decide)
  · exact hmap.registers _ (List.mem_cons_of_mem _ List.mem_cons_self) 0xb0 (by decide)
  · exact hmap.registers _
      (List.mem_cons_of_mem _ (List.mem_cons_of_mem _ List.mem_cons_self)) 0x10 (by decide)
  · exact hmap.image (fivePageKernel.text, vmFlagDefault) (by simp [KernelSections.parts])
      0xffffffff80001234 ⟨by decide, by decide⟩

end Flurry.Paging
