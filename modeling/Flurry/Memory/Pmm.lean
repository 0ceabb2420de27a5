import Flurry.Memory.StringOps

/-!
# The physical frame allocator of `pmm.c`

Free frames are kept on a singly linked list threaded through the frames
themselves.  The kernel reaches physical memory only at `phys + hhdm_offset`,
so a pointer below that window is not mapped: accessing it is a page fault, and
the definitions return `none` there.
-/

namespace Flurry.PhysicalMemory

open ByteMemory

/-- `PAGE_SIZE` of `paging.h` and `pmm.h`. -/
def pageSize : ℕ := 4096

/-- Physical memory and the address at which the kernel sees it. -/
@[ext]
structure DirectMap where
  physical : Memory
  hhdmOffset : ℕ

namespace DirectMap

/-- The physical address behind a pointer, `none` for an unmapped one. -/
def translate (map : DirectMap) (virt : ℕ) : Option ℕ :=
  if map.hhdmOffset ≤ virt then some (virt - map.hhdmOffset) else none

def read64 (map : DirectMap) (virt : ℕ) : Option ℕ :=
  (map.translate virt).map (load64 map.physical)

def write64 (map : DirectMap) (virt value : ℕ) : Option DirectMap :=
  (map.translate virt).map fun phys =>
    { map with physical := store64 map.physical phys value }

def memset (map : DirectMap) (virt val len : ℕ) : Option DirectMap :=
  (map.translate virt).map fun phys =>
    { map with physical := StringOps.memset map.physical phys val len }

@[simp]
theorem translate_window (map : DirectMap) (phys : ℕ) :
    map.translate (phys + map.hhdmOffset) = some phys := by
  simp [translate]

theorem translate_of_lt {map : DirectMap} {virt : ℕ}
    (hvirt : virt < map.hhdmOffset) : map.translate virt = none := by
  rw [translate, if_neg (by omega)]

theorem read64_window (map : DirectMap) (phys : ℕ) :
    map.read64 (phys + map.hhdmOffset) = some (load64 map.physical phys) := by
  simp [read64]

theorem write64_window (map : DirectMap) (phys value : ℕ) :
    map.write64 (phys + map.hhdmOffset) value =
      some { map with physical := store64 map.physical phys value } := by
  simp [write64]

theorem memset_window (map : DirectMap) (phys val len : ℕ) :
    map.memset (phys + map.hhdmOffset) val len =
      some { map with physical := fill map.physical phys len (lowByte val) } := by
  simp [memset, StringOps.memset_eq_fill]

end DirectMap

/-! ## Boot memory map -/

inductive PhysMemoryRegionType where
  | usable
  | reserved
  | acpiReclaimable
  | acpiNvs
  | badMemory
  | bootloaderReclaimable
  | kernelAndModules
  | framebuffer
  /-- a variable of the type may hold any other word, if nothing was assigned to it -/
  | other (word : BitVec 32) (unnamed : 8 ≤ word.toNat)
  deriving DecidableEq, Repr

structure PhysMemoryRegion where
  base : ℕ
  length : ℕ
  type : PhysMemoryRegionType
  deriving DecidableEq, Repr

/-- `entry_count` is the length of the list. -/
structure PhysMemoryMap where
  entries : List PhysMemoryRegion
  deriving DecidableEq, Repr

/-! ## The allocator -/

/-- `free_list_head` is a pointer into the window, 0 for `NULL`.  A `FreePage`
keeps its physical address at offset 0 and the link at offset 8. -/
@[ext]
structure Pmm where
  map : DirectMap
  freeListHead : ℕ

/-- The body of the inner loop of `pmm_init`. -/
def pushPage (pmm : Pmm) (addr : ℕ) : Option Pmm := do
  let page := wrap64 (addr + pmm.map.hhdmOffset)
  let map ← pmm.map.write64 page addr
  let map ← map.write64 (page + 8) pmm.freeListHead
  return { map := map, freeListHead := page }

/-- The inner loop of `pmm_init`, `none` if it is still running after `fuel`
iterations. -/
def pmmInitRegion (stop : ℕ) : ℕ → ℕ → Pmm → Option Pmm
  | 0, addr, pmm => if addr < stop then none else some pmm
  | fuel + 1, addr, pmm =>
      if addr < stop then do
        let pmm ← pushPage pmm addr
        pmmInitRegion stop fuel (wrap64 (addr + pageSize)) pmm
      else some pmm

/-- Page-sized steps visit at most this many addresses before they repeat. -/
def pageCount : ℕ := 2 ^ 52

/-- One iteration of the outer loop of `pmm_init`. -/
def pmmInitEntry (pmm : Pmm) (entry : PhysMemoryRegion) : Option Pmm :=
  if entry.type ≠ .usable then some pmm
  else pmmInitRegion (wrap64 (entry.base + entry.length)) pageCount entry.base pmm

/-- The outer loop starts at index 1.  The counters kept for the log line are
left out. -/
def pmmInit (physical : Memory) (offset : ℕ) (memoryMap : PhysMemoryMap) :
    Option Pmm :=
  (memoryMap.entries.drop 1).foldlM pmmInitEntry
    { map := { physical := physical, hhdmOffset := offset }, freeListHead := 0 }

def pmmAlloc (pmm : Pmm) : Option (Pmm × ℕ) :=
  if pmm.freeListHead = 0 then some (pmm, 0)
  else do
    let page := pmm.freeListHead
    let next ← pmm.map.read64 (page + 8)
    let addr ← pmm.map.read64 page
    let map ← pmm.map.memset (wrap64 (addr + pmm.map.hhdmOffset)) 0 pageSize
    return ({ map := map, freeListHead := next }, addr)

/-- `page` is the physical address itself, not its image in the window. -/
def pmmFree (pmm : Pmm) (addr : ℕ) : Option Pmm := do
  let page := addr
  let map ← pmm.map.write64 (page + 8) pmm.freeListHead
  return { map := map, freeListHead := page }

/-! ## The list threaded through the free frames -/

/-- A whole frame with all of its bytes in the window. -/
structure FrameInWindow (offset frame : ℕ) : Prop where
  aligned : frame % pageSize = 0
  mapped : frame + pageSize + offset ≤ 2 ^ 64

/-- A frame whose address is no null pointer. -/
structure FrameMapped (offset frame : ℕ) : Prop extends FrameInWindow offset frame where
  positive : 0 < frame

/-- Physical addresses have at most 52 bits. -/
structure FrameOk (offset frame : ℕ) : Prop extends FrameMapped offset frame where
  physical : frame + pageSize ≤ 2 ^ 52

/-- Starting from the pointer `head`, the links lead through the given frames,
and each of them records its own address. -/
def Chain (map : DirectMap) : ℕ → List ℕ → Prop
  | head, [] => head = 0
  | head, frame :: rest =>
      head = frame + map.hhdmOffset ∧ load64 map.physical frame = frame ∧
        Chain map (load64 map.physical (frame + 8)) rest

/-- The frames on the list of the allocator, first frame first.  Frame 0 may be one of
them: its image in the window is no null pointer. -/
structure Pmm.Lists (pmm : Pmm) (frames : List ℕ) : Prop where
  chain : Chain pmm.map pmm.freeListHead frames
  nodup : frames.Nodup
  inWindow : ∀ frame ∈ frames, FrameInWindow pmm.map.hhdmOffset frame

/-- Frame 0 is not among them. -/
structure Pmm.Threads (pmm : Pmm) (frames : List ℕ) : Prop extends pmm.Lists frames where
  positive : ∀ frame ∈ frames, 0 < frame

/-- The free list of the allocator, first frame first. -/
structure Pmm.FreeList (pmm : Pmm) (frames : List ℕ) : Prop extends pmm.Threads frames where
  physical : ∀ frame ∈ frames, frame + pageSize ≤ 2 ^ 52

theorem Pmm.Threads.mapped {pmm : Pmm} {frames : List ℕ} (hfree : pmm.Threads frames)
    (frame : ℕ) (hframe : frame ∈ frames) : FrameMapped pmm.map.hhdmOffset frame :=
  ⟨hfree.inWindow frame hframe, hfree.positive frame hframe⟩

theorem Pmm.FreeList.frameOk {pmm : Pmm} {frames : List ℕ} (hfree : pmm.FreeList frames)
    (frame : ℕ) (hframe : frame ∈ frames) : FrameOk pmm.map.hhdmOffset frame :=
  ⟨hfree.mapped frame hframe, hfree.physical frame hframe⟩

/-- Distinct aligned frames do not overlap. -/
theorem FrameInWindow.disjoint {offset left right : ℕ} (hleft : FrameInWindow offset left)
    (hright : FrameInWindow offset right) (hne : left ≠ right) :
    left + pageSize ≤ right ∨ right + pageSize ≤ left := by
  have haligned := hleft.aligned
  have haligned' := hright.aligned
  simp only [pageSize] at *
  omega

/-- The list only depends on the bytes of its frames. -/
theorem Chain.congr {map map' : DirectMap} {head : ℕ} {frames : List ℕ}
    (hchain : Chain map head frames)
    (hoffset : map'.hhdmOffset = map.hhdmOffset)
    (hagree : ∀ frame ∈ frames, ∀ target, frame ≤ target →
      target < frame + pageSize → map'.physical target = map.physical target) :
    Chain map' head frames := by
  induction frames generalizing head with
  | nil => exact hchain
  | cons frame rest ih =>
      obtain ⟨hhead, haddress, hrest⟩ := hchain
      have hframe := hagree frame (by simp)
      have hfirst : load64 map'.physical frame = load64 map.physical frame := by
        apply load64_congr
        intro target hlower hupper
        exact hframe target hlower (by simp only [pageSize]; omega)
      have hsecond : load64 map'.physical (frame + 8) =
          load64 map.physical (frame + 8) := by
        apply load64_congr
        intro target hlower hupper
        exact hframe target (by omega) (by simp only [pageSize]; omega)
      refine ⟨by rw [hoffset, hhead], by rw [hfirst, haddress], ?_⟩
      rw [hsecond]
      apply ih hrest
      intro other hother
      exact hagree other (by simp [hother])

theorem pmmAlloc_nil {pmm : Pmm} (hfree : pmm.Threads []) :
    pmmAlloc pmm = some (pmm, 0) := by
  have hhead : pmm.freeListHead = 0 := hfree.chain
  rw [pmmAlloc, if_pos hhead]

/-- Taking the first frame off the list returns it zeroed. -/
theorem Pmm.Threads.alloc {pmm : Pmm} {frame : ℕ} {rest : List ℕ}
    (hfree : pmm.Threads (frame :: rest)) :
    ∃ after : Pmm, pmmAlloc pmm = some (after, frame) ∧
      after.Threads rest ∧ after.map.hhdmOffset = pmm.map.hhdmOffset ∧
        after.map.physical = fill pmm.map.physical frame pageSize 0 := by
  obtain ⟨⟨⟨hhead, haddress, hrest⟩, hnodup, hframes⟩, hpositives⟩ := hfree
  have hframe := hframes frame (by simp)
  have hmapped := hframe.mapped
  have hpositive := hpositives frame (by simp)
  have hread : pmm.map.read64 (pmm.freeListHead + 8) =
      some (load64 pmm.map.physical (frame + 8)) := by
    rw [hhead, show frame + pmm.map.hhdmOffset + 8 =
      (frame + 8) + pmm.map.hhdmOffset by omega, DirectMap.read64_window]
  have hself : pmm.map.read64 pmm.freeListHead = some frame := by
    rw [hhead, DirectMap.read64_window, haddress]
  have hwrap : wrap64 (frame + pmm.map.hhdmOffset) =
      frame + pmm.map.hhdmOffset := by
    apply wrap64_of_lt
    simp only [pageSize] at hmapped
    omega
  have hne : pmm.freeListHead ≠ 0 := by omega
  refine ⟨{ map := { pmm.map with
      physical := fill pmm.map.physical frame pageSize 0 }
            freeListHead := load64 pmm.map.physical (frame + 8) },
    ?_, ⟨⟨?_, hnodup.of_cons, ?_⟩, ?_⟩, rfl, rfl⟩
  · rw [pmmAlloc, if_neg hne]
    simp only [hread, hself, Option.bind_eq_bind, Option.bind_some, hwrap,
      DirectMap.memset_window]
    rfl
  · apply hrest.congr
    · rfl
    · intro other hother target hlower hupper
      have hother' := hframes other (by simp [hother])
      have hdistinct : other ≠ frame := fun heq =>
        (List.nodup_cons.mp hnodup).1 (heq ▸ hother)
      have hdisjoint := hother'.disjoint hframe hdistinct
      apply fill_of_not_mem
      omega
  · intro other hother
    exact hframes other (by simp [hother])
  · intro other hother
    exact hpositives other (by simp [hother])

theorem pmmAlloc_cons {pmm : Pmm} {frame : ℕ} {rest : List ℕ}
    (hfree : pmm.FreeList (frame :: rest)) :
    ∃ after : Pmm, pmmAlloc pmm = some (after, frame) ∧
      after.FreeList rest ∧ after.map.hhdmOffset = pmm.map.hhdmOffset ∧
        after.map.physical = fill pmm.map.physical frame pageSize 0 := by
  obtain ⟨after, halloc, hrest, hoffset, hphysical⟩ := hfree.toThreads.alloc
  refine ⟨after, halloc, ⟨hrest, fun other hother => ?_⟩, hoffset, hphysical⟩
  exact hfree.physical other (by simp [hother])

/-- Writing to bytes outside the free frames keeps the list. -/
theorem Pmm.Threads.write {pmm : Pmm} {frames : List ℕ} {physical : Memory}
    (hfree : pmm.Threads frames)
    (hagree : ∀ frame ∈ frames, ∀ target, frame ≤ target →
      target < frame + pageSize → physical target = pmm.map.physical target) :
    ({ pmm with map := { pmm.map with physical := physical } } : Pmm).Threads
      frames where
  chain := hfree.chain.congr rfl hagree
  nodup := hfree.nodup
  inWindow := hfree.inWindow
  positive := hfree.positive

theorem Pmm.FreeList.write {pmm : Pmm} {frames : List ℕ} {physical : Memory}
    (hfree : pmm.FreeList frames)
    (hagree : ∀ frame ∈ frames, ∀ target, frame ≤ target →
      target < frame + pageSize → physical target = pmm.map.physical target) :
    ({ pmm with map := { pmm.map with physical := physical } } : Pmm).FreeList
      frames :=
  ⟨hfree.toThreads.write hagree, hfree.physical⟩

theorem Pmm.Lists.head_lt {pmm : Pmm} {frames : List ℕ}
    (hfree : pmm.Lists frames) : pmm.freeListHead < 2 ^ 64 := by
  cases frames with
  | nil =>
      have hhead : pmm.freeListHead = 0 := hfree.chain
      omega
  | cons frame rest =>
      have hhead := hfree.chain.1
      have hmapped := (hfree.inWindow frame (by simp)).mapped
      simp only [pageSize] at hmapped
      omega

/-- The allocator with one more page in front of its list. -/
def pushedPage (pmm : Pmm) (addr : ℕ) : Pmm where
  map := { pmm.map with
    physical := store64 (store64 pmm.map.physical addr addr) (addr + 8) pmm.freeListHead }
  freeListHead := addr + pmm.map.hhdmOffset

theorem pushPage_eq {pmm : Pmm} {addr : ℕ} (haddr : addr + pmm.map.hhdmOffset < 2 ^ 64) :
    pushPage pmm addr = some (pushedPage pmm addr) := by
  have hlink : addr + pmm.map.hhdmOffset + 8 = (addr + 8) + pmm.map.hhdmOffset := by
    omega
  simp only [pushPage, wrap64_of_lt haddr, DirectMap.write64_window, hlink,
    Option.bind_eq_bind, Option.bind_some]
  rfl

/-- Pushing a frame that is not on the list yet. -/
theorem Pmm.Lists.push {pmm : Pmm} {frames : List ℕ} {addr : ℕ}
    (hfree : pmm.Lists frames) (hframe : FrameInWindow pmm.map.hhdmOffset addr)
    (haddr : addr ∉ frames) : (pushedPage pmm addr).Lists (addr :: frames) := by
  have hmapped := hframe.mapped
  simp only [pageSize] at hmapped
  set first := store64 pmm.map.physical addr addr with hfirst
  set second := store64 first (addr + 8) pmm.freeListHead with hsecond
  have haddress : load64 second addr = addr := by
    rw [hsecond, load64_store64_of_disjoint (by omega), hfirst,
      load64_store64_same (by omega)]
  have hnext : load64 second (addr + 8) = pmm.freeListHead := by
    rw [hsecond, load64_store64_same hfree.head_lt]
  refine ⟨⟨rfl, haddress, ?_⟩, List.nodup_cons.mpr ⟨haddr, hfree.nodup⟩, ?_⟩
  · change Chain _ (load64 second (addr + 8)) frames
    rw [hnext]
    apply hfree.chain.congr
    · rfl
    · intro frame hmem target hlower hupper
      have hdisjoint := (hfree.inWindow frame hmem).disjoint hframe
        (ne_of_mem_of_not_mem hmem haddr)
      simp only [pageSize] at hdisjoint hupper
      change second target = pmm.map.physical target
      rw [hsecond, store64_of_not_mem (by omega), hfirst,
        store64_of_not_mem (by omega)]
  · intro frame hmem
    rcases List.mem_cons.mp hmem with rfl | hmem
    · exact hframe
    · exact hfree.inWindow frame hmem

/-! ## Initialisation -/

/-- `count` consecutive pages. -/
def pagesFrom : ℕ → ℕ → List ℕ
  | _, 0 => []
  | addr, count + 1 => addr :: pagesFrom (addr + pageSize) count

/-- The whole pages of a region. -/
def PhysMemoryRegion.frames (entry : PhysMemoryRegion) : List ℕ :=
  pagesFrom entry.base (entry.length / pageSize)

/-- The pages of the usable regions among `entries`, in address order within
each region. -/
def usableFrames (entries : List PhysMemoryRegion) : List ℕ :=
  (entries.filter fun entry => entry.type = .usable).flatMap PhysMemoryRegion.frames

theorem mem_pagesFrom {addr count frame : ℕ} :
    frame ∈ pagesFrom addr count ↔
      ∃ index < count, frame = addr + index * pageSize := by
  induction count generalizing addr with
  | zero => simp [pagesFrom]
  | succ count ih =>
      rw [pagesFrom, List.mem_cons, ih]
      constructor
      · rintro (rfl | ⟨index, hindex, rfl⟩)
        · exact ⟨0, by omega, by omega⟩
        · exact ⟨index + 1, by omega, by simp only [pageSize]; omega⟩
      · rintro ⟨index, hindex, rfl⟩
        cases index with
        | zero => exact Or.inl (by omega)
        | succ index =>
            exact Or.inr ⟨index, by omega, by simp only [pageSize]; omega⟩

theorem length_pagesFrom (addr count : ℕ) : (pagesFrom addr count).length = count := by
  induction count generalizing addr with
  | zero => rfl
  | succ count ih => rw [pagesFrom, List.length_cons, ih]

theorem nodup_pagesFrom (addr count : ℕ) : (pagesFrom addr count).Nodup := by
  induction count generalizing addr with
  | zero => exact List.nodup_nil
  | succ count ih =>
      rw [pagesFrom, List.nodup_cons]
      constructor
      · rw [mem_pagesFrom]
        rintro ⟨index, -, heq⟩
        simp only [pageSize] at heq
        omega
      · exact ih (addr + pageSize)

/-- Usable memory in whole pages, which do not overlap and whose images in the window do
not wrap around. -/
structure PagedMap (offset : ℕ) (memoryMap : PhysMemoryMap) : Prop where
  aligned : ∀ entry ∈ memoryMap.entries, entry.type = .usable →
    entry.base % pageSize = 0 ∧ entry.length % pageSize = 0
  mapped : ∀ entry ∈ memoryMap.entries, entry.type = .usable →
    entry.base + entry.length + offset ≤ 2 ^ 64
  disjoint : (memoryMap.entries.filter fun entry => entry.type = .usable).Pairwise
    fun left right => left.base + left.length ≤ right.base ∨
      right.base + right.length ≤ left.base

/-- The addresses do not wrap around either. -/
structure WholePages (offset : ℕ) (memoryMap : PhysMemoryMap) : Prop
    extends PagedMap offset memoryMap where
  bounded : ∀ entry ∈ memoryMap.entries, entry.type = .usable →
    entry.base + entry.length < 2 ^ 64

/-- What `pmm_init` itself needs of the usable memory: page 0 is not part of it. -/
structure UsableMap (offset : ℕ) (memoryMap : PhysMemoryMap) : Prop
    extends WholePages offset memoryMap where
  positive : ∀ entry ∈ memoryMap.entries, entry.type = .usable → 0 < entry.base

/-- What the boot loader promises about the memory it calls usable. -/
structure BootMap (offset : ℕ) (memoryMap : PhysMemoryMap) : Prop
    extends PagedMap offset memoryMap where
  higherHalf : 2 ^ 63 ≤ offset
  positive : ∀ entry ∈ memoryMap.entries, entry.type = .usable → 0 < entry.base
  physical : ∀ entry ∈ memoryMap.entries, entry.type = .usable →
    entry.base + entry.length ≤ 2 ^ 52

theorem BootMap.usableMap {offset : ℕ} {memoryMap : PhysMemoryMap}
    (hboot : BootMap offset memoryMap) : UsableMap offset memoryMap where
  toPagedMap := hboot.toPagedMap
  bounded := by
    intro entry hentry husable
    have hmapped := hboot.mapped entry hentry husable
    have hhigher := hboot.higherHalf
    omega
  positive := hboot.positive

theorem pmmInitRegion_spec {offset addr count stop fuel : ℕ} {pmm : Pmm}
    {frames : List ℕ} (hfree : pmm.Lists frames)
    (hoffset : pmm.map.hhdmOffset = offset)
    (hfuel : count ≤ fuel) (hstop : stop = addr + count * pageSize)
    (hbound : stop < 2 ^ 64)
    (hpages : ∀ frame ∈ pagesFrom addr count, FrameInWindow offset frame)
    (hfresh : ∀ frame ∈ pagesFrom addr count, frame ∉ frames) :
    ∃ after : Pmm, pmmInitRegion stop fuel addr pmm = some after ∧
      after.Lists ((pagesFrom addr count).reverse ++ frames) ∧
        after.map.hhdmOffset = offset := by
  induction count generalizing addr fuel pmm frames with
  | zero =>
      have hdone : ¬ addr < stop := by omega
      refine ⟨pmm, ?_, by simpa [pagesFrom] using hfree, hoffset⟩
      cases fuel <;> simp [pmmInitRegion, hdone]
  | succ count ih =>
      obtain ⟨fuel, rfl⟩ := Nat.exists_eq_succ_of_ne_zero (by omega : fuel ≠ 0)
      have hmore : addr < stop := by simp only [pageSize] at hstop; omega
      have hself : addr ∈ pagesFrom addr (count + 1) := by simp [pagesFrom]
      have hframe : FrameInWindow pmm.map.hhdmOffset addr := hoffset ▸ hpages addr hself
      have hpush : pushPage pmm addr = some (pushedPage pmm addr) := by
        have hmapped := hframe.mapped
        exact pushPage_eq (by simp only [pageSize] at hmapped; omega)
      have hwrap : wrap64 (addr + pageSize) = addr + pageSize :=
        wrap64_of_lt (by simp only [pageSize] at hstop ⊢; omega)
      have hnodup := nodup_pagesFrom addr (count + 1)
      rw [pagesFrom, List.nodup_cons] at hnodup
      have hstop' : stop = (addr + pageSize) + count * pageSize := by
        simp only [pageSize] at hstop ⊢
        omega
      have hpages' : ∀ frame ∈ pagesFrom (addr + pageSize) count,
          FrameInWindow offset frame := by
        intro frame hframe
        exact hpages frame (by simp [pagesFrom, hframe])
      have hfresh' : ∀ frame ∈ pagesFrom (addr + pageSize) count,
          frame ∉ addr :: frames := by
        intro frame hframe hmem
        rcases List.mem_cons.mp hmem with rfl | hmem
        · exact hnodup.1 hframe
        · exact hfresh frame (by simp [pagesFrom, hframe]) hmem
      obtain ⟨after, hloop, hafter, hafterOffset⟩ :=
        ih (hfree.push hframe (hfresh addr hself)) hoffset (Nat.le_of_succ_le_succ hfuel)
          hstop' hpages' hfresh'
      refine ⟨after, ?_, by simpa [pagesFrom] using hafter, hafterOffset⟩
      simp [pmmInitRegion, hmore, hpush, hwrap, hloop]

theorem mem_frames {entry : PhysMemoryRegion} {frame : ℕ}
    (haligned : entry.base % pageSize = 0 ∧ entry.length % pageSize = 0)
    (hframe : frame ∈ entry.frames) :
    frame % pageSize = 0 ∧ entry.base ≤ frame ∧
      frame + pageSize ≤ entry.base + entry.length := by
  obtain ⟨index, hindex, rfl⟩ := mem_pagesFrom.mp hframe
  simp only [pageSize] at haligned hindex ⊢
  omega

theorem WholePages.inWindow {offset : ℕ} {memoryMap : PhysMemoryMap}
    (hmap : WholePages offset memoryMap) {entry : PhysMemoryRegion}
    (hentry : entry ∈ memoryMap.entries) (husable : entry.type = .usable)
    {frame : ℕ} (hframe : frame ∈ entry.frames) : FrameInWindow offset frame := by
  have hmem := mem_frames (hmap.aligned entry hentry husable) hframe
  have hmapped := hmap.mapped entry hentry husable
  exact ⟨hmem.1, by omega⟩

/-- Disjoint usable regions have disjoint frames. -/
theorem WholePages.nodup_usableFrames {offset : ℕ} {memoryMap : PhysMemoryMap}
    (hmap : WholePages offset memoryMap) : (usableFrames memoryMap.entries).Nodup := by
  rw [usableFrames, List.nodup_flatMap]
  constructor
  · intro entry _
    exact nodup_pagesFrom _ _
  · apply hmap.disjoint.imp_of_mem
    intro left right hleft hright hdisjoint
    simp only [List.mem_filter, decide_eq_true_eq] at hleft hright
    intro frame hframeLeft hframeRight
    have hmemLeft := mem_frames (hmap.aligned left hleft.1 hleft.2) hframeLeft
    have hmemRight := mem_frames (hmap.aligned right hright.1 hright.2) hframeRight
    simp only [pageSize] at hmemLeft hmemRight
    omega

/-- One entry of the map puts exactly its frames on the list. -/
theorem pmmInitEntry_spec {offset : ℕ} {memoryMap : PhysMemoryMap}
    (hmap : WholePages offset memoryMap) {entry : PhysMemoryRegion}
    (hentry : entry ∈ memoryMap.entries) {pmm : Pmm} {frames : List ℕ}
    (hfree : pmm.Lists frames) (hoffset : pmm.map.hhdmOffset = offset)
    (hfresh : ∀ frame ∈ usableFrames [entry], frame ∉ frames) :
    ∃ after : Pmm, pmmInitEntry pmm entry = some after ∧
      after.Lists ((usableFrames [entry]).reverse ++ frames) ∧
        after.map.hhdmOffset = offset := by
  by_cases husable : entry.type = .usable
  · have hframes : usableFrames [entry] = entry.frames := by
      simp [usableFrames, husable]
    rw [hframes] at hfresh ⊢
    have haligned := hmap.aligned entry hentry husable
    have hmapped := hmap.mapped entry hentry husable
    have hbounded := hmap.bounded entry hentry husable
    have hlength : entry.length / pageSize * pageSize = entry.length :=
      Nat.div_mul_cancel (Nat.dvd_of_mod_eq_zero haligned.2)
    have hwrap : wrap64 (entry.base + entry.length) = entry.base + entry.length :=
      wrap64_of_lt (by omega)
    have hcount : entry.length / pageSize ≤ pageCount := by
      simp only [pageSize, pageCount]
      omega
    obtain ⟨after, hloop, hafter⟩ := pmmInitRegion_spec hfree hoffset hcount
      (show wrap64 (entry.base + entry.length) = _ by rw [hwrap, hlength])
      (by rw [hwrap]; omega)
      (fun frame hframe => hmap.inWindow hentry husable hframe) hfresh
    refine ⟨after, ?_, hafter⟩
    simp [pmmInitEntry, husable, hloop]
  · have hframes : usableFrames [entry] = [] := by
      simp [usableFrames, husable]
    refine ⟨pmm, by simp [pmmInitEntry, husable], ?_, hoffset⟩
    simpa [hframes] using hfree

theorem usableFrames_cons (entry : PhysMemoryRegion)
    (entries : List PhysMemoryRegion) :
    usableFrames (entry :: entries) =
      usableFrames [entry] ++ usableFrames entries := by
  by_cases husable : entry.type = .usable <;> simp [usableFrames, husable]

private theorem pmmInit_loop {offset : ℕ} {memoryMap : PhysMemoryMap}
    (hmap : WholePages offset memoryMap) (entries : List PhysMemoryRegion)
    (hentries : ∀ entry ∈ entries, entry ∈ memoryMap.entries) {pmm : Pmm}
    {frames : List ℕ} (hfree : pmm.Lists frames)
    (hoffset : pmm.map.hhdmOffset = offset)
    (hnodup : (usableFrames entries).Nodup)
    (hfresh : ∀ frame ∈ usableFrames entries, frame ∉ frames) :
    ∃ after : Pmm, entries.foldlM pmmInitEntry pmm = some after ∧
      after.Lists ((usableFrames entries).reverse ++ frames) ∧
        after.map.hhdmOffset = offset := by
  induction entries generalizing pmm frames with
  | nil => exact ⟨pmm, rfl, hfree, hoffset⟩
  | cons entry entries ih =>
      rw [usableFrames_cons] at hnodup hfresh ⊢
      obtain ⟨-, hnodupRest, hdisjoint⟩ := List.nodup_append'.mp hnodup
      obtain ⟨next, hentry, hnext, hnextOffset⟩ := pmmInitEntry_spec hmap
        (hentries entry (by simp)) hfree hoffset
        (fun frame hframe => hfresh frame (by simp [hframe]))
      have hfreshRest : ∀ frame ∈ usableFrames entries,
          frame ∉ (usableFrames [entry]).reverse ++ frames := by
        intro frame hframe hmem
        rcases List.mem_append.mp hmem with hmem | hmem
        · exact hdisjoint (List.mem_reverse.mp hmem) hframe
        · exact hfresh frame (by simp [hframe]) hmem
      obtain ⟨after, hloop, hafter⟩ := ih
        (fun other hother => hentries other (by simp [hother]))
        hnext hnextOffset hnodupRest hfreshRest
      refine ⟨after, ?_, by simpa using hafter⟩
      simpa [hentry] using hloop

/-- `pmm_init` returns with the frames of every usable entry but the first on
the free list, the last frame first. -/
theorem WholePages.pmmInit_spec (physical : Memory) {offset : ℕ} {memoryMap : PhysMemoryMap}
    (hmap : WholePages offset memoryMap) :
    ∃ pmm : Pmm, pmmInit physical offset memoryMap = some pmm ∧
      pmm.Lists (usableFrames (memoryMap.entries.drop 1)).reverse ∧
        pmm.map.hhdmOffset = offset := by
  have hstart : ({ map := { physical := physical, hhdmOffset := offset }
                   freeListHead := 0 } : Pmm).Lists [] :=
    ⟨rfl, List.nodup_nil, by simp⟩
  have hnodup : (usableFrames (memoryMap.entries.drop 1)).Nodup := by
    have hall := hmap.nodup_usableFrames
    cases hentries : memoryMap.entries with
    | nil => simp [usableFrames]
    | cons entry entries =>
        rw [hentries, usableFrames_cons] at hall
        exact (List.nodup_append'.mp hall).2.1
  have hloop := pmmInit_loop hmap (memoryMap.entries.drop 1)
    (fun entry hentry => List.mem_of_mem_drop hentry) hstart rfl hnodup (by simp)
  simpa [pmmInit] using hloop

/-- A frame of the list comes from a usable entry. -/
theorem mem_usableFrames {entries : List PhysMemoryRegion} {frame : ℕ} :
    frame ∈ usableFrames entries ↔
      ∃ entry ∈ entries, entry.type = .usable ∧ frame ∈ entry.frames := by
  simp [usableFrames, and_assoc]

theorem UsableMap.pmmInit_spec (physical : Memory) {offset : ℕ} {memoryMap : PhysMemoryMap}
    (hmap : UsableMap offset memoryMap) :
    ∃ pmm : Pmm, pmmInit physical offset memoryMap = some pmm ∧
      pmm.Threads (usableFrames (memoryMap.entries.drop 1)).reverse ∧
        pmm.map.hhdmOffset = offset := by
  obtain ⟨pmm, hinit, hlists, hoffset⟩ := hmap.toWholePages.pmmInit_spec physical
  refine ⟨pmm, hinit, ⟨hlists, fun frame hframe => ?_⟩, hoffset⟩
  obtain ⟨entry, hentry, husable, hmem⟩ :=
    mem_usableFrames.mp (List.mem_reverse.mp hframe)
  have hmember := List.mem_of_mem_drop hentry
  have hpositive := hmap.positive entry hmember husable
  have hinside := mem_frames (hmap.aligned entry hmember husable) hmem
  omega

theorem pmmInit_spec (physical : Memory) {offset : ℕ} {memoryMap : PhysMemoryMap}
    (hboot : BootMap offset memoryMap) :
    ∃ pmm : Pmm, pmmInit physical offset memoryMap = some pmm ∧
      pmm.FreeList (usableFrames (memoryMap.entries.drop 1)).reverse ∧
        pmm.map.hhdmOffset = offset := by
  obtain ⟨pmm, hinit, hfree, hoffset⟩ := hboot.usableMap.pmmInit_spec physical
  refine ⟨pmm, hinit, ⟨hfree, fun frame hframe => ?_⟩, hoffset⟩
  obtain ⟨entry, hentry, husable, hmem⟩ :=
    mem_usableFrames.mp (List.mem_reverse.mp hframe)
  have hmember := List.mem_of_mem_drop hentry
  have hinside := mem_frames (hboot.aligned entry hmember husable) hmem
  exact hinside.2.2.trans (hboot.physical entry hmember husable)

end Flurry.PhysicalMemory
