import Flurry.Memory.PrivateFrames

/-!
# Memory as the processor sees it

A load or a store goes through the translation cache or the tables, and reaches
physical memory in which the tables, the free frames and everybody else's data are as
well.  A set of pages behaves like plain memory if each of them has a frame of its own
that is neither free nor a table: whatever else goes on, a byte of these pages changes
only when it is stored to.

`pmm.c` and `paging.c` reach the free list and the tables through the window, that is
through the active tables too, while `DirectMap` takes the window for granted.  That is
right as long as the pages of the kernel itself, its image and the window, stay as
`vmm_init` has mapped them.  So no call may change one of them, and that they are still
as they were is part of the invariant.
-/

namespace Flurry.Paging

open ByteMemory PhysicalMemory BitField

/-! ## Accesses -/

/-- The translation the processor uses, a cached one if there is one. -/
def translate (vmm : Vmm) (virt : ℕ) : Option Translation :=
  (vmm.tlb (pageOf virt)).or (walk vmm.pmm.map.physical vmm.cr3 virt)

def loadByte (vmm : Vmm) (virt : ℕ) : Option Byte := do
  let translation ← translate vmm virt
  some (vmm.pmm.map.physical (translation.frame + virt % pageSize))

/-- A byte of physical memory is replaced. -/
def pokeByte (vmm : Vmm) (address : ℕ) (byte : Byte) : Vmm :=
  { vmm with pmm := { vmm.pmm with map := { vmm.pmm.map with
      physical := Function.update vmm.pmm.map.physical address byte } } }

/-- A page that is not writable is a fault, `none`. -/
def storeByte (vmm : Vmm) (virt : ℕ) (byte : Byte) : Option Vmm := do
  let translation ← translate vmm virt
  if translation.writable then
    some (pokeByte vmm (translation.frame + virt % pageSize) byte)
  else none

/-- The processor finds behind a pointer into the window the address that `DirectMap` takes
for granted, and may write there. -/
def Vmm.ShowsAt (vmm : Vmm) (virt : ℕ) : Prop :=
  ∃ translation, translate vmm virt = some translation ∧ translation.writable = true ∧
    vmm.pmm.map.translate virt = some (translation.frame + virt % pageSize)

/-- A word of `width` bytes, each of which is translated. -/
def loadWord (vmm : Vmm) : ℕ → ℕ → Option ℕ
  | 0, _ => some 0
  | width + 1, virt => do
      let byte ← loadByte vmm virt
      let rest ← loadWord vmm width (virt + 1)
      some (byte.val + 256 * rest)

def storeWord : ℕ → ℕ → ℕ → Vmm → Option Vmm
  | 0, _, _, vmm => some vmm
  | width + 1, virt, value, vmm => do
      let vmm ← storeByte vmm virt (lowByte value)
      storeWord width (virt + 1) (value / 256) vmm

/-- The cache may drop a translation at any time. -/
def evictTlb (vmm : Vmm) (virt : ℕ) : Vmm :=
  { vmm with tlb := Function.update vmm.tlb (pageOf virt) none }

/-! ## What can happen to memory -/

/-- The page tables, and the frames that `pmm_alloc` has handed out for other purposes. -/
structure MemoryState where
  paging : PagingState
  lent : List ℕ

/-- The root and the address whose leaf entry a call changes. -/
def PagingCall.target (state : PagingState) : PagingCall → Option (ℕ × ℕ)
  | alloc => none
  | newPml4 _ => none
  | map pml4 virt _ _ => some (pml4, virt)
  | unmap pml4 virt => some (pml4, virt)
  | kmap virt _ _ => some (state.vmm.kernelPml4, virt)
  | kunmap virt => some (state.vmm.kernelPml4, virt)

inductive MemoryEvent where
  | fill (virt : ℕ)
  | evict (virt : ℕ)
  | call (fills : CallFills) (paging : PagingCall)
  | alloc
  | store (width virt value : ℕ)
  | poke (address : ℕ) (byte : Byte)

namespace MemoryEvent

def run (state : MemoryState) : MemoryEvent → Option MemoryState
  | fill virt => some { state with
      paging := { state.paging with vmm := fillTlb state.paging.vmm virt } }
  | evict virt => some { state with
      paging := { state.paging with vmm := evictTlb state.paging.vmm virt } }
  | call fills paging => do
      return { state with paging := ← paging.runFilled fills state.paging }
  | alloc => do
      let (pmm, frame) ← pmmAlloc state.paging.vmm.pmm
      return { paging := { state.paging with vmm := { state.paging.vmm with pmm := pmm } }
               lent := frame :: state.lent }
  | store width virt value => do
      return { state with
        paging := { state.paging with vmm := ← storeWord width virt value state.paging.vmm } }
  | poke address byte => some { state with
      paging := { state.paging with vmm := pokeByte state.paging.vmm address byte } }

/-- Stores go to the pages of the region.  The calls of `vmm.c` leave their entries and
those of the kernel's own pages alone, and what else is stored to physical memory goes to
memory that the allocator never managed or to frames it has handed out. -/
def Allowed (managed : List ℕ) (root : ℕ) (region kernel : Set ℕ) (state : MemoryState) :
    MemoryEvent → Prop
  | fill _ => True
  | evict _ => True
  | call _ paging => paging.Served state.paging ∧
      ∀ pml4 virt, paging.target state.paging = some (pml4, virt) → pml4 = root →
        Canonical virt ∧ virt / pageSize ∉ region ∧ virt / pageSize ∉ kernel
  | alloc => Allocates state.paging.vmm.pmm
  | store width virt _ =>
      ∀ target, virt ≤ target → target < virt + width → target / pageSize ∈ region
  | poke address _ =>
      address / pageSize * pageSize ∉ managed ∨ address / pageSize * pageSize ∈ state.lent

/-- Plain memory, which only stores change. -/
def apply (contents : Memory) : MemoryEvent → Memory
  | store width virt value => ByteMemory.store contents width virt value
  | _ => contents

end MemoryEvent

def runMemoryEvents : MemoryState → List MemoryEvent → Option MemoryState
  | state, [] => some state
  | state, event :: events => do
      let next ← event.run state
      runMemoryEvents next events

def MemoryEventsAllowed (managed : List ℕ) (root : ℕ) (region kernel : Set ℕ) :
    MemoryState → List MemoryEvent → Prop
  | _, [] => True
  | state, event :: events =>
      event.Allowed managed root region kernel state ∧ ∀ next, event.run state = some next →
        MemoryEventsAllowed managed root region kernel next events

/-! ## The invariant -/

/-- The kernel's own part of the address space: where the window starts, the pages that
stay as they are, and what they are translated to. -/
structure KernelView where
  hhdmOffset : ℕ
  pages : Set ℕ
  translation : ℕ → Option Translation

/-- The pages of the region are mapped to frames of their own, in which their bytes
are. -/
structure MemoryState.Backed (state : MemoryState) (managed : List ℕ) (root : ℕ)
    (region : Set ℕ) (kernel : KernelView) (frameOf : ℕ → ℕ) (contents : Memory)
    (free : List ℕ) (tree : TableTree) : Prop where
  holds : state.paging.vmm.Holds state.paging.roots free tree
  active : state.paging.vmm.cr3 = root
  rooted : root ∈ state.paging.roots
  agrees : state.paging.vmm.AgreesOn Set.univ
  freeManaged : free ⊆ managed
  tablesManaged : ∀ {root path table}, tree.table root path = some table → table ∈ managed
  lent : ∀ frame ∈ state.lent, Private free tree frame
  canonical : ∀ virt, virt / pageSize ∈ region → Canonical virt
  mapped : ∀ virt, virt / pageSize ∈ region → ∃ translation,
    leafTranslation (tree.leaf root (leafPath virt)) = some translation ∧
      translation.frame = frameOf (virt / pageSize) ∧ translation.writable = true
  own : ∀ page ∈ region, Private free tree (frameOf page)
  managed : ∀ page ∈ region, frameOf page ∈ managed
  notLent : ∀ page ∈ region, frameOf page ∉ state.lent
  injective : Set.InjOn frameOf region
  bytes : ∀ virt, virt / pageSize ∈ region →
    state.paging.vmm.pmm.map.physical (frameOf (virt / pageSize) + virt % pageSize) =
      contents virt
  offset : state.paging.vmm.pmm.map.hhdmOffset = kernel.hhdmOffset
  kernelCanonical : ∀ virt, virt / pageSize ∈ kernel.pages → Canonical virt
  kernelMapped : ∀ virt, virt / pageSize ∈ kernel.pages →
    leafTranslation (tree.leaf root (leafPath virt)) = kernel.translation virt

theorem Vmm.Holds.pokeByte {vmm : Vmm} {roots free : List ℕ} {tree : TableTree}
    {address : ℕ} (byte : Byte) (hholds : vmm.Holds roots free tree)
    (hprivate : Private free tree (address / pageSize * pageSize)) :
    (Paging.pokeByte vmm address byte).Holds roots free tree := by
  have hbyte : ∀ frame, frame % pageSize = 0 → frame ≠ address / pageSize * pageSize →
      ∀ target, frame ≤ target → target < frame + pageSize →
        Function.update vmm.pmm.map.physical address byte target =
          vmm.pmm.map.physical target := by
    intro frame haligned hne target hlower hupper
    apply Function.update_of_ne
    rintro rfl
    apply hne
    simp only [pageSize] at haligned hupper ⊢
    omega
  have hentry : ∀ {root path table}, tree.table root path = some table → ∀ index < 512,
      tableEntry (Function.update vmm.pmm.map.physical address byte) table index =
        tableEntry vmm.pmm.map.physical table index := by
    intro root path table htable index hindex
    apply load_congr
    intro target hlower hupper
    apply hbyte table (hholds.frameOk htable).aligned
    · rintro rfl
      exact hprivate.notTable root path htable
    · omega
    · simp only [pageSize]
      omega
  exact
    { freeList := hholds.freeList.write fun frame hframe => by
        apply hbyte frame (hholds.freeList.frameOk frame hframe).aligned
        rintro rfl
        exact hprivate.notFree hframe
      root := hholds.root
      rooted := hholds.rooted
      parent := hholds.parent
      unshared := hholds.unshared
      frameOk := hholds.frameOk
      allocated := hholds.allocated
      links := fun htable hlength index hindex =>
        (hentry htable index hindex).trans (hholds.links htable hlength index hindex)
      leaves := fun htable hlength index hindex =>
        (hentry htable index hindex).trans (hholds.leaves htable hlength index hindex)
      unmapped := hholds.unmapped }

namespace MemoryState.Backed

variable {state : MemoryState} {managed : List ℕ} {root : ℕ} {region : Set ℕ}
variable {kernel : KernelView} {frameOf : ℕ → ℕ} {contents : Memory} {free : List ℕ}
variable {tree : TableTree}

/-- The processor uses what the tables say, from the cache or not. -/
theorem translate_leaf
    (hbacked : state.Backed managed root region kernel frameOf contents free tree) (virt : ℕ) :
    translate state.paging.vmm virt = leafTranslation (tree.leaf root (leafPath virt)) := by
  have hwalk : walk state.paging.vmm.pmm.map.physical state.paging.vmm.cr3 virt =
      leafTranslation (tree.leaf root (leafPath virt)) := by
    rw [hbacked.active, hbacked.holds.walk_eq hbacked.rooted]
  cases hcached : state.paging.vmm.tlb (pageOf virt) with
  | none => rw [translate, hcached, hwalk, Option.none_or]
  | some cached =>
      have hsame := hbacked.agrees virt (Set.mem_univ _) cached hcached
      rw [translate, hcached, ← hwalk, hsame, Option.some_or]

theorem translate_eq
    (hbacked : state.Backed managed root region kernel frameOf contents free tree)
    {virt : ℕ} (hvirt : virt / pageSize ∈ region) :
    ∃ translation, translate state.paging.vmm virt = some translation ∧
      translation.frame = frameOf (virt / pageSize) ∧ translation.writable = true := by
  obtain ⟨translation, hleaf, hframe⟩ := hbacked.mapped virt hvirt
  exact ⟨translation, (hbacked.translate_leaf virt).trans hleaf, hframe⟩

/-- The kernel's own pages are found where they were. -/
theorem translate_kernel
    (hbacked : state.Backed managed root region kernel frameOf contents free tree)
    {virt : ℕ} (hvirt : virt / pageSize ∈ kernel.pages) :
    translate state.paging.vmm virt = kernel.translation virt :=
  (hbacked.translate_leaf virt).trans (hbacked.kernelMapped virt hvirt)

/-- Every byte of the region can be read. -/
theorem loadByte_eq
    (hbacked : state.Backed managed root region kernel frameOf contents free tree)
    {virt : ℕ} (hvirt : virt / pageSize ∈ region) :
    loadByte state.paging.vmm virt = some (contents virt) := by
  obtain ⟨translation, htranslate, hframe, -⟩ := hbacked.translate_eq hvirt
  rw [loadByte, htranslate, ← hbacked.bytes virt hvirt, ← hframe]
  rfl

/-- A change of the cache alone. -/
theorem of_tlb {tlb : ℕ → Option Translation}
    (hbacked : state.Backed managed root region kernel frameOf contents free tree)
    (hagrees : ({ state.paging.vmm with tlb := tlb } : Vmm).AgreesOn Set.univ) :
    ({ state with paging := { state.paging with
        vmm := { state.paging.vmm with tlb := tlb } } } : MemoryState).Backed managed root
      region kernel frameOf contents free tree :=
  { hbacked with holds := hbacked.holds.of_pmm_eq rfl, agrees := hagrees }

/-- Tables may be added and entries of other pages change. -/
theorem advance {state' : MemoryState} {free' : List ℕ} {tree' : TableTree}
    (hbacked : state.Backed managed root region kernel frameOf contents free tree)
    (hadvances : Advances state.paging.vmm.pmm free tree state'.paging.vmm.pmm free' tree')
    (hholds : state'.paging.vmm.Holds state'.paging.roots free' tree')
    (hleaf : ∀ virt, virt / pageSize ∈ region ∨ virt / pageSize ∈ kernel.pages →
      tree'.leaf root (leafPath virt) = tree.leaf root (leafPath virt))
    (hcr3 : state'.paging.vmm.cr3 = state.paging.vmm.cr3)
    (hroots : state.paging.roots ⊆ state'.paging.roots)
    (hagrees : state'.paging.vmm.AgreesOn Set.univ) (hlent : state'.lent = state.lent) :
    state'.Backed managed root region kernel frameOf contents free' tree' where
  holds := hholds
  active := hcr3.trans hbacked.active
  rooted := hroots hbacked.rooted
  agrees := hagrees
  freeManaged := fun _ hmem => hbacked.freeManaged (hadvances.subset hmem)
  tablesManaged := fun htable => (hadvances.tables htable).elim hbacked.tablesManaged
    fun hmem => hbacked.freeManaged hmem
  lent := by
    rw [hlent]
    exact fun frame hframe => (hbacked.lent frame hframe).of_advances hadvances
  canonical := hbacked.canonical
  mapped := fun virt hvirt => by
    rw [hleaf virt (Or.inl hvirt)]
    exact hbacked.mapped virt hvirt
  own := fun page hpage => (hbacked.own page hpage).of_advances hadvances
  managed := hbacked.managed
  notLent := by
    rw [hlent]
    exact hbacked.notLent
  injective := hbacked.injective
  bytes := fun virt hvirt => by
    rw [← hbacked.bytes virt hvirt]
    exact hadvances.bytes (hbacked.own _ hvirt) _ (Nat.le_add_right _ _)
      (Nat.add_lt_add_left (Nat.mod_lt virt (by decide)) _)
  offset := hadvances.offset.trans hbacked.offset
  kernelCanonical := hbacked.kernelCanonical
  kernelMapped := fun virt hvirt => by
    rw [hleaf virt (Or.inr hvirt)]
    exact hbacked.kernelMapped virt hvirt

/-- A byte of a private page is replaced. -/
theorem poke {address : ℕ} {byte : Byte} {contents' : Memory}
    (hbacked : state.Backed managed root region kernel frameOf contents free tree)
    (hprivate : Private free tree (address / pageSize * pageSize))
    (hbytes : ∀ virt, virt / pageSize ∈ region →
      Function.update state.paging.vmm.pmm.map.physical address byte
        (frameOf (virt / pageSize) + virt % pageSize) = contents' virt) :
    ({ state with paging := { state.paging with
        vmm := pokeByte state.paging.vmm address byte } } : MemoryState).Backed managed root
      region kernel frameOf contents' free tree :=
  have hholds := hbacked.holds.pokeByte byte hprivate
  { hbacked with
    holds := hholds
    agrees := hbacked.agrees.of_leaf_eq hbacked.holds hholds rfl (List.Subset.refl _)
      (hbacked.active ▸ hbacked.rooted) rfl rfl
    bytes := hbytes }

/-- The address of a byte of the region tells its page and its place in it. -/
theorem address_inj
    (hbacked : state.Backed managed root region kernel frameOf contents free tree)
    {virt virt' : ℕ} (hvirt : virt / pageSize ∈ region) (hvirt' : virt' / pageSize ∈ region)
    (hsame : frameOf (virt / pageSize) + virt % pageSize =
      frameOf (virt' / pageSize) + virt' % pageSize) : virt = virt' := by
  have haligned := (hbacked.own _ hvirt).aligned
  have haligned' := (hbacked.own _ hvirt').aligned
  have hframe : frameOf (virt / pageSize) = frameOf (virt' / pageSize) := by
    simp only [pageSize] at haligned haligned' hsame ⊢
    omega
  have hpage := hbacked.injective hvirt hvirt' hframe
  simp only [pageSize] at hpage hframe hsame ⊢
  omega

/-- The page of a byte of the region is its frame. -/
theorem page_address
    (hbacked : state.Backed managed root region kernel frameOf contents free tree)
    {virt : ℕ} (hvirt : virt / pageSize ∈ region) :
    (frameOf (virt / pageSize) + virt % pageSize) / pageSize * pageSize =
      frameOf (virt / pageSize) := by
  have haligned := (hbacked.own _ hvirt).aligned
  simp only [pageSize] at haligned ⊢
  omega

theorem storeByte {virt : ℕ} (byte : Byte)
    (hbacked : state.Backed managed root region kernel frameOf contents free tree)
    (hvirt : virt / pageSize ∈ region) :
    ∃ after, Paging.storeByte state.paging.vmm virt byte = some after ∧
      ({ state with paging := { state.paging with vmm := after } } : MemoryState).Backed
        managed root region kernel frameOf (Function.update contents virt byte) free tree := by
  obtain ⟨translation, htranslate, hframe, hwritable⟩ := hbacked.translate_eq hvirt
  have hrun : Paging.storeByte state.paging.vmm virt byte = some (pokeByte state.paging.vmm
      (frameOf (virt / pageSize) + virt % pageSize) byte) := by
    simp [Paging.storeByte, htranslate, hframe, hwritable]
  refine ⟨_, hrun, hbacked.poke ?_ ?_⟩
  · rw [hbacked.page_address hvirt]
    exact hbacked.own _ hvirt
  · intro virt' hvirt'
    by_cases hsame : virt' = virt
    · rw [hsame, Function.update_self, Function.update_self]
    · rw [Function.update_of_ne hsame, Function.update_of_ne, hbacked.bytes virt' hvirt']
      exact fun haddress => hsame (hbacked.address_inj hvirt' hvirt haddress)

/-- The bytes of a word one after the other, also across the end of a page. -/
theorem storeWord {width virt value : ℕ}
    (hbacked : state.Backed managed root region kernel frameOf contents free tree)
    (hvirt : ∀ target, virt ≤ target → target < virt + width → target / pageSize ∈ region) :
    ∃ after, Paging.storeWord width virt value state.paging.vmm = some after ∧
      ({ state with paging := { state.paging with vmm := after } } : MemoryState).Backed
        managed root region kernel frameOf (ByteMemory.store contents width virt value) free
          tree := by
  induction width generalizing state contents virt value with
  | zero =>
      rw [store_zero]
      exact ⟨state.paging.vmm, rfl, hbacked⟩
  | succ width ih =>
      obtain ⟨middle, hfirst, hmiddle⟩ :=
        hbacked.storeByte (lowByte value) (hvirt virt le_rfl (by omega))
      obtain ⟨after, hrest, hafter⟩ := @ih _ _ (virt + 1) (value / 256) hmiddle
        fun target hlower hupper => hvirt target (by omega) (by omega)
      rw [store_succ]
      exact ⟨after, by simp [Paging.storeWord, hfirst, hrest], hafter⟩

theorem loadWord_eq {width virt : ℕ}
    (hbacked : state.Backed managed root region kernel frameOf contents free tree)
    (hvirt : ∀ target, virt ≤ target → target < virt + width → target / pageSize ∈ region) :
    loadWord state.paging.vmm width virt = some (load contents width virt) := by
  induction width generalizing virt with
  | zero => rfl
  | succ width ih =>
      have hrest := @ih (virt + 1) fun target hlower hupper =>
        hvirt target (by omega) (by omega)
      simp [loadWord, load, hbacked.loadByte_eq (hvirt virt le_rfl (by omega)), hrest]

/-- Memory outside of the region: never managed, or handed out. -/
theorem pokeOutside {address : ℕ} (byte : Byte)
    (hbacked : state.Backed managed root region kernel frameOf contents free tree)
    (houtside : address / pageSize * pageSize ∉ managed ∨
      address / pageSize * pageSize ∈ state.lent) :
    ({ state with paging := { state.paging with
        vmm := pokeByte state.paging.vmm address byte } } : MemoryState).Backed managed root
      region kernel frameOf contents free tree := by
  apply hbacked.poke
  · rcases houtside with hunmanaged | hlent
    · exact ⟨Nat.mul_mod_left _ _, fun hmem => hunmanaged (hbacked.freeManaged hmem),
        fun root path htable => hunmanaged (hbacked.tablesManaged htable)⟩
    · exact hbacked.lent _ hlent
  · intro virt hvirt
    rw [Function.update_of_ne, hbacked.bytes virt hvirt]
    rintro rfl
    rw [hbacked.page_address hvirt] at houtside
    exact houtside.elim (fun hunmanaged => hunmanaged (hbacked.managed _ hvirt))
      (hbacked.notLent _ hvirt)

/-- A frame is taken off the free list. -/
theorem takeFrame {frame : ℕ} {rest : List ℕ}
    (hbacked : state.Backed managed root region kernel frameOf contents (frame :: rest) tree) :
    ∃ pmm, pmmAlloc state.paging.vmm.pmm = some (pmm, frame) ∧
      ({ state with paging := { state.paging with
          vmm := { state.paging.vmm with pmm := pmm } } } : MemoryState).Backed managed root
        region kernel frameOf contents rest tree ∧
      ∀ kernelPml4, ({ state with paging :=
          { vmm := { state.paging.vmm with pmm := pmm, kernelPml4 := kernelPml4 }
            roots := frame :: state.paging.roots } } : MemoryState).Backed managed root region
        kernel frameOf contents rest (tree.extend frame [] frame) := by
  obtain ⟨pmm, hrun, hholds, hrootHolds⟩ := hbacked.holds.takeFrame
  obtain ⟨pmm', hrun', -, hwindow, hphysical⟩ := pmmAlloc_cons hbacked.holds.freeList
  obtain rfl : pmm' = pmm := congrArg Prod.fst (Option.some.inj (hrun'.symm.trans hrun))
  have hadvances := hbacked.holds.advances_alloc hwindow hphysical
  have hactive := hbacked.active ▸ hbacked.rooted
  refine ⟨pmm', hrun, hbacked.advance hadvances hholds (fun _ _ => rfl) rfl
    (List.Subset.refl _) ?_ rfl, fun kernelPml4 => hbacked.advance
      (Vmm.Holds.advances_extend frame [] hadvances) (hrootHolds.of_pmm_eq rfl)
      (fun _ _ => rfl) rfl (List.subset_cons_self frame _) ?_ rfl⟩
  · exact hbacked.agrees.of_leaf_eq hbacked.holds hholds rfl (List.Subset.refl _) hactive rfl
      rfl
  · exact hbacked.agrees.of_leaf_eq hbacked.holds (hrootHolds.of_pmm_eq rfl) rfl
      (List.subset_cons_self frame _) hactive rfl rfl

/-- A frame is handed out. -/
theorem alloc
    (hbacked : state.Backed managed root region kernel frameOf contents free tree)
    (halloc : Allocates state.paging.vmm.pmm) :
    ∃ next free', MemoryEvent.alloc.run state = some next ∧
      next.Backed managed root region kernel frameOf contents free' tree := by
  obtain ⟨frame, rest, rfl⟩ :=
    List.exists_cons_of_ne_nil ((allocates_iff hbacked.holds.freeList).mp halloc)
  obtain ⟨pmm, hrun, hnext, -⟩ := hbacked.takeFrame
  refine ⟨{ paging := { state.paging with vmm := { state.paging.vmm with pmm := pmm } }
            lent := frame :: state.lent }, rest, by simp only [MemoryEvent.run, hrun]; rfl,
    { hnext with lent := ?_, notLent := ?_ }⟩
  · intro other hother
    rcases List.mem_cons.mp hother with rfl | hother
    · exact hbacked.holds.private_alloc
    · exact hnext.lent other hother
  · intro page hpage hmem
    rcases List.mem_cons.mp hmem with rfl | hmem
    · exact (hbacked.own page hpage).notFree List.mem_cons_self
    · exact hbacked.notLent page hpage hmem

/-- A page joins the region with a frame that no other page of it has. -/
theorem insertPage {page frame : ℕ}
    (hbacked : state.Backed managed root region kernel frameOf contents free tree)
    (hnew : page ∉ region) (hcanonical : ∀ virt, virt / pageSize = page → Canonical virt)
    (hmapped : ∀ virt, virt / pageSize = page → ∃ translation,
      leafTranslation (tree.leaf root (leafPath virt)) = some translation ∧
        translation.frame = frame ∧ translation.writable = true)
    (hprivate : Private free tree frame) (hmanaged : frame ∈ managed)
    (hlent : frame ∉ state.lent) (hunused : ∀ other ∈ region, frameOf other ≠ frame)
    (hbytes : ∀ virt, virt / pageSize = page →
      state.paging.vmm.pmm.map.physical (frame + virt % pageSize) = contents virt) :
    state.Backed managed root (insert page region) kernel (Function.update frameOf page frame)
      contents free tree := by
  have hself : Function.update frameOf page frame page = frame := Function.update_self _ _ _
  have hkept : ∀ other ∈ region, Function.update frameOf page frame other = frameOf other :=
    fun other hother => Function.update_of_ne (ne_of_mem_of_not_mem hother hnew) _ _
  exact
    { hbacked with
      canonical := by
        rintro virt (hpage | hpage)
        · exact hcanonical virt hpage
        · exact hbacked.canonical virt hpage
      mapped := by
        rintro virt (hpage | hpage)
        · rw [hpage, hself]
          exact hmapped virt hpage
        · rw [hkept _ hpage]
          exact hbacked.mapped virt hpage
      own := by
        rintro other (rfl | hother)
        · rwa [hself]
        · rw [hkept other hother]
          exact hbacked.own other hother
      managed := by
        rintro other (rfl | hother)
        · rwa [hself]
        · rw [hkept other hother]
          exact hbacked.managed other hother
      notLent := by
        rintro other (rfl | hother)
        · rwa [hself]
        · rw [hkept other hother]
          exact hbacked.notLent other hother
      injective := by
        rintro left (rfl | hleft) right (rfl | hright) hsame
        · rfl
        · rw [hself, hkept right hright] at hsame
          exact absurd hsame.symm (hunused right hright)
        · rw [hself, hkept left hleft] at hsame
          exact absurd hsame (hunused left hleft)
        · rw [hkept left hleft, hkept right hright] at hsame
          exact hbacked.injective hleft hright hsame
      bytes := by
        rintro virt (hpage | hpage)
        · rw [hpage, hself]
          exact hbytes virt hpage
        · rw [hkept _ hpage]
          exact hbacked.bytes virt hpage }

/-- An entry of another page, or under another root, is not one of those that matter. -/
theorem leaf_of_setLeaf {tree' : TableTree} {pml4 virt value : ℕ}
    (hbacked : state.Backed managed root region kernel frameOf contents free tree)
    (hleaf : tree'.leaf = (tree.setLeaf pml4 (leafPath virt) value).leaf)
    (hother : pml4 = root → Canonical virt ∧ virt / pageSize ∉ region ∧
      virt / pageSize ∉ kernel.pages) {virt' : ℕ}
    (hvirt' : virt' / pageSize ∈ region ∨ virt' / pageSize ∈ kernel.pages) :
    tree'.leaf root (leafPath virt') = tree.leaf root (leafPath virt') := by
  have hcanonical' : Canonical virt' :=
    hvirt'.elim (hbacked.canonical virt') (hbacked.kernelCanonical virt')
  rw [hleaf, setLeaf_leaf_of_ne]
  rintro ⟨rfl, hpath⟩
  obtain ⟨hcanonical, hregion, hkernel⟩ := hother rfl
  rw [leafPath_eq_iff hcanonical' hcanonical] at hpath
  rw [hpath] at hvirt'
  exact hvirt'.elim hregion hkernel

/-- A leaf entry of another page, or under another root, is changed. -/
theorem writeLeafFilled {pml4 virt value : ℕ} (fills : CallFills)
    (hbacked : state.Backed managed root region kernel frameOf contents free tree)
    (hroot : pml4 ∈ state.paging.roots) (halloc : PathAllocates state.paging.vmm pml4 virt)
    (hvalue : value < 2 ^ 64)
    (hother : pml4 = root → Canonical virt ∧ virt / pageSize ∉ region ∧
      virt / pageSize ∉ kernel.pages) :
    ∃ after free' tree',
      Paging.writeLeafFilled fills state.paging.vmm pml4 virt value = some after ∧
        ({ state with paging := { state.paging with vmm := after } } : MemoryState).Backed
          managed root region kernel frameOf contents free' tree' := by
  obtain ⟨pmm, tlb, tree', hrun, hholds, hleaf, hadvances, -, hagrees⟩ :=
    hbacked.holds.writeLeafFilled_advances fills hroot
      ((hbacked.holds.pathAllocates_iff hroot).mp halloc) hvalue
  exact ⟨_, _, tree', hrun, hbacked.advance hadvances hholds
    (fun _ hvirt' => hbacked.leaf_of_setLeaf hleaf hother hvirt') rfl (List.Subset.refl _)
    (hagrees (hbacked.active ▸ hbacked.rooted) hbacked.agrees) rfl⟩

theorem call {paging : PagingCall} (fills : CallFills)
    (hbacked : state.Backed managed root region kernel frameOf contents free tree)
    (hserved : paging.Served state.paging)
    (hother : ∀ pml4 virt, paging.target state.paging = some (pml4, virt) → pml4 = root →
      Canonical virt ∧ virt / pageSize ∉ region ∧ virt / pageSize ∉ kernel.pages) :
    ∃ next free' tree', (MemoryEvent.call fills paging).run state = some next ∧
      next.Backed managed root region kernel frameOf contents free' tree' := by
  cases paging with
  | alloc =>
      obtain ⟨frame, rest, rfl⟩ :=
        List.exists_cons_of_ne_nil ((allocates_iff hbacked.holds.freeList).mp hserved)
      obtain ⟨pmm, hrun, hnext, -⟩ := hbacked.takeFrame
      refine ⟨_, rest, tree, ?_, hnext⟩
      simp only [MemoryEvent.run, PagingCall.runFilled, PagingCall.run, hrun]
      rfl
  | newPml4 kernel =>
      obtain ⟨frame, rest, rfl⟩ :=
        List.exists_cons_of_ne_nil ((allocates_iff hbacked.holds.freeList).mp hserved)
      obtain ⟨pmm, hrun, -, hnext⟩ := hbacked.takeFrame
      refine ⟨_, rest, _, ?_, hnext (if kernel then frame else state.paging.vmm.kernelPml4)⟩
      simp only [MemoryEvent.run, PagingCall.runFilled, PagingCall.run, hrun]
      rfl
  | map pml4 virt phys flags =>
      obtain ⟨after, free', tree', hrun, hnext⟩ := hbacked.writeLeafFilled fills hserved.1
        hserved.2.1 (mapEntry_lt_word flags hserved.2.2) (hother pml4 virt rfl)
      exact ⟨_, free', tree', by simp [MemoryEvent.run, PagingCall.runFilled, hrun], hnext⟩
  | unmap pml4 virt =>
      obtain ⟨after, free', tree', hrun, hnext⟩ := hbacked.writeLeafFilled fills hserved.1
        hserved.2 (Nat.two_pow_pos 64) (hother pml4 virt rfl)
      exact ⟨_, free', tree', by simp [MemoryEvent.run, PagingCall.runFilled, hrun], hnext⟩
  | kmap virt phys flags =>
      obtain ⟨after, free', tree', hrun, hnext⟩ := hbacked.writeLeafFilled fills hserved.1
        hserved.2.1 (mapEntry_lt_word flags hserved.2.2) (hother _ virt rfl)
      exact ⟨_, free', tree', by simp [MemoryEvent.run, PagingCall.runFilled, hrun], hnext⟩
  | kunmap virt =>
      obtain ⟨after, free', tree', hrun, hnext⟩ := hbacked.writeLeafFilled fills hserved.1
        hserved.2 (Nat.two_pow_pos 64) (hother _ virt rfl)
      exact ⟨_, free', tree', by simp [MemoryEvent.run, PagingCall.runFilled, hrun], hnext⟩

theorem step {event : MemoryEvent}
    (hbacked : state.Backed managed root region kernel frameOf contents free tree)
    (hallowed : event.Allowed managed root region kernel.pages state) :
    ∃ next free' tree', event.run state = some next ∧
      next.Backed managed root region kernel frameOf (event.apply contents) free' tree' := by
  cases event with
  | fill virt =>
      have hfilled := fillTlbs_eq state.paging.vmm [virt]
      change fillTlb state.paging.vmm virt =
        { state.paging.vmm with tlb := (fillTlb state.paging.vmm virt).tlb } at hfilled
      have hagrees := hbacked.agrees.fillTlb virt
      rw [hfilled] at hagrees
      refine ⟨_, free, tree, rfl, ?_⟩
      rw [hfilled]
      exact hbacked.of_tlb hagrees
  | evict virt =>
      refine ⟨_, free, tree, rfl, hbacked.of_tlb ?_⟩
      exact Vmm.AgreesOn.invlpg fun virt' _ => hbacked.agrees virt' (Set.mem_univ _)
  | call fills paging => exact hbacked.call fills hallowed.1 hallowed.2
  | alloc =>
      obtain ⟨next, free', hrun, hnext⟩ := hbacked.alloc hallowed
      exact ⟨next, free', tree, hrun, hnext⟩
  | store width virt value =>
      obtain ⟨after, hrun, hnext⟩ := hbacked.storeWord hallowed
      exact ⟨_, free, tree, by simp [MemoryEvent.run, hrun], hnext⟩
  | poke address byte => exact ⟨_, free, tree, rfl, hbacked.pokeOutside byte hallowed⟩

theorem run {events : List MemoryEvent}
    (hbacked : state.Backed managed root region kernel frameOf contents free tree)
    (hallowed : MemoryEventsAllowed managed root region kernel.pages state events) :
    ∃ after free' tree', runMemoryEvents state events = some after ∧
      after.Backed managed root region kernel frameOf
        (events.foldl MemoryEvent.apply contents) free' tree' := by
  induction events generalizing state contents free tree with
  | nil => exact ⟨state, free, tree, rfl, hbacked⟩
  | cons event events ih =>
      obtain ⟨next, free₁, tree₁, hrun, hnext⟩ := hbacked.step hallowed.1
      obtain ⟨after, free', tree', hafter, hfinal⟩ := ih hnext (hallowed.2 next hrun)
      exact ⟨after, free', tree', by simp [runMemoryEvents, hrun, hafter], hfinal⟩

end MemoryState.Backed

end Flurry.Paging
