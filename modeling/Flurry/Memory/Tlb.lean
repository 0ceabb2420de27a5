import Flurry.Memory.PageMap

/-!
# The translation cache

The processor may look up any address at any time, also while a call is walking
down the tables, and keep what it finds.  An entry of the cache is sound while the
tables under the active root say the same: allocating tables does not change what
they say, storing a leaf entry changes it for one page, and that page is flushed if
the tables are the active ones.
-/

namespace Flurry.Paging

open ByteMemory PhysicalMemory BitField

/-! ## Filling the cache -/

/-- The processor translates an address and keeps the result. -/
def fillTlb (vmm : Vmm) (virt : ℕ) : Vmm :=
  match walk vmm.pmm.map.physical vmm.cr3 virt with
  | some translation =>
      { vmm with tlb := Function.update vmm.tlb (pageOf virt) (some translation) }
  | none => vmm

def fillTlbs (vmm : Vmm) (virts : List ℕ) : Vmm := virts.foldl fillTlb vmm

/-- The addresses translated while `get_next_pml` runs: after `pmm_alloc` returned and
after the entry was stored. -/
structure LevelFills where
  allocated : List ℕ
  stored : List ℕ

/-- The addresses translated while a leaf entry is changed: on each of the three levels
and between the store of the leaf entry and the flush. -/
structure CallFills where
  pml4 : LevelFills
  pml3 : LevelFills
  pml2 : LevelFills
  stored : List ℕ

def getNextPmlFilled (fills : LevelFills) (vmm : Vmm) (pml pmlIndex : ℕ) :
    Option (Vmm × ℕ) := do
  let entry := entryPointer vmm pml pmlIndex
  let value ← vmm.pmm.map.read64 entry
  if isEntryPresent value then
    return (fillTlbs vmm fills.stored, value &&& physAddrMask)
  else
    let (pmm, frame) ← pmmAlloc vmm.pmm
    let vmm := fillTlbs { vmm with pmm := pmm } fills.allocated
    let value := frame ||| vmFlagPresent ||| vmFlagWrite ||| vmFlagUser
    let map ← vmm.pmm.map.write64 entry value
    return (fillTlbs { vmm with pmm := { vmm.pmm with map := map } } fills.stored,
      value &&& physAddrMask)

def writeLeafFilled (fills : CallFills) (vmm : Vmm) (pml4 virt value : ℕ) :
    Option Vmm := do
  let (vmm, pml3) ← getNextPmlFilled fills.pml4 vmm pml4 (pml4Index virt)
  let (vmm, pml2) ← getNextPmlFilled fills.pml3 vmm pml3 (pml3Index virt)
  let (vmm, pml1) ← getNextPmlFilled fills.pml2 vmm pml2 (pml2Index virt)
  let map ← vmm.pmm.map.write64 (entryPointer vmm pml1 (pml1Index virt)) value
  let vmm := fillTlbs { vmm with pmm := { vmm.pmm with map := map } } fills.stored
  return invlpgIfNeeded vmm pml4 virt

/-- Filling the cache changes nothing else. -/
theorem fillTlbs_eq (vmm : Vmm) (virts : List ℕ) :
    fillTlbs vmm virts = { vmm with tlb := (fillTlbs vmm virts).tlb } := by
  induction virts generalizing vmm with
  | nil => rfl
  | cons virt virts ih =>
      have hfirst : fillTlb vmm virt = { vmm with tlb := (fillTlb vmm virt).tlb } := by
        unfold fillTlb
        split <;> rfl
      calc fillTlbs vmm (virt :: virts)
          = { fillTlb vmm virt with tlb := (fillTlbs (fillTlb vmm virt) virts).tlb } :=
            ih (fillTlb vmm virt)
        _ = { vmm with tlb := (fillTlbs vmm (virt :: virts)).tlb } := by
            rw [hfirst]
            exact congrArg (fun first => { vmm with tlb := (fillTlbs first virts).tlb })
              hfirst.symm

/-- Without lookups in between, the call is the one of `paging.c`. -/
theorem writeLeafFilled_nil (vmm : Vmm) (pml4 virt value : ℕ) :
    writeLeafFilled ⟨⟨[], []⟩, ⟨[], []⟩, ⟨[], []⟩, []⟩ vmm pml4 virt value =
      writeLeaf vmm pml4 virt value := by
  have hlevel : getNextPmlFilled ⟨[], []⟩ = getNextPml := rfl
  simp only [writeLeafFilled, writeLeaf, getPml1Entry, hlevel, Option.bind_eq_bind,
    Option.bind_assoc, Option.pure_def, Option.bind_some]
  rfl

/-! ## Pages -/

/-- A walk reads the page of an address only. -/
theorem walk_congr {virt virt' : ℕ} (hpage : pageOf virt = pageOf virt')
    (physical : Memory) (root : ℕ) :
    walk physical root virt = walk physical root virt' := by
  have hpath := leafPath_eq_iff_pageOf.mpr hpage
  simp only [leafPath, List.cons.injEq, and_true] at hpath
  obtain ⟨h1, h2, h3, h4⟩ := hpath
  have hlarge : ∀ entry, largeFrame entry virt 30 = largeFrame entry virt' 30 ∧
      largeFrame entry virt 21 = largeFrame entry virt' 21 := by
    intro entry
    simp only [pageOf, largeFrame, pageSize] at hpage ⊢
    omega
  simp only [walk, h1, h2, h3, h4, hlarge]

/-! ## Agreement with the tables -/

/-- What is cached for the given pages is what the tables say. -/
def Vmm.AgreesOn (vmm : Vmm) (pages : Set ℕ) : Prop :=
  ∀ virt, pageOf virt ∈ pages → ∀ translation,
    vmm.tlb (pageOf virt) = some translation →
      walk vmm.pmm.map.physical vmm.cr3 virt = some translation

namespace Vmm.AgreesOn

variable {vmm vmm' : Vmm} {pages : Set ℕ}

theorem fillTlb (hagrees : vmm.AgreesOn pages) (virt : ℕ) :
    (Paging.fillTlb vmm virt).AgreesOn pages := by
  unfold Paging.fillTlb
  split
  · rename_i found hwalk
    intro virt' hpage translation hcached
    by_cases hsame : pageOf virt' = pageOf virt
    · have hfound : some found = some translation := by
        rw [← hcached, hsame]
        exact (Function.update_self (pageOf virt) (some found) vmm.tlb).symm
      rw [← hfound, ← hwalk]
      exact walk_congr hsame _ _
    · apply hagrees virt' hpage translation
      rw [← hcached]
      exact (Function.update_of_ne hsame _ _).symm
  · exact hagrees

theorem fillTlbs (hagrees : vmm.AgreesOn pages) (virts : List ℕ) :
    (Paging.fillTlbs vmm virts).AgreesOn pages := by
  induction virts generalizing vmm with
  | nil => exact hagrees
  | cons virt virts ih => exact ih (hagrees.fillTlb virt)

/-- The cache stays sound for the pages whose translation stays. -/
theorem of_walk_eq {pages' : Set ℕ} (hagrees : vmm.AgreesOn pages)
    (hpages : pages' ⊆ pages) (htlb : vmm'.tlb = vmm.tlb)
    (hwalk : ∀ virt, pageOf virt ∈ pages' → walk vmm'.pmm.map.physical vmm'.cr3 virt =
      walk vmm.pmm.map.physical vmm.cr3 virt) : vmm'.AgreesOn pages' := by
  intro virt hpage translation hcached
  rw [hwalk virt hpage]
  exact hagrees virt (hpages hpage) translation (htlb ▸ hcached)

/-- Tables with the same leaf entries say the same. -/
theorem of_leaf_eq {roots roots' free free' : List ℕ} {tree tree' : TableTree}
    (hagrees : vmm.AgreesOn pages) (hholds : vmm.Holds roots free tree)
    (hholds' : vmm'.Holds roots' free' tree') (hleaf : tree'.leaf = tree.leaf)
    (hroots : roots ⊆ roots') (hcr3 : vmm.cr3 ∈ roots) (hcr3' : vmm'.cr3 = vmm.cr3)
    (htlb : vmm'.tlb = vmm.tlb) : vmm'.AgreesOn pages := by
  apply hagrees.of_walk_eq subset_rfl htlb
  intro virt _
  rw [hcr3', hholds'.walk_eq (hroots hcr3), hholds.walk_eq hcr3, hleaf]

/-- Flushing the page that was excepted completes the agreement. -/
theorem invlpg {virt : ℕ} (hagrees : vmm.AgreesOn {page | page ≠ pageOf virt}) :
    (Paging.invlpg vmm virt).AgreesOn Set.univ := by
  intro virt' _ translation hcached
  by_cases hsame : pageOf virt' = pageOf virt
  · have hnone : (Paging.invlpg vmm virt).tlb (pageOf virt') = none := by
      rw [hsame]
      exact Function.update_self _ _ _
    rw [hnone] at hcached
    exact absurd hcached (by simp)
  · apply hagrees virt' hsame translation
    rw [← hcached]
    exact (Function.update_of_ne hsame _ _).symm

end Vmm.AgreesOn

/-! ## One call -/

/-- `get_next_pml` does not look at the cache. -/
theorem getNextPml_tlb {vmm : Vmm} {pmm : Pmm} {pml pmlIndex next : ℕ}
    (tlb : ℕ → Option Translation)
    (hrun : getNextPml vmm pml pmlIndex = some ({ vmm with pmm := pmm }, next)) :
    getNextPml { vmm with tlb := tlb } pml pmlIndex =
      some ({ vmm with pmm := pmm, tlb := tlb }, next) := by
  simp only [getNextPml, Option.bind_eq_bind, Option.bind_eq_some_iff] at hrun ⊢
  obtain ⟨value, hread, hrun⟩ := hrun
  refine ⟨value, hread, ?_⟩
  by_cases hpresent : isEntryPresent value = true
  · rw [if_pos hpresent] at hrun ⊢
    obtain ⟨hsame, hnext⟩ := Prod.mk.inj (Option.some.inj hrun)
    rw [← hnext, ← show vmm.pmm = pmm from congrArg Vmm.pmm hsame]
    rfl
  · rw [if_neg hpresent, Option.bind_eq_some_iff] at hrun ⊢
    obtain ⟨allocated, halloc, hrun⟩ := hrun
    refine ⟨allocated, halloc, ?_⟩
    obtain ⟨map, hwrite, hrun⟩ := Option.bind_eq_some_iff.mp hrun
    obtain ⟨hsame, hnext⟩ := Prod.mk.inj (Option.some.inj hrun)
    rw [← hnext, ← show { allocated.1 with map := map } = pmm from congrArg Vmm.pmm hsame]
    exact Option.bind_eq_some_iff.mpr ⟨map, hwrite, rfl⟩

/-- The call with lookups in between does what the call alone does, and fills the cache
from the tables before, during and after. -/
theorem getNextPmlFilled_cases {vmm after : Vmm} {pml pmlIndex next : ℕ}
    (fills : LevelFills) (hrun : getNextPml vmm pml pmlIndex = some (after, next)) :
    (after = vmm ∧ getNextPmlFilled fills vmm pml pmlIndex =
      some (fillTlbs vmm fills.stored, next)) ∨
    ∃ pmm frame, pmmAlloc vmm.pmm = some (pmm, frame) ∧
      after = { vmm with pmm := after.pmm } ∧
      getNextPmlFilled fills vmm pml pmlIndex =
        some (fillTlbs { after with
          tlb := (fillTlbs { vmm with pmm := pmm } fills.allocated).tlb } fills.stored,
          next) := by
  simp only [getNextPml, Option.bind_eq_bind, Option.bind_eq_some_iff] at hrun
  obtain ⟨value, hread, hrun⟩ := hrun
  by_cases hpresent : isEntryPresent value = true
  · rw [if_pos hpresent] at hrun
    obtain ⟨rfl, rfl⟩ := Prod.mk.inj (Option.some.inj hrun)
    refine Or.inl ⟨rfl, ?_⟩
    simp [getNextPmlFilled, hread, hpresent]
  · rw [if_neg hpresent, Option.bind_eq_some_iff] at hrun
    obtain ⟨⟨pmm, frame⟩, halloc, hrun⟩ := hrun
    obtain ⟨map, hwrite, hrun⟩ := Option.bind_eq_some_iff.mp hrun
    obtain ⟨rfl, rfl⟩ := Prod.mk.inj (Option.some.inj hrun)
    refine Or.inr ⟨pmm, frame, halloc, rfl, ?_⟩
    have hfilled := fillTlbs_eq { vmm with pmm := pmm } fills.allocated
    simp only [getNextPmlFilled, hread, hpresent, halloc, Option.bind_eq_bind,
      Option.bind_some]
    rw [hfilled]
    simp [hwrite]

namespace Vmm.Holds

variable {vmm : Vmm} {roots free : List ℕ} {tree : TableTree}
variable {root table index virt : ℕ} {path : List ℕ} {pages : Set ℕ}

/-- `pmm_alloc` leaves the tables alone, also when it fails. -/
theorem of_pmmAlloc {pmm : Pmm} {frame : ℕ} (hholds : vmm.Holds roots free tree)
    (halloc : pmmAlloc vmm.pmm = some (pmm, frame)) :
    ∃ free', ({ vmm with pmm := pmm } : Vmm).Holds roots free' tree := by
  cases free with
  | nil =>
      rw [pmmAlloc_nil hholds.freeList.toThreads] at halloc
      obtain ⟨rfl, -⟩ := Prod.mk.inj (Option.some.inj halloc)
      exact ⟨[], hholds⟩
  | cons first rest =>
      obtain ⟨after, hrun, hfree, hwindow, hphysical⟩ := pmmAlloc_cons hholds.freeList
      rw [hrun] at halloc
      obtain ⟨rfl, -⟩ := Prod.mk.inj (Option.some.inj halloc)
      exact ⟨rest, hholds.alloc hfree hwindow hphysical⟩

/-- One level down with lookups in between, which may already have filled the cache
before. -/
theorem getNextPmlFilled_spec (fills : LevelFills) (tlb : ℕ → Option Translation)
    (hholds : vmm.Holds roots free tree)
    (htable : tree.table root path = some table) (hlength : path.length < 3)
    (hindex : index < 512) (halloc : NextAllocates vmm table index) :
    ∃ pmm tlb' free' tree' next,
      getNextPml vmm table index = some ({ vmm with pmm := pmm }, next) ∧
      getNextPmlFilled fills { vmm with tlb := tlb } table index =
        some ({ vmm with pmm := pmm, tlb := tlb' }, next) ∧
      ({ vmm with pmm := pmm } : Vmm).Holds roots free' tree' ∧
      tree'.table root (index :: path) = some next ∧ tree'.leaf = tree.leaf ∧
      (vmm.cr3 ∈ roots → ({ vmm with tlb := tlb } : Vmm).AgreesOn Set.univ →
        ({ vmm with pmm := pmm, tlb := tlb' } : Vmm).AgreesOn Set.univ) := by
  obtain ⟨pmm, free', tree', next, hrun, hholds', hnext, hleaf⟩ :=
    hholds.getNextPml_spec htable hlength hindex halloc
  have hcached : ({ vmm with tlb := tlb } : Vmm).Holds roots free tree :=
    hholds.of_pmm_eq rfl
  rcases getNextPmlFilled_cases fills (getNextPml_tlb tlb hrun) with ⟨hsame, hfilled⟩ |
    ⟨middle, frame, hmiddle, -, hfilled⟩
  · rw [fillTlbs_eq] at hfilled
    have hpmm : pmm = vmm.pmm := congrArg Vmm.pmm hsame
    subst hpmm
    refine ⟨vmm.pmm, _, free', tree', next, hrun, hfilled, hholds', hnext, hleaf, ?_⟩
    intro hcr3 hagrees
    have hfills := hagrees.fillTlbs fills.stored
    rwa [fillTlbs_eq] at hfills
  · rw [fillTlbs_eq] at hfilled
    refine ⟨pmm, _, free', tree', next, hrun, hfilled, hholds', hnext, hleaf, ?_⟩
    intro hcr3 hagrees
    obtain ⟨freeMiddle, hholdsMiddle⟩ := hcached.of_pmmAlloc hmiddle
    have hallocated := hagrees.of_leaf_eq hcached hholdsMiddle rfl (List.Subset.refl roots)
      hcr3 rfl rfl
    have hfillsMiddle := hallocated.fillTlbs fills.allocated
    rw [fillTlbs_eq] at hfillsMiddle
    have hlinked : ({ vmm with pmm := pmm, tlb := (fillTlbs { vmm with pmm := middle, tlb := tlb }
        fills.allocated).tlb } : Vmm).AgreesOn Set.univ :=
      hfillsMiddle.of_leaf_eq (hholdsMiddle.of_pmm_eq rfl) (hholds'.of_pmm_eq rfl) hleaf
        (List.Subset.refl roots) hcr3 rfl rfl
    have hfills := hlinked.fillTlbs fills.stored
    rwa [fillTlbs_eq] at hfills

/-- Storing the leaf entry and flushing its page if the tables are active. -/
theorem agrees_of_setLeaf {written : Vmm} {value : ℕ} {free' : List ℕ} (virts : List ℕ)
    (hholds : vmm.Holds roots free tree)
    (hwritten : written.Holds roots free' (tree.setLeaf root (leafPath virt) value))
    (hcr3 : vmm.cr3 ∈ roots) (hcr3' : written.cr3 = vmm.cr3) (htlb : written.tlb = vmm.tlb)
    (hagrees : vmm.AgreesOn Set.univ) :
    (invlpgIfNeeded (fillTlbs written virts) root virt).AgreesOn Set.univ := by
  have hactive : (fillTlbs written virts).cr3 = vmm.cr3 := by
    rw [fillTlbs_eq]
    exact hcr3'
  have hkept : ∀ virt', ¬(vmm.cr3 = root ∧ pageOf virt' = pageOf virt) →
      walk written.pmm.map.physical written.cr3 virt' =
        walk vmm.pmm.map.physical vmm.cr3 virt' := by
    intro virt' hother
    rw [hcr3', hwritten.walk_eq hcr3, hholds.walk_eq hcr3, setLeaf_leaf_of_ne]
    rwa [leafPath_eq_iff_pageOf]
  unfold invlpgIfNeeded
  split
  · apply Vmm.AgreesOn.invlpg
    apply Vmm.AgreesOn.fillTlbs
    apply hagrees.of_walk_eq (Set.subset_univ _) htlb
    intro virt' hother
    exact hkept virt' fun hsame => hother hsame.2
  · rename_i hinactive
    apply Vmm.AgreesOn.fillTlbs
    apply hagrees.of_walk_eq (Set.subset_univ _) htlb
    intro virt' _
    exact hkept virt' fun hsame => hinactive (hsame.1.symm.trans hactive.symm)

/-- Changing a leaf entry with lookups in between keeps the tables and the cache in
agreement. -/
theorem writeLeafFilled_spec {value : ℕ} (fills : CallFills)
    (hholds : vmm.Holds roots free tree) (hroot : root ∈ roots)
    (halloc : PathAllocates vmm root virt) (hvalue : value < 2 ^ 64) :
    ∃ pmm tlb free' tree', writeLeafFilled fills vmm root virt value =
        some { vmm with pmm := pmm, tlb := tlb } ∧
      ({ vmm with pmm := pmm, tlb := tlb } : Vmm).Holds roots free' tree' ∧
      (vmm.cr3 ∈ roots → vmm.AgreesOn Set.univ →
        ({ vmm with pmm := pmm, tlb := tlb } : Vmm).AgreesOn Set.univ) := by
  obtain ⟨halloc4, halloc⟩ := halloc
  obtain ⟨pmm₃, tlb₃, free₃, tree₃, pml3, hrun4, hfilled4, hholds₃, htable₃, hleaf₃, hagrees₃⟩ :=
    hholds.getNextPmlFilled_spec fills.pml4 vmm.tlb (hholds.root root hroot) (by simp)
      (pml4Index_lt virt) halloc4
  obtain ⟨halloc3, halloc⟩ := halloc _ _ hrun4
  obtain ⟨pmm₂, tlb₂, free₂, tree₂, pml2, hrun3, hfilled3, hholds₂, htable₂, hleaf₂, hagrees₂⟩ :=
    hholds₃.getNextPmlFilled_spec fills.pml3 tlb₃ htable₃ (by simp) (pml3Index_lt virt)
      halloc3
  obtain ⟨pmm₁, tlb₁, free₁, tree₁, pml1, hrun2, hfilled2, hholds₁, htable₁, hleaf₁, hagrees₁⟩ :=
    hholds₂.getNextPmlFilled_spec fills.pml2 tlb₂ htable₂ (by simp) (pml2Index_lt virt)
      (halloc _ _ hrun3)
  have hcached : ({ vmm with pmm := pmm₁, tlb := tlb₁ } : Vmm).Holds roots free₁ tree₁ :=
    hholds₁.of_pmm_eq rfl
  have hwrite := DirectMap.write64_window pmm₁.map (pml1 + 8 * pml1Index virt) value
  have hset := hcached.setLeaf htable₁ (by simp) (pml1Index_lt virt) hvalue
  set written : Vmm := { vmm with
    pmm := { pmm₁ with map := { pmm₁.map with
      physical := store64 pmm₁.map.physical (pml1 + 8 * pml1Index virt) value } }
    tlb := tlb₁ } with hwritten
  have hfinal : invlpgIfNeeded (fillTlbs written fills.stored) root virt =
      { written with
        tlb := (invlpgIfNeeded (fillTlbs written fills.stored) root virt).tlb } := by
    rw [fillTlbs_eq]
    unfold invlpgIfNeeded
    split <;> rfl
  refine ⟨written.pmm, (invlpgIfNeeded (fillTlbs written fills.stored) root virt).tlb, free₁,
    _, ?_, hset.of_pmm_eq rfl, ?_⟩
  · have hpointer : entryPointer _ pml1 (pml1Index virt) = _ :=
      hcached.entryPointer_eq htable₁
    simp only [writeLeafFilled, hfilled4, hfilled3, hfilled2, Option.bind_eq_bind,
      Option.bind_some, hpointer, hwrite]
    exact congrArg some hfinal
  · intro hcr3 hagrees
    have hagrees₁ := hagrees₁ hcr3 (hagrees₂ hcr3 (hagrees₃ hcr3 hagrees))
    have hdone := hcached.agrees_of_setLeaf fills.stored hset hcr3 rfl rfl hagrees₁
    rwa [hfinal] at hdone

end Vmm.Holds

/-! ## Runs -/

/-- A call of `vmm.c` during which the processor translates addresses. -/
def PagingCall.runFilled (fills : CallFills) (state : PagingState) :
    PagingCall → Option PagingState
  | alloc => PagingCall.run state .alloc
  | newPml4 kernel => PagingCall.run state (.newPml4 kernel)
  | map pml4 virt phys flags => do
      return { state with
        vmm := ← writeLeafFilled fills state.vmm pml4 virt (mapEntry phys flags) }
  | unmap pml4 virt => do
      return { state with vmm := ← writeLeafFilled fills state.vmm pml4 virt 0 }
  | kmap virt phys flags => do
      return { state with
        vmm := ← writeLeafFilled fills state.vmm state.vmm.kernelPml4 virt
          (mapEntry phys flags) }
  | kunmap virt => do
      return { state with
        vmm := ← writeLeafFilled fills state.vmm state.vmm.kernelPml4 virt 0 }

theorem PagingCall.runFilled_nil (state : PagingState) (call : PagingCall) :
    call.runFilled ⟨⟨[], []⟩, ⟨[], []⟩, ⟨[], []⟩, []⟩ state = call.run state := by
  cases call <;> simp only [runFilled, writeLeafFilled_nil] <;> rfl

/-- Any 64-bit arguments, for tables from `pmm_alloc` while frames last. -/
def PagingCall.Served (state : PagingState) : PagingCall → Prop
  | alloc => Allocates state.vmm.pmm
  | newPml4 _ => Allocates state.vmm.pmm
  | map pml4 virt phys _ =>
      pml4 ∈ state.roots ∧ PathAllocates state.vmm pml4 virt ∧ phys < 2 ^ 64
  | unmap pml4 virt => pml4 ∈ state.roots ∧ PathAllocates state.vmm pml4 virt
  | kmap virt phys _ =>
      state.vmm.kernelPml4 ∈ state.roots ∧
        PathAllocates state.vmm state.vmm.kernelPml4 virt ∧ phys < 2 ^ 64
  | kunmap virt =>
      state.vmm.kernelPml4 ∈ state.roots ∧
        PathAllocates state.vmm state.vmm.kernelPml4 virt

/-- What can happen on one processor. -/
inductive TlbEvent where
  | fill (virt : ℕ)
  | loadPml4 (pml4 : ℕ)
  | call (fills : CallFills) (paging : PagingCall)

namespace TlbEvent

def run (state : PagingState) : TlbEvent → Option PagingState
  | fill virt => some { state with vmm := fillTlb state.vmm virt }
  | loadPml4 pml4 => some { state with vmm := vmmLoadPml4 state.vmm pml4 }
  | call fills paging => paging.runFilled fills state

def Allowed (state : PagingState) : TlbEvent → Prop
  | fill _ => True
  | loadPml4 pml4 => pml4 ∈ state.roots
  | call _ paging => paging.Served state

end TlbEvent

def runTlbEvents : PagingState → List TlbEvent → Option PagingState
  | state, [] => some state
  | state, event :: events => do
      let next ← event.run state
      runTlbEvents next events

def TlbEventsAllowed : PagingState → List TlbEvent → Prop
  | _, [] => True
  | state, event :: events =>
      event.Allowed state ∧
        ∀ next, event.run state = some next → TlbEventsAllowed next events

/-- There are tables under each root, and once a root was loaded the cache agrees with
the tables under it. -/
structure PagingState.Cached (state : PagingState) (loaded : Prop) : Prop where
  tables : ∃ free tree, state.vmm.Holds state.roots free tree
  active : loaded → state.vmm.cr3 ∈ state.roots
  agrees : loaded → state.vmm.AgreesOn Set.univ

namespace PagingState.Cached

variable {state : PagingState} {loaded : Prop}

theorem writeLeafFilled {root virt value : ℕ} (fills : CallFills)
    (hcached : state.Cached loaded) (hroot : root ∈ state.roots)
    (halloc : PathAllocates state.vmm root virt) (hvalue : value < 2 ^ 64) :
    ∃ after, Paging.writeLeafFilled fills state.vmm root virt value = some after ∧
      ({ state with vmm := after } : PagingState).Cached loaded := by
  obtain ⟨⟨free, tree, hholds⟩, hactive, hagrees⟩ := hcached
  obtain ⟨pmm, tlb, free', tree', hrun, hholds', hkept⟩ :=
    hholds.writeLeafFilled_spec fills hroot halloc hvalue
  exact ⟨_, hrun, ⟨free', tree', hholds'⟩, hactive, fun hloaded =>
    hkept (hactive hloaded) (hagrees hloaded)⟩

/-- A frame is taken, for another purpose or as a root. -/
theorem alloc (hcached : state.Cached loaded) (halloc : Allocates state.vmm.pmm) :
    ∃ pmm pml4, pmmAlloc state.vmm.pmm = some (pmm, pml4) ∧
      ({ state with vmm := { state.vmm with pmm := pmm } } : PagingState).Cached loaded ∧
      ∀ kernelPml4, ({ vmm := { state.vmm with pmm := pmm, kernelPml4 := kernelPml4 }
                       roots := pml4 :: state.roots } : PagingState).Cached loaded := by
  obtain ⟨⟨free, tree, hholds⟩, hactive, hagrees⟩ := hcached
  obtain ⟨frame, rest, rfl⟩ :=
    List.exists_cons_of_ne_nil ((allocates_iff hholds.freeList).mp halloc)
  obtain ⟨pmm, hrun, hholds', hroot⟩ := hholds.takeFrame
  refine ⟨pmm, frame, hrun, ⟨⟨rest, tree, hholds'⟩, hactive, ?_⟩, fun kernelPml4 =>
    ⟨⟨rest, _, hroot.of_pmm_eq rfl⟩, ?_, ?_⟩⟩
  · intro hloaded
    exact (hagrees hloaded).of_leaf_eq hholds hholds' rfl (List.Subset.refl _)
      (hactive hloaded) rfl rfl
  · exact fun hloaded => List.mem_cons_of_mem frame (hactive hloaded)
  · intro hloaded
    exact (hagrees hloaded).of_leaf_eq hholds (hroot.of_pmm_eq rfl) rfl
      (List.subset_cons_self frame _) (hactive hloaded) rfl rfl

theorem call {paging : PagingCall} (fills : CallFills) (hcached : state.Cached loaded)
    (hserved : paging.Served state) :
    ∃ next, paging.runFilled fills state = some next ∧ next.Cached loaded := by
  cases paging with
  | alloc =>
      obtain ⟨pmm, pml4, hrun, hnext, -⟩ := hcached.alloc hserved
      exact ⟨_, by simp [PagingCall.runFilled, PagingCall.run, hrun], hnext⟩
  | newPml4 kernel =>
      obtain ⟨pmm, pml4, hrun, -, hnext⟩ := hcached.alloc hserved
      refine ⟨_, ?_, hnext (if kernel then pml4 else state.vmm.kernelPml4)⟩
      simp [PagingCall.runFilled, PagingCall.run, hrun]
  | map pml4 virt phys flags =>
      obtain ⟨after, hrun, hnext⟩ := hcached.writeLeafFilled fills hserved.1 hserved.2.1
        (mapEntry_lt_word flags hserved.2.2)
      exact ⟨_, by simp [PagingCall.runFilled, hrun], hnext⟩
  | unmap pml4 virt =>
      obtain ⟨after, hrun, hnext⟩ :=
        hcached.writeLeafFilled fills hserved.1 hserved.2 (Nat.two_pow_pos 64)
      exact ⟨_, by simp [PagingCall.runFilled, hrun], hnext⟩
  | kmap virt phys flags =>
      obtain ⟨after, hrun, hnext⟩ := hcached.writeLeafFilled fills hserved.1 hserved.2.1
        (mapEntry_lt_word flags hserved.2.2)
      exact ⟨_, by simp [PagingCall.runFilled, hrun], hnext⟩
  | kunmap virt =>
      obtain ⟨after, hrun, hnext⟩ :=
        hcached.writeLeafFilled fills hserved.1 hserved.2 (Nat.two_pow_pos 64)
      exact ⟨_, by simp [PagingCall.runFilled, hrun], hnext⟩

/-- Loading a root empties the cache. -/
theorem load {pml4 : ℕ} (hcached : state.Cached loaded) (hroot : pml4 ∈ state.roots) :
    ({ state with vmm := vmmLoadPml4 state.vmm pml4 } : PagingState).Cached True := by
  obtain ⟨⟨free, tree, hholds⟩, -, -⟩ := hcached
  refine ⟨⟨free, tree, hholds.of_pmm_eq rfl⟩, fun _ => hroot, fun _ virt _ translation => ?_⟩
  intro hsome
  exact absurd hsome (by simp [vmmLoadPml4, pagingLoadPml4])

theorem fill (virt : ℕ) (hcached : state.Cached loaded) :
    ({ state with vmm := fillTlb state.vmm virt } : PagingState).Cached loaded := by
  obtain ⟨⟨free, tree, hholds⟩, hactive, hagrees⟩ := hcached
  have hsame : fillTlb state.vmm virt =
      { state.vmm with tlb := (fillTlb state.vmm virt).tlb } := fillTlbs_eq state.vmm [virt]
  refine ⟨⟨free, tree, hholds.of_pmm_eq (by rw [hsame])⟩, ?_, fun hloaded =>
    (hagrees hloaded).fillTlb virt⟩
  intro hloaded
  rw [hsame]
  exact hactive hloaded

theorem step {event : TlbEvent} (hcached : state.Cached loaded)
    (hallowed : event.Allowed state) :
    ∃ next, event.run state = some next ∧ next.Cached loaded := by
  cases event with
  | fill virt => exact ⟨_, rfl, hcached.fill virt⟩
  | loadPml4 pml4 =>
      have hloaded := hcached.load hallowed
      exact ⟨_, rfl, hloaded.tables, fun _ => hloaded.active trivial,
        fun _ => hloaded.agrees trivial⟩
  | call fills paging => exact hcached.call fills hallowed

theorem run {events : List TlbEvent} (hcached : state.Cached loaded)
    (hallowed : TlbEventsAllowed state events) :
    ∃ after, runTlbEvents state events = some after ∧ after.Cached loaded := by
  induction events generalizing state with
  | nil => exact ⟨state, rfl, hcached⟩
  | cons event events ih =>
      obtain ⟨next, hrun, hnext⟩ := hcached.step hallowed.1
      obtain ⟨after, hafter, hfinal⟩ := ih hnext (hallowed.2 next hrun)
      exact ⟨after, by simp [runTlbEvents, hrun, hafter], hfinal⟩

end PagingState.Cached

theorem runTlbEvents_append (state : PagingState) (before after : List TlbEvent) :
    runTlbEvents state (before ++ after) =
      (runTlbEvents state before).bind fun middle => runTlbEvents middle after := by
  induction before generalizing state with
  | nil => rfl
  | cons event before ih =>
      simp only [List.cons_append, runTlbEvents, Option.bind_eq_bind, Option.bind_assoc, ih]

theorem TlbEventsAllowed.append {state : PagingState} {before after : List TlbEvent}
    (hallowed : TlbEventsAllowed state (before ++ after)) :
    TlbEventsAllowed state before ∧ ∀ middle, runTlbEvents state before = some middle →
      TlbEventsAllowed middle after := by
  induction before generalizing state with
  | nil =>
      refine ⟨trivial, fun middle hrun => ?_⟩
      rwa [← Option.some.inj hrun]
  | cons event before ih =>
      refine ⟨⟨hallowed.1, fun next hrun => (ih (hallowed.2 next hrun)).1⟩, ?_⟩
      intro middle hrun
      obtain ⟨next, hnext, hrest⟩ := Option.bind_eq_some_iff.mp hrun
      exact (ih (hallowed.2 next hnext)).2 middle hrest

/-- Nothing is cached for tables that are not there. -/
theorem cached_pmmInit {pmm : Pmm} {free : List ℕ} (kernelPml4 cr3 : ℕ)
    (tlb : ℕ → Option Translation) (hfree : pmm.FreeList free) :
    ({ vmm := ⟨pmm, kernelPml4, cr3, tlb⟩, roots := [] } : PagingState).Cached False :=
  ⟨⟨free, .empty, holds_empty hfree⟩, False.elim, False.elim⟩

/-- From the first load of a root on, in every interleaving of lookups with the calls of
`vmm.c`, each cached translation is the one a walk of the active tables yields. -/
theorem tlb_agrees_with_walk (physical : Memory) (offset : ℕ) (memoryMap : PhysMemoryMap)
    (hboot : BootMap offset memoryMap) (kernelPml4 cr3 : ℕ)
    (tlb : ℕ → Option Translation) :
    ∃ pmm, pmmInit physical offset memoryMap = some pmm ∧
      ∀ before pml4 after,
        TlbEventsAllowed { vmm := ⟨pmm, kernelPml4, cr3, tlb⟩, roots := [] }
          (before ++ .loadPml4 pml4 :: after) →
        ∃ state, runTlbEvents { vmm := ⟨pmm, kernelPml4, cr3, tlb⟩, roots := [] }
            (before ++ .loadPml4 pml4 :: after) = some state ∧
          ∀ virt translation, state.vmm.tlb (pageOf virt) = some translation →
            walk state.vmm.pmm.map.physical state.vmm.cr3 virt = some translation := by
  obtain ⟨pmm, hinit, hfree, -⟩ := pmmInit_spec physical hboot
  refine ⟨pmm, hinit, ?_⟩
  intro before pml4 after hallowed
  have hstart := cached_pmmInit kernelPml4 cr3 tlb hfree
  obtain ⟨hbefore, hrest⟩ := hallowed.append
  obtain ⟨middle, hmiddle, hcached⟩ := hstart.run hbefore
  obtain ⟨hroot, hafter⟩ := hrest middle hmiddle
  obtain ⟨state, hrun, hfinal⟩ := (hcached.load hroot).run (hafter _ rfl)
  refine ⟨state, ?_, fun virt => hfinal.agrees trivial virt (Set.mem_univ _)⟩
  rw [runTlbEvents_append, hmiddle]
  exact hrun

/-- A page is mapped while the processor looks it up, before and after the flush. -/
def lookupWhileMapped : List TlbEvent :=
  [.call ⟨⟨[0xffff810000000000], []⟩, ⟨[], []⟩, ⟨[], []⟩, [0xffff810000000000]⟩
      (.kmap 0xffff810000000000 0x200000 vmFlagWrite),
    .fill 0xffff810000000000]

/-- The kernel's root is set up and loaded, and a page is mapped under it. -/
theorem tlb_agrees_with_walk_fourPageMap :
    ∃ pmm state,
      pmmInit (fun _ => 0) 0xffff800000000000 fourPageMap = some pmm ∧
      runTlbEvents { vmm := ⟨pmm, 0, 0, fun _ => none⟩, roots := [] }
          ([.call ⟨⟨[], []⟩, ⟨[], []⟩, ⟨[], []⟩, []⟩ (.newPml4 true)] ++
            .loadPml4 0x4000 :: lookupWhileMapped) = some state ∧
      ∀ virt translation, state.vmm.tlb (pageOf virt) = some translation →
        walk state.vmm.pmm.map.physical state.vmm.cr3 virt = some translation := by
  obtain ⟨pmm, hinit, hagrees⟩ := tlb_agrees_with_walk (fun _ => 0) 0xffff800000000000
    fourPageMap bootMap_fourPageMap 0 0 (fun _ => none)
  obtain ⟨pmm', taken, hinit', halloc, hnew, hroot⟩ :=
    newPml4_pmmInit (fun _ => 0) bootMap_fourPageMap usableFrames_fourPageMap
  obtain rfl : pmm' = pmm := Option.some.inj (hinit'.symm.trans hinit)
  have hkernel : (⟨taken, 0x4000, 0x4000, fun _ => none⟩ : Vmm).Holds _ _ _ :=
    hroot.of_pmm_eq rfl
  obtain ⟨state, hrun, hwalk⟩ := hagrees
    [.call ⟨⟨[], []⟩, ⟨[], []⟩, ⟨[], []⟩, []⟩ (.newPml4 true)] 0x4000 lookupWhileMapped (by
    refine ⟨halloc, ?_⟩
    intro next hrun
    obtain rfl := Option.some.inj (hnew.symm.trans hrun)
    refine ⟨List.mem_cons_self, ?_⟩
    intro loaded hload
    obtain rfl := Option.some.inj hload
    exact ⟨⟨List.mem_cons_self, hkernel.pathAllocates List.mem_cons_self (by decide),
      by decide⟩, fun _ _ => ⟨trivial, fun _ _ => trivial⟩⟩)
  exact ⟨pmm', state, hinit, hrun, hwalk⟩

end Flurry.Paging
