import Flurry.Core.BitField
import Flurry.Memory.Paging

/-!
# The tree of page tables

Every table is reached from one root by one path of indices, so that no table
is shared by two slots, and none of them is on the free list.  Paths are kept
with the deepest index first.  On the way to a leaf entry `get_next_pml` either
follows such a path or extends it by a fresh table, which is empty.
-/

namespace Flurry.Paging

open ByteMemory PhysicalMemory BitField

/-! ## Entries -/

/-- The entry that links a table to the next one. -/
def linkEntry (table : ℕ) : ℕ :=
  table ||| vmFlagPresent ||| vmFlagWrite ||| vmFlagUser

theorem physAddrMask_eq : physAddrMask = fieldMask 12 40 := by decide

theorem isEntryPresent_eq (entry : ℕ) : isEntryPresent entry = entry.testBit 0 := by
  simp [isEntryPresent, vmFlagPresent, Nat.testBit_zero]

/-- Flag bits next to a page-aligned physical address leave it readable. -/
theorem or_and_physAddrMask {phys flags : ℕ} (haligned : phys % pageSize = 0)
    (hphys : phys < 2 ^ 52)
    (hflags : ∀ bit, 12 ≤ bit → bit < 52 → flags.testBit bit = false) :
    (phys ||| flags) &&& physAddrMask = phys := by
  rw [physAddrMask_eq]
  exact or_and_fieldMask haligned hphys hflags

theorem testBit_phys_or {phys flags bit : ℕ} (haligned : phys % pageSize = 0)
    (hbit : bit < 12) : (phys ||| flags).testBit bit = flags.testBit bit := by
  have hclear : phys.testBit bit = false := testBit_of_aligned haligned hbit
  rw [Nat.testBit_or, hclear, Bool.false_or]

section LinkEntry

variable {offset table : ℕ}

theorem linkEntry_eq (table : ℕ) : linkEntry table = table ||| 7 := by
  rw [linkEntry, Nat.or_assoc, Nat.or_assoc]
  rfl

theorem linkEntry_and_mask (htable : FrameOk offset table) :
    linkEntry table &&& physAddrMask = table := by
  have hphysical := htable.physical
  simp only [pageSize] at hphysical
  rw [linkEntry_eq]
  apply or_and_physAddrMask htable.aligned (by omega)
  intro bit hlow _
  exact testBit_of_lt (show 7 < 2 ^ 3 by omega) (by omega)

theorem testBit_linkEntry (htable : FrameOk offset table) {bit : ℕ}
    (hbit : bit < 12) : (linkEntry table).testBit bit = decide (bit < 3) := by
  rw [linkEntry_eq, testBit_phys_or htable.aligned hbit]
  exact Nat.testBit_two_pow_sub_one 3 bit

theorem linkEntry_lt (htable : FrameOk offset table) :
    linkEntry table < 2 ^ 52 := by
  have hphysical := htable.physical
  simp only [pageSize] at hphysical
  rw [linkEntry_eq]
  exact Nat.or_lt_two_pow (by omega) (by omega)

theorem testBit_linkEntry_nx (htable : FrameOk offset table) :
    (linkEntry table).testBit 63 = false :=
  testBit_of_lt (linkEntry_lt htable) (by omega)

end LinkEntry

/-! ## Reading the entries of a table -/

section TableEntry

variable {offset table other index slot value : ℕ} {physical : Memory}

theorem tableEntry_store_same (hvalue : value < 2 ^ 64) :
    tableEntry (store64 physical (table + 8 * index) value) table index = value :=
  load64_store64_same hvalue

theorem tableEntry_store_of_ne (htable : FrameOk offset table)
    (hother : FrameOk offset other) (hindex : index < 512) (hslot : slot < 512)
    (hne : ¬(other = table ∧ slot = index)) :
    tableEntry (store64 physical (table + 8 * index) value) other slot =
      tableEntry physical other slot := by
  apply load64_store64_of_disjoint
  by_cases heq : other = table
  · have hslot' : slot ≠ index := fun hslot => hne ⟨heq, hslot⟩
    omega
  · have hdisjoint := htable.disjoint hother.toFrameInWindow (Ne.symm heq)
    simp only [pageSize] at hdisjoint
    omega

theorem tableEntry_fill_same (hindex : index < 512) :
    tableEntry (fill physical table pageSize 0) table index = 0 := by
  apply load_fill_zero
  · omega
  · simp only [pageSize]
    omega

theorem tableEntry_fill_of_ne (htable : FrameOk offset table)
    (hother : FrameOk offset other) (hslot : slot < 512) (hne : other ≠ table) :
    tableEntry (fill physical table pageSize 0) other slot =
      tableEntry physical other slot := by
  have hdisjoint := htable.disjoint hother.toFrameInWindow (Ne.symm hne)
  apply load_fill_of_disjoint
  simp only [pageSize] at hdisjoint ⊢
  omega

end TableEntry

/-! ## The invariant -/

/-- The tables under each root by their path, and the value of each leaf
entry. -/
structure TableTree where
  table : ℕ → List ℕ → Option ℕ
  leaf : ℕ → List ℕ → ℕ

/-- What the entries of the tables at depth `path.length < 3` hold. -/
def TableTree.link (tree : TableTree) (root : ℕ) (path : List ℕ) : ℕ :=
  ((tree.table root path).map linkEntry).getD 0

/-- Physical memory holds the given trees, one under each root. -/
structure Vmm.Holds (vmm : Vmm) (roots free : List ℕ) (tree : TableTree) : Prop where
  freeList : vmm.pmm.FreeList free
  root : ∀ root ∈ roots, tree.table root [] = some root
  rooted : ∀ {root path table}, tree.table root path = some table → root ∈ roots
  parent : ∀ {root index path}, tree.table root path = none →
    tree.table root (index :: path) = none
  unshared : ∀ {root root' path path' table}, tree.table root path = some table →
    tree.table root' path' = some table → root = root' ∧ path = path'
  frameOk : ∀ {root path table}, tree.table root path = some table →
    FrameOk vmm.pmm.map.hhdmOffset table
  allocated : ∀ {root path table}, tree.table root path = some table → table ∉ free
  links : ∀ {root path table}, tree.table root path = some table →
    path.length < 3 → ∀ index < 512,
      tableEntry vmm.pmm.map.physical table index = tree.link root (index :: path)
  leaves : ∀ {root path table}, tree.table root path = some table →
    path.length = 3 → ∀ index < 512,
      tableEntry vmm.pmm.map.physical table index = tree.leaf root (index :: path)
  unmapped : ∀ {root path}, tree.table root path = none → path.length = 3 →
    ∀ index, tree.leaf root (index :: path) = 0

/-! ## Extending a path -/

/-- The tree with one more table. -/
def TableTree.extend (tree : TableTree) (root : ℕ) (path : List ℕ) (table : ℕ) :
    TableTree where
  table := fun root' path' =>
    if root' = root ∧ path' = path then some table else tree.table root' path'
  leaf := tree.leaf

/-- `pmm_alloc` has a frame to return. -/
def Allocates (pmm : Pmm) : Prop :=
  ∃ after frame, pmmAlloc pmm = some (after, frame) ∧ frame ≠ 0

/-- The entry is present, or there is a frame for the table it lacks. -/
def NextAllocates (vmm : Vmm) (pml pmlIndex : ℕ) : Prop :=
  isEntryPresent (tableEntry vmm.pmm.map.physical pml pmlIndex) ∨
    Allocates vmm.pmm

theorem allocates_iff {pmm : Pmm} {free : List ℕ} (hfree : pmm.FreeList free) :
    Allocates pmm ↔ free ≠ [] := by
  cases free with
  | nil =>
      have halloc := pmmAlloc_nil hfree.toThreads
      constructor
      · rintro ⟨after, frame, hsome, hne⟩
        rw [halloc] at hsome
        simp only [Option.some.injEq, Prod.mk.injEq] at hsome
        exact absurd hsome.2.symm hne
      · intro hne
        exact absurd rfl hne
  | cons frame rest =>
      obtain ⟨after, halloc, -⟩ := pmmAlloc_cons hfree
      have hpositive := (hfree.frameOk frame (by simp)).positive
      constructor
      · intro _
        exact List.cons_ne_nil frame rest
      · intro _
        exact ⟨after, frame, halloc, by omega⟩

namespace Vmm.Holds

variable {vmm : Vmm} {roots free : List ℕ} {tree : TableTree}
variable {root table index : ℕ} {path : List ℕ}

theorem entryPointer_eq (hholds : vmm.Holds roots free tree)
    (htable : tree.table root path = some table) :
    entryPointer vmm table index =
      table + 8 * index + vmm.pmm.map.hhdmOffset := by
  have hmapped := (hholds.frameOk htable).mapped
  simp only [pageSize] at hmapped
  rw [entryPointer, wrap64_of_lt (by omega)]
  omega

theorem read_entry (hholds : vmm.Holds roots free tree)
    (htable : tree.table root path = some table) :
    vmm.pmm.map.read64 (entryPointer vmm table index) =
      some (tableEntry vmm.pmm.map.physical table index) := by
  rw [hholds.entryPointer_eq htable, DirectMap.read64_window]
  rfl

theorem entry_of_some (hholds : vmm.Holds roots free tree)
    (htable : tree.table root path = some table) (hlength : path.length < 3)
    (hindex : index < 512) {next : ℕ}
    (hnext : tree.table root (index :: path) = some next) :
    tableEntry vmm.pmm.map.physical table index = linkEntry next := by
  rw [hholds.links htable hlength index hindex, TableTree.link, hnext]
  rfl

theorem entry_of_none (hholds : vmm.Holds roots free tree)
    (htable : tree.table root path = some table) (hlength : path.length < 3)
    (hindex : index < 512) (hnext : tree.table root (index :: path) = none) :
    tableEntry vmm.pmm.map.physical table index = 0 := by
  rw [hholds.links htable hlength index hindex, TableTree.link, hnext]
  rfl

/-- A present entry leads to the table below it. -/
theorem getNextPml_present (hholds : vmm.Holds roots free tree)
    (htable : tree.table root path = some table) (hlength : path.length < 3)
    (hindex : index < 512) {next : ℕ}
    (hnext : tree.table root (index :: path) = some next) :
    getNextPml vmm table index = some (vmm, next) := by
  have hok := hholds.frameOk hnext
  have hentry := hholds.entry_of_some htable hlength hindex hnext
  have hpresent : isEntryPresent (linkEntry next) = true := by
    rw [isEntryPresent_eq, testBit_linkEntry hok (by omega)]
    rfl
  simp only [getNextPml, hholds.read_entry htable, hentry, hpresent,
    linkEntry_and_mask hok, Option.bind_eq_bind, Option.bind_some, if_true]
  rfl

theorem extend_table_eq_some {frame root' table' : ℕ} {path path' : List ℕ}
    (hextend : (tree.extend root path frame).table root' path' = some table') :
    (root' = root ∧ path' = path ∧ table' = frame) ∨
      tree.table root' path' = some table' := by
  simp only [TableTree.extend] at hextend
  split at hextend
  · rename_i heq
    exact Or.inl ⟨heq.1, heq.2, (Option.some.inj hextend).symm⟩
  · exact Or.inr hextend

theorem extend_table_self {frame : ℕ} {path : List ℕ} :
    (tree.extend root path frame).table root path = some frame :=
  if_pos ⟨rfl, rfl⟩

theorem extend_table_of_ne {frame root' : ℕ} {path path' : List ℕ}
    (hne : ¬(root' = root ∧ path' = path)) :
    (tree.extend root path frame).table root' path' = tree.table root' path' :=
  if_neg hne

theorem extend_link_of_ne {frame root' : ℕ} {path path' : List ℕ}
    (hne : ¬(root' = root ∧ path' = path)) :
    (tree.extend root path frame).link root' path' = tree.link root' path' := by
  rw [TableTree.link, extend_table_of_ne hne, TableTree.link]

theorem extend_link_self {frame : ℕ} {path : List ℕ} :
    (tree.extend root path frame).link root path = linkEntry frame := by
  simp [TableTree.link, TableTree.extend]

/-- Clearing a free frame and linking it in at an empty slot adds an empty
table to the tree. -/
theorem extend {frame : ℕ} {rest : List ℕ} {pmm : Pmm}
    (hholds : vmm.Holds roots (frame :: rest) tree)
    (htable : tree.table root path = some table) (hlength : path.length < 3)
    (hindex : index < 512) (habsent : tree.table root (index :: path) = none)
    (hfree : pmm.FreeList rest)
    (hwindow : pmm.map.hhdmOffset = vmm.pmm.map.hhdmOffset)
    (hphysical : pmm.map.physical =
      store64 (fill vmm.pmm.map.physical frame pageSize 0) (table + 8 * index)
        (linkEntry frame)) :
    ({ vmm with pmm := pmm } : Vmm).Holds roots rest
      (tree.extend root (index :: path) frame) := by
  have hframe := hholds.freeList.frameOk frame (by simp)
  have htableOk := hholds.frameOk htable
  have hfresh : ∀ {root' path' table'}, tree.table root' path' = some table' →
      table' ≠ frame := by
    intro root' path' table' hsome heq
    exact hholds.allocated hsome (by simp [heq])
  -- an entry of an old table only changes in the slot that was filled
  have hold : ∀ {root' path' table'}, tree.table root' path' = some table' →
      ∀ slot < 512, ¬(table' = table ∧ slot = index) →
        tableEntry pmm.map.physical table' slot =
          tableEntry vmm.pmm.map.physical table' slot := by
    intro root' path' table' hsome slot hslot hne
    have hok := hholds.frameOk hsome
    rw [hphysical, tableEntry_store_of_ne htableOk hok hindex hslot hne,
      tableEntry_fill_of_ne hframe hok hslot (hfresh hsome)]
  have hnew : ∀ slot < 512, tableEntry pmm.map.physical frame slot = 0 := by
    intro slot hslot
    rw [hphysical, tableEntry_store_of_ne htableOk hframe hindex hslot
      (fun heq => hfresh htable heq.1.symm), tableEntry_fill_same hslot]
  have hlinked : tableEntry pmm.map.physical table index = linkEntry frame := by
    have hlt := linkEntry_lt hframe
    rw [hphysical, tableEntry_store_same (by omega)]
  exact
    { freeList := hfree
      root := by
        intro root' hroot'
        rw [extend_table_of_ne (by simp), hholds.root root' hroot']
      rooted := by
        intro root' path' table' hextend
        rcases extend_table_eq_some hextend with ⟨rfl, -, -⟩ | hsome
        · exact hholds.rooted htable
        · exact hholds.rooted hsome
      parent := by
        intro root' slot path' hnone
        have hne : ¬(root' = root ∧ path' = index :: path) := by
          intro heq
          simp [TableTree.extend, heq] at hnone
        rw [extend_table_of_ne hne] at hnone
        rw [extend_table_of_ne, hholds.parent hnone]
        rintro ⟨rfl, heq⟩
        rw [(List.cons.inj heq).2, htable] at hnone
        exact absurd hnone (by simp)
      unshared := by
        intro root' root'' path' path'' table' hextend hextend'
        rcases extend_table_eq_some hextend with ⟨rfl, rfl, rfl⟩ | hsome <;>
          rcases extend_table_eq_some hextend' with ⟨rfl, rfl, heq⟩ | hsome'
        · exact ⟨rfl, rfl⟩
        · exact absurd rfl (hfresh hsome')
        · exact absurd heq (hfresh hsome)
        · exact hholds.unshared hsome hsome'
      frameOk := by
        intro root' path' table' hextend
        change FrameOk pmm.map.hhdmOffset table'
        rw [hwindow]
        rcases extend_table_eq_some hextend with ⟨-, -, rfl⟩ | hsome
        · exact hframe
        · exact hholds.frameOk hsome
      allocated := by
        intro root' path' table' hextend
        rcases extend_table_eq_some hextend with ⟨-, -, rfl⟩ | hsome
        · exact (List.nodup_cons.mp hholds.freeList.nodup).1
        · intro hmem
          exact hholds.allocated hsome (List.mem_cons_of_mem frame hmem)
      links := by
        intro root' path' table' hextend hlength' slot hslot
        change tableEntry pmm.map.physical table' slot = _
        rcases extend_table_eq_some hextend with ⟨rfl, rfl, rfl⟩ | hsome
        · rw [hnew slot hslot, extend_link_of_ne (by simp), TableTree.link,
            hholds.parent habsent]
          rfl
        · by_cases hslot' : table' = table ∧ slot = index
          · obtain ⟨rfl, rfl⟩ := hslot'
            obtain ⟨rfl, rfl⟩ := hholds.unshared hsome htable
            rw [hlinked, extend_link_self]
          · rw [hold hsome slot hslot hslot', hholds.links hsome hlength' slot hslot,
              extend_link_of_ne]
            rintro ⟨rfl, heq⟩
            obtain ⟨rfl, rfl⟩ := List.cons.inj heq
            exact hslot' ⟨Option.some.inj (hsome.symm.trans htable), rfl⟩
      leaves := by
        intro root' path' table' hextend hlength' slot hslot
        change tableEntry pmm.map.physical table' slot = tree.leaf root' (slot :: path')
        rcases extend_table_eq_some hextend with ⟨rfl, rfl, rfl⟩ | hsome
        · rw [hnew slot hslot, hholds.unmapped habsent hlength']
        · rw [hold hsome slot hslot, hholds.leaves hsome hlength' slot hslot]
          rintro ⟨rfl, -⟩
          obtain ⟨-, rfl⟩ := hholds.unshared hsome htable
          omega
      unmapped := by
        intro root' path' hnone hlength' slot
        have hne : ¬(root' = root ∧ path' = index :: path) := by
          intro heq
          simp [TableTree.extend, heq] at hnone
        rw [extend_table_of_ne hne] at hnone
        exact hholds.unmapped hnone hlength' slot }

/-- Handing out a frame leaves the tables alone. -/
theorem alloc {frame : ℕ} {rest : List ℕ} {pmm : Pmm}
    (hholds : vmm.Holds roots (frame :: rest) tree) (hfree : pmm.FreeList rest)
    (hwindow : pmm.map.hhdmOffset = vmm.pmm.map.hhdmOffset)
    (hphysical : pmm.map.physical = fill vmm.pmm.map.physical frame pageSize 0) :
    ({ vmm with pmm := pmm } : Vmm).Holds roots rest tree := by
  have hframe := hholds.freeList.frameOk frame (by simp)
  have hold : ∀ {root' path' table'}, tree.table root' path' = some table' →
      ∀ slot < 512, tableEntry pmm.map.physical table' slot =
        tableEntry vmm.pmm.map.physical table' slot := by
    intro root' path' table' hsome slot hslot
    rw [hphysical]
    apply tableEntry_fill_of_ne hframe (hholds.frameOk hsome) hslot
    intro heq
    exact hholds.allocated hsome (by simp [heq])
  exact
    { freeList := hfree
      root := hholds.root
      rooted := hholds.rooted
      parent := hholds.parent
      unshared := hholds.unshared
      frameOk := by
        intro root' path' table' hsome
        change FrameOk pmm.map.hhdmOffset table'
        rw [hwindow]
        exact hholds.frameOk hsome
      allocated := by
        intro root' path' table' hsome hmem
        exact hholds.allocated hsome (List.mem_cons_of_mem frame hmem)
      links := by
        intro root' path' table' hsome hlength slot hslot
        exact (hold hsome slot hslot).trans (hholds.links hsome hlength slot hslot)
      leaves := by
        intro root' path' table' hsome hlength slot hslot
        exact (hold hsome slot hslot).trans (hholds.leaves hsome hlength slot hslot)
      unmapped := hholds.unmapped }

/-- A cleared frame that is neither free nor a table serves as a root. -/
theorem addRoot {frame : ℕ} (hholds : vmm.Holds roots free tree)
    (hframe : FrameOk vmm.pmm.map.hhdmOffset frame) (hfree : frame ∉ free)
    (hunused : ∀ {root' path'}, tree.table root' path' ≠ some frame)
    (hempty : ∀ slot < 512, tableEntry vmm.pmm.map.physical frame slot = 0) :
    vmm.Holds (frame :: roots) free (tree.extend frame [] frame) := by
  have hroot : frame ∉ roots := fun hmem => hunused (hholds.root frame hmem)
  have habsent : ∀ path', tree.table frame path' = none := by
    intro path'
    cases hsome : tree.table frame path' with
    | none => rfl
    | some table => exact absurd (hholds.rooted hsome) hroot
  exact
    { freeList := hholds.freeList
      root := by
        intro root' hmem
        rcases List.mem_cons.mp hmem with rfl | hmem
        · simp [TableTree.extend]
        · rw [extend_table_of_ne, hholds.root root' hmem]
          exact fun heq => hroot (heq.1 ▸ hmem)
      rooted := by
        intro root' path' table' hextend
        rcases extend_table_eq_some hextend with ⟨rfl, -, -⟩ | hsome
        · exact List.mem_cons_self
        · exact List.mem_cons_of_mem frame (hholds.rooted hsome)
      parent := by
        intro root' slot path' hnone
        rw [extend_table_of_ne (by simp)]
        by_cases heq : root' = frame
        · rw [heq, habsent]
        · rw [extend_table_of_ne (fun hand => heq hand.1)] at hnone
          exact hholds.parent hnone
      unshared := by
        intro root' root'' path' path'' table' hextend hextend'
        rcases extend_table_eq_some hextend with ⟨rfl, rfl, rfl⟩ | hsome <;>
          rcases extend_table_eq_some hextend' with ⟨rfl, rfl, heq⟩ | hsome'
        · exact ⟨rfl, rfl⟩
        · exact absurd hsome' hunused
        · exact absurd (heq ▸ hsome) hunused
        · exact hholds.unshared hsome hsome'
      frameOk := by
        intro root' path' table' hextend
        rcases extend_table_eq_some hextend with ⟨-, -, rfl⟩ | hsome
        · exact hframe
        · exact hholds.frameOk hsome
      allocated := by
        intro root' path' table' hextend
        rcases extend_table_eq_some hextend with ⟨-, -, rfl⟩ | hsome
        · exact hfree
        · exact hholds.allocated hsome
      links := by
        intro root' path' table' hextend hlength' slot hslot
        rw [extend_link_of_ne (by simp)]
        rcases extend_table_eq_some hextend with ⟨rfl, rfl, rfl⟩ | hsome
        · rw [hempty slot hslot, TableTree.link, habsent]
          rfl
        · exact hholds.links hsome hlength' slot hslot
      leaves := by
        intro root' path' table' hextend hlength' slot hslot
        rcases extend_table_eq_some hextend with ⟨-, rfl, -⟩ | hsome
        · simp at hlength'
        · exact hholds.leaves hsome hlength' slot hslot
      unmapped := by
        intro root' path' hnone hlength' slot
        by_cases heq : root' = frame ∧ path' = []
        · simp [heq.2] at hlength'
        · rw [extend_table_of_ne heq] at hnone
          exact hholds.unmapped hnone hlength' slot }

/-- The first free frame, taken for another purpose or as a root. -/
theorem takeFrame {frame : ℕ} {rest : List ℕ}
    (hholds : vmm.Holds roots (frame :: rest) tree) :
    ∃ pmm, pmmAlloc vmm.pmm = some (pmm, frame) ∧
      ({ vmm with pmm := pmm } : Vmm).Holds roots rest tree ∧
        ({ vmm with pmm := pmm } : Vmm).Holds (frame :: roots) rest
          (tree.extend frame [] frame) := by
  obtain ⟨pmm, hrun, hfree, hwindow, hphysical⟩ := pmmAlloc_cons hholds.freeList
  have hframe := hholds.freeList.frameOk frame (by simp)
  have hholds' := hholds.alloc hfree hwindow hphysical
  refine ⟨pmm, hrun, hholds', hholds'.addRoot (hwindow ▸ hframe)
    (List.nodup_cons.mp hholds.freeList.nodup).1 ?_ ?_⟩
  · exact fun hsome => hholds.allocated hsome (by simp)
  · intro slot hslot
    rw [hphysical]
    exact tableEntry_fill_same hslot

theorem getNextPml_absent {frame : ℕ} {rest : List ℕ}
    (hholds : vmm.Holds roots (frame :: rest) tree)
    (htable : tree.table root path = some table) (hlength : path.length < 3)
    (hindex : index < 512) (habsent : tree.table root (index :: path) = none) :
    ∃ pmm, getNextPml vmm table index = some ({ vmm with pmm := pmm }, frame) ∧
      ({ vmm with pmm := pmm } : Vmm).Holds roots rest
        (tree.extend root (index :: path) frame) := by
  have hframe := hholds.freeList.frameOk frame (by simp)
  have hok := hholds.frameOk htable
  obtain ⟨middle, halloc, hfree, hwindow, hphysical⟩ :=
    pmmAlloc_cons hholds.freeList
  have hentry := hholds.entry_of_none htable hlength hindex habsent
  have hpointer : entryPointer vmm table index =
      table + 8 * index + middle.map.hhdmOffset := by
    rw [hwindow, hholds.entryPointer_eq htable]
  have hread : vmm.pmm.map.read64 (table + 8 * index + middle.map.hhdmOffset) =
      some 0 := by
    rw [← hpointer, hholds.read_entry htable, hentry]
  have hwrite := DirectMap.write64_window middle.map (table + 8 * index)
    (linkEntry frame)
  set physical := store64 middle.map.physical (table + 8 * index)
    (linkEntry frame) with hstore
  refine ⟨{ middle with map := { middle.map with physical := physical } }, ?_,
    hholds.extend htable hlength hindex habsent ?_ hwindow ?_⟩
  · simp only [getNextPml, hpointer, hread, halloc, Option.bind_eq_bind,
      Option.bind_some, ← linkEntry.eq_1, linkEntry_and_mask hframe, hwrite]
    rfl
  · apply hfree.write
    intro other hother target hlower hupper
    have hdisjoint := (hfree.frameOk other hother).disjoint (hwindow ▸ hok.toFrameInWindow)
      (fun heq => hholds.allocated htable (by simp [← heq, hother]))
    simp only [pageSize] at hdisjoint hupper
    rw [hstore]
    apply store64_of_not_mem
    omega
  · rw [hstore, hphysical]

/-- One level down: the table below is there afterwards and the leaves are the
same. -/
theorem getNextPml_spec (hholds : vmm.Holds roots free tree)
    (htable : tree.table root path = some table) (hlength : path.length < 3)
    (hindex : index < 512) (halloc : NextAllocates vmm table index) :
    ∃ pmm free' tree' next,
      getNextPml vmm table index = some ({ vmm with pmm := pmm }, next) ∧
        ({ vmm with pmm := pmm } : Vmm).Holds roots free' tree' ∧
          tree'.table root (index :: path) = some next ∧ tree'.leaf = tree.leaf := by
  cases hnext : tree.table root (index :: path) with
  | some next =>
      exact ⟨vmm.pmm, free, tree, next,
        hholds.getNextPml_present htable hlength hindex hnext, hholds, hnext, rfl⟩
  | none =>
      have hallocates : Allocates vmm.pmm := by
        apply halloc.resolve_left
        rw [hholds.entry_of_none htable hlength hindex hnext]
        decide
      obtain ⟨frame, rest, rfl⟩ :=
        List.exists_cons_of_ne_nil ((allocates_iff hholds.freeList).mp hallocates)
      obtain ⟨pmm, hrun, hholds'⟩ :=
        hholds.getNextPml_absent htable hlength hindex hnext
      exact ⟨pmm, rest, _, frame, hrun, hholds', extend_table_self, rfl⟩

end Vmm.Holds

/-! ## Leaf entries -/

/-- The indices of a virtual address, deepest first. -/
def leafPath (virt : ℕ) : List ℕ :=
  [pml1Index virt, pml2Index virt, pml3Index virt, pml4Index virt]

/-- Every call of `pmm_alloc` on the way to the leaf entry of `virt` has a
frame to return. -/
def PathAllocates (vmm : Vmm) (pml4 virt : ℕ) : Prop :=
  NextAllocates vmm pml4 (pml4Index virt) ∧
    ∀ vmm₃ pml3, getNextPml vmm pml4 (pml4Index virt) = some (vmm₃, pml3) →
      NextAllocates vmm₃ pml3 (pml3Index virt) ∧
        ∀ vmm₂ pml2, getNextPml vmm₃ pml3 (pml3Index virt) = some (vmm₂, pml2) →
          NextAllocates vmm₂ pml2 (pml2Index virt)

/-- The tree with one leaf entry replaced. -/
def TableTree.setLeaf (tree : TableTree) (root : ℕ) (path : List ℕ) (value : ℕ) :
    TableTree where
  table := tree.table
  leaf := fun root' path' =>
    if root' = root ∧ path' = path then value else tree.leaf root' path'

theorem setLeaf_leaf_self {tree : TableTree} {root value : ℕ} {path : List ℕ} :
    (tree.setLeaf root path value).leaf root path = value :=
  if_pos ⟨rfl, rfl⟩

theorem setLeaf_leaf_of_ne {tree : TableTree} {root root' value : ℕ}
    {path path' : List ℕ} (hne : ¬(root' = root ∧ path' = path)) :
    (tree.setLeaf root path value).leaf root' path' = tree.leaf root' path' :=
  if_neg hne

theorem invlpgIfNeeded_pmm (vmm : Vmm) (pml4 virt : ℕ) :
    (invlpgIfNeeded vmm pml4 virt).pmm = vmm.pmm := by
  unfold invlpgIfNeeded
  split <;> rfl

theorem invlpgIfNeeded_kernelPml4 (vmm : Vmm) (pml4 virt : ℕ) :
    (invlpgIfNeeded vmm pml4 virt).kernelPml4 = vmm.kernelPml4 := by
  unfold invlpgIfNeeded
  split <;> rfl

theorem index_lt (value : ℕ) : value &&& 0x1ff < 512 := by
  have hle : value &&& 0x1ff ≤ 0x1ff := Nat.and_le_right
  omega

theorem pml4Index_lt (virt : ℕ) : pml4Index virt < 512 := index_lt (virt >>> 39)

theorem pml3Index_lt (virt : ℕ) : pml3Index virt < 512 := index_lt (virt >>> 30)

theorem pml2Index_lt (virt : ℕ) : pml2Index virt < 512 := index_lt (virt >>> 21)

theorem pml1Index_lt (virt : ℕ) : pml1Index virt < 512 := index_lt (virt >>> 12)

/-- The translation a leaf entry gives below links that allow everything. -/
def leafTranslation (entry : ℕ) : Option Translation :=
  if !entry.testBit 0 then none
  else some (translationOf (entry &&& physAddrMask) [entry])

theorem translationOf_linkEntry {offset table frame : ℕ} {entries : List ℕ}
    (htable : FrameOk offset table) :
    translationOf frame (linkEntry table :: entries) =
      translationOf frame entries := by
  have hwrite := testBit_linkEntry htable (show 1 < 12 by omega)
  have huser := testBit_linkEntry htable (show 2 < 12 by omega)
  simp [translationOf, hwrite, huser, testBit_linkEntry_nx htable]

namespace Vmm.Holds

variable {vmm : Vmm} {roots free : List ℕ} {tree : TableTree} {root virt : ℕ}

/-- The translation cache and the active root do not matter. -/
theorem of_pmm_eq {vmm' : Vmm} (hholds : vmm.Holds roots free tree)
    (hpmm : vmm'.pmm = vmm.pmm) : vmm'.Holds roots free tree where
  freeList := hpmm ▸ hholds.freeList
  root := hholds.root
  rooted := hholds.rooted
  parent := hholds.parent
  unshared := hholds.unshared
  frameOk := hpmm ▸ hholds.frameOk
  allocated := hholds.allocated
  links := hpmm ▸ hholds.links
  leaves := hpmm ▸ hholds.leaves
  unmapped := hholds.unmapped

/-- Storing a leaf entry changes that entry only. -/
theorem setLeaf {table index value : ℕ} {path : List ℕ}
    (hholds : vmm.Holds roots free tree)
    (htable : tree.table root path = some table) (hlength : path.length = 3)
    (hindex : index < 512) (hvalue : value < 2 ^ 64) :
    ({ vmm with pmm := { vmm.pmm with map := { vmm.pmm.map with
        physical := store64 vmm.pmm.map.physical (table + 8 * index) value } } } :
          Vmm).Holds roots free (tree.setLeaf root (index :: path) value) := by
  have hok := hholds.frameOk htable
  have hold : ∀ {root' path' table'}, tree.table root' path' = some table' →
      ∀ slot < 512, ¬(table' = table ∧ slot = index) →
        tableEntry (store64 vmm.pmm.map.physical (table + 8 * index) value)
          table' slot = tableEntry vmm.pmm.map.physical table' slot := by
    intro root' path' table' hsome slot hslot hne
    exact tableEntry_store_of_ne hok (hholds.frameOk hsome) hindex hslot hne
  exact
    { freeList := by
        apply hholds.freeList.write
        intro other hother target hlower hupper
        have hdisjoint := (hholds.freeList.frameOk other hother).disjoint hok.toFrameInWindow
          (ne_of_mem_of_not_mem hother (hholds.allocated htable))
        simp only [pageSize] at hdisjoint hupper
        apply store64_of_not_mem
        omega
      root := hholds.root
      rooted := hholds.rooted
      parent := hholds.parent
      unshared := hholds.unshared
      frameOk := hholds.frameOk
      allocated := hholds.allocated
      links := by
        intro root' path' table' hsome hlength' slot hslot
        rw [hold hsome slot hslot, hholds.links hsome hlength' slot hslot]
        · rfl
        · rintro ⟨rfl, -⟩
          obtain ⟨-, rfl⟩ := hholds.unshared hsome htable
          omega
      leaves := by
        intro root' path' table' hsome hlength' slot hslot
        by_cases hslot' : table' = table ∧ slot = index
        · obtain ⟨rfl, rfl⟩ := hslot'
          obtain ⟨rfl, rfl⟩ := hholds.unshared hsome htable
          rw [tableEntry_store_same hvalue, setLeaf_leaf_self]
        · rw [hold hsome slot hslot hslot', hholds.leaves hsome hlength' slot hslot,
            setLeaf_leaf_of_ne]
          rintro ⟨rfl, heq⟩
          obtain ⟨rfl, rfl⟩ := List.cons.inj heq
          exact hslot' ⟨Option.some.inj (hsome.symm.trans htable), rfl⟩
      unmapped := by
        intro root' path' hnone hlength' slot
        rw [setLeaf_leaf_of_ne, hholds.unmapped hnone hlength']
        rintro ⟨rfl, heq⟩
        have hnone' : tree.table root' path' = none := hnone
        rw [(List.cons.inj heq).2, htable] at hnone'
        exact absurd hnone' (by simp) }

/-- The processor finds exactly the leaf entry of the tree. -/
theorem walk_eq (hholds : vmm.Holds roots free tree) (hroot : root ∈ roots) :
    walk vmm.pmm.map.physical root virt =
      leafTranslation (tree.leaf root (leafPath virt)) := by
  have htable4 := hholds.root root hroot
  have hbit : ∀ {path table}, tree.table root path = some table →
      (linkEntry table).testBit 0 = true ∧ (linkEntry table).testBit 7 = false := by
    intro path table hsome
    have hok := hholds.frameOk hsome
    rw [testBit_linkEntry hok (by omega), testBit_linkEntry hok (by omega)]
    exact ⟨rfl, rfl⟩
  have hmask : ∀ {path table}, tree.table root path = some table →
      linkEntry table &&& physAddrMask = table :=
    fun hsome => linkEntry_and_mask (hholds.frameOk hsome)
  have hempty : tree.table root (leafPath virt).tail = none →
      tree.leaf root (leafPath virt) = 0 :=
    fun hnone => hholds.unmapped hnone (by simp [leafPath]) (pml1Index virt)
  cases htable3 : tree.table root [pml4Index virt] with
  | none =>
      have hentry4 := hholds.entry_of_none htable4 (by simp) (pml4Index_lt virt) htable3
      have hleaf := hempty (hholds.parent (hholds.parent htable3))
      simp [walk, hentry4, hleaf, leafTranslation]
  | some pml3 =>
      have hentry4 := hholds.entry_of_some htable4 (by simp) (pml4Index_lt virt) htable3
      cases htable2 : tree.table root [pml3Index virt, pml4Index virt] with
      | none =>
          have hentry3 :=
            hholds.entry_of_none htable3 (by simp) (pml3Index_lt virt) htable2
          have hleaf := hempty (hholds.parent htable2)
          simp [walk, hentry4, hentry3, hmask htable3, hleaf, leafTranslation]
      | some pml2 =>
          have hentry3 :=
            hholds.entry_of_some htable3 (by simp) (pml3Index_lt virt) htable2
          cases htable1 : tree.table root (leafPath virt).tail with
          | none =>
              have hentry2 :=
                hholds.entry_of_none htable2 (by simp) (pml2Index_lt virt) htable1
              simp [walk, hentry4, hentry3, hentry2, hmask htable3, hmask htable2,
                hbit htable2, isLargePage, hempty htable1, leafTranslation]
          | some pml1 =>
              have hentry2 :=
                hholds.entry_of_some htable2 (by simp) (pml2Index_lt virt) htable1
              have hentry1 : tableEntry vmm.pmm.map.physical pml1 (pml1Index virt) =
                  tree.leaf root (leafPath virt) :=
                hholds.leaves htable1 (by simp [leafPath]) _ (pml1Index_lt virt)
              simp [walk, hentry4, hentry3, hentry2, hentry1, hmask htable3,
                hmask htable2, hmask htable1, hbit htable3, hbit htable2,
                hbit htable1, isLargePage,
                translationOf_linkEntry (hholds.frameOk htable3),
                translationOf_linkEntry (hholds.frameOk htable2),
                translationOf_linkEntry (hholds.frameOk htable1), leafTranslation]

end Vmm.Holds

end Flurry.Paging
