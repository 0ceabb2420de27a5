import Flurry.Memory.PageTables

/-!
# The way down to a leaf entry

`get_pml1_entry` passes through three tables below the root.  How many of them
are missing can be read off memory before the call, and it is the number of
frames the call takes from the free list.  When fewer are left, `get_next_pml`
links in whatever `pmm_alloc` returned, which is frame 0.
-/

namespace Flurry.Paging

open ByteMemory PhysicalMemory

/-- The indices that lead to the page table of `virt`, from the root down. -/
def upperIndices (virt : ℕ) : List ℕ :=
  [pml4Index virt, pml3Index virt, pml2Index virt]

/-- The table that present entries lead to. -/
def tableAt (physical : Memory) : ℕ → List ℕ → Option ℕ
  | table, [] => some table
  | table, index :: indices =>
      let entry := tableEntry physical table index
      if isEntryPresent entry then tableAt physical (entry &&& physAddrMask) indices
      else none

/-- How many tables are missing on the way down. -/
def missingTables (physical : Memory) : ℕ → List ℕ → ℕ
  | _, [] => 0
  | table, index :: indices =>
      let entry := tableEntry physical table index
      if isEntryPresent entry then
        missingTables physical (entry &&& physAddrMask) indices
      else indices.length + 1

/-- The calls of `get_next_pml` one after the other. -/
def descend : Vmm → ℕ → List ℕ → Option (Vmm × ℕ)
  | vmm, table, [] => some (vmm, table)
  | vmm, table, index :: indices => do
      let (after, next) ← getNextPml vmm table index
      descend after next indices

/-- Each of these calls finds its table or a frame for it. -/
def TablesAllocate : Vmm → ℕ → List ℕ → Prop
  | _, _, [] => True
  | vmm, table, index :: indices =>
      NextAllocates vmm table index ∧
        ∀ after next, getNextPml vmm table index = some (after, next) →
          TablesAllocate after next indices

/-- One of these calls changes its entry to a present one for frame 0. -/
def InstallsFrameZero : Vmm → ℕ → List ℕ → Prop
  | _, _, [] => False
  | vmm, table, index :: indices =>
      ∃ after next, getNextPml vmm table index = some (after, next) ∧
        ((tableEntry after.pmm.map.physical table index ≠
              tableEntry vmm.pmm.map.physical table index ∧
            isEntryPresent (tableEntry after.pmm.map.physical table index) ∧
            tableEntry after.pmm.map.physical table index &&& physAddrMask = 0) ∨
          InstallsFrameZero after next indices)

/-- The indices lead from the table at `path` to no more than a page table. -/
structure UpperWay (path indices : List ℕ) : Prop where
  depth : path.length + indices.length ≤ 3
  small : ∀ index ∈ indices, index < 512

namespace UpperWay

variable {path indices : List ℕ} {index : ℕ}

theorem length_lt (hway : UpperWay path (index :: indices)) : path.length < 3 := by
  have hdepth := hway.depth
  rw [List.length_cons] at hdepth
  omega

theorem index_lt (hway : UpperWay path (index :: indices)) : index < 512 :=
  hway.small index List.mem_cons_self

theorem tail (hway : UpperWay path (index :: indices)) :
    UpperWay (index :: path) indices where
  depth := by
    have hdepth := hway.depth
    simp only [List.length_cons] at hdepth ⊢
    omega
  small := fun other hother => hway.small other (List.mem_cons_of_mem index hother)

end UpperWay

theorem upperWay_upperIndices (virt : ℕ) : UpperWay [] (upperIndices virt) where
  depth := le_rfl
  small := by
    intro index hindex
    simp only [upperIndices, List.mem_cons, List.not_mem_nil, or_false] at hindex
    rcases hindex with rfl | rfl | rfl
    · exact pml4Index_lt virt
    · exact pml3Index_lt virt
    · exact pml2Index_lt virt

theorem leafPath_tail (virt : ℕ) :
    (leafPath virt).tail = (upperIndices virt).reverse ++ [] := rfl

theorem getPml1Entry_eq (vmm : Vmm) (pml4 virt : ℕ) :
    getPml1Entry vmm pml4 virt = (descend vmm pml4 (upperIndices virt)).bind
      fun found => some (found.1, entryPointer found.1 found.2 (pml1Index virt)) := by
  simp only [getPml1Entry, upperIndices, descend, Option.bind_eq_bind,
    Option.bind_assoc, Option.bind_some]
  rfl

theorem pathAllocates_eq (vmm : Vmm) (pml4 virt : ℕ) :
    PathAllocates vmm pml4 virt ↔ TablesAllocate vmm pml4 (upperIndices virt) := by
  simp only [PathAllocates, upperIndices, TablesAllocate, implies_true, and_true]

theorem missingTables_eq_zero_iff (physical : Memory) (table : ℕ)
    (indices : List ℕ) :
    missingTables physical table indices = 0 ↔
      (tableAt physical table indices).isSome := by
  induction indices generalizing table with
  | nil => simp [missingTables, tableAt]
  | cons index indices ih =>
      by_cases hpresent : isEntryPresent (tableEntry physical table index)
      · simp only [missingTables, tableAt, hpresent, if_true]
        exact ih _
      · simp [missingTables, tableAt, hpresent]

theorem missingTables_le (physical : Memory) (table : ℕ) (indices : List ℕ) :
    missingTables physical table indices ≤ indices.length := by
  induction indices generalizing table with
  | nil => exact le_rfl
  | cons index indices ih =>
      simp only [missingTables, List.length_cons]
      split
      · exact (ih _).trans (Nat.le_succ _)
      · exact le_rfl

namespace Vmm.Holds

variable {vmm : Vmm} {roots free : List ℕ} {tree : TableTree}
variable {root table index : ℕ} {path indices : List ℕ}

theorem table_append_of_none (hholds : vmm.Holds roots free tree)
    (hnone : tree.table root path = none) (deeper : List ℕ) :
    tree.table root (deeper ++ path) = none := by
  induction deeper with
  | nil => exact hnone
  | cons index deeper ih => exact hholds.parent ih

theorem isEntryPresent_link (hholds : vmm.Holds roots free tree)
    (htable : tree.table root path = some table) :
    isEntryPresent (linkEntry table) = true := by
  rw [isEntryPresent_eq, testBit_linkEntry (hholds.frameOk htable) (by omega)]
  rfl

/-- Following the entries in memory is following the path in the tree. -/
theorem tableAt_eq (hholds : vmm.Holds roots free tree)
    (htable : tree.table root path = some table) (hway : UpperWay path indices) :
    tableAt vmm.pmm.map.physical table indices =
      tree.table root (indices.reverse ++ path) := by
  induction indices generalizing table path with
  | nil => exact htable.symm
  | cons index indices ih =>
      have hsplit : (index :: indices).reverse ++ path =
          indices.reverse ++ (index :: path) := by
        simp
      rw [hsplit]
      cases hnext : tree.table root (index :: path) with
      | none =>
          have hentry := hholds.entry_of_none htable hway.length_lt hway.index_lt hnext
          rw [hholds.table_append_of_none hnext]
          simp [tableAt, hentry, isEntryPresent]
      | some next =>
          have hentry := hholds.entry_of_some htable hway.length_lt hway.index_lt hnext
          have hmask := linkEntry_and_mask (hholds.frameOk hnext)
          simp only [tableAt, hentry, hholds.isEntryPresent_link hnext, if_true, hmask]
          exact ih hnext hway.tail

theorem missingTables_of_some (hholds : vmm.Holds roots free tree)
    (htable : tree.table root path = some table)
    (hway : UpperWay path (index :: indices)) {next : ℕ}
    (hnext : tree.table root (index :: path) = some next) :
    missingTables vmm.pmm.map.physical table (index :: indices) =
      missingTables vmm.pmm.map.physical next indices := by
  have hentry := hholds.entry_of_some htable hway.length_lt hway.index_lt hnext
  have hmask := linkEntry_and_mask (hholds.frameOk hnext)
  simp only [missingTables, hentry, hholds.isEntryPresent_link hnext, if_true, hmask]

theorem missingTables_of_none (hholds : vmm.Holds roots free tree)
    (htable : tree.table root path = some table)
    (hway : UpperWay path (index :: indices))
    (hnext : tree.table root (index :: path) = none) :
    missingTables vmm.pmm.map.physical table (index :: indices) =
      indices.length + 1 := by
  have hentry := hholds.entry_of_none htable hway.length_lt hway.index_lt hnext
  simp [missingTables, hentry, isEntryPresent]

/-- Everything one call of `get_next_pml` can do: follow an entry, link in a
free frame, or link in frame 0 when there is none. -/
theorem getNextPml_cases (hholds : vmm.Holds roots free tree)
    (htable : tree.table root path = some table) (hlength : path.length < 3)
    (hindex : index < 512) :
    (∃ next, tree.table root (index :: path) = some next ∧
        getNextPml vmm table index = some (vmm, next)) ∨
      (tree.table root (index :: path) = none ∧
        ∃ pmm next, getNextPml vmm table index = some ({ vmm with pmm := pmm }, next) ∧
          tableEntry pmm.map.physical table index = linkEntry next ∧
          ((free = [] ∧ next = 0) ∨
            ∃ rest, free = next :: rest ∧
              ({ vmm with pmm := pmm } : Vmm).Holds roots rest
                (tree.extend root (index :: path) next))) := by
  cases hnext : tree.table root (index :: path) with
  | some next =>
      exact Or.inl ⟨next, rfl, hholds.getNextPml_present htable hlength hindex hnext⟩
  | none =>
      refine Or.inr ⟨rfl, ?_⟩
      cases free with
      | cons frame rest =>
          obtain ⟨pmm, hrun, hholds'⟩ :=
            hholds.getNextPml_absent htable hlength hindex hnext
          have htable' : (tree.extend root (index :: path) frame).table root path =
              some table := by
            rw [extend_table_of_ne (by simp), htable]
          have hlinked := hholds'.entry_of_some htable' hlength hindex extend_table_self
          exact ⟨pmm, frame, hrun, hlinked, Or.inr ⟨rest, rfl, hholds'⟩⟩
      | nil =>
          have hentry := hholds.entry_of_none htable hlength hindex hnext
          have hread : vmm.pmm.map.read64 (entryPointer vmm table index) = some 0 := by
            rw [hholds.read_entry htable, hentry]
          have hwrite := DirectMap.write64_window vmm.pmm.map (table + 8 * index)
            (linkEntry 0)
          rw [← hholds.entryPointer_eq htable] at hwrite
          set map := { vmm.pmm.map with
            physical := store64 vmm.pmm.map.physical (table + 8 * index) (linkEntry 0) }
          refine ⟨{ vmm.pmm with map := map }, 0, ?_, ?_, Or.inl ⟨rfl, rfl⟩⟩
          · simp only [getNextPml, hread, pmmAlloc_nil hholds.freeList.toThreads,
              Option.bind_eq_bind, Option.bind_some, ← linkEntry.eq_1, hwrite]
            rfl
          · exact tableEntry_store_same (show 7 < 2 ^ 64 by omega)

/-- Below an empty table all tables are missing. -/
theorem missingTables_of_empty (hholds : vmm.Holds roots free tree)
    (htable : tree.table root path = some table) (hway : UpperWay path indices)
    (hempty : ∀ index, tree.table root (index :: path) = none) :
    missingTables vmm.pmm.map.physical table indices = indices.length := by
  cases indices with
  | nil => rfl
  | cons index indices => exact hholds.missingTables_of_none htable hway (hempty index)

/-- A table that was just linked in is empty. -/
theorem missingTables_extend {rest : List ℕ} {before : Vmm} {frame : ℕ}
    (hbefore : before.Holds roots free tree)
    (hnone : tree.table root path = none)
    (hholds : vmm.Holds roots rest (tree.extend root path frame))
    (hway : UpperWay path indices) :
    missingTables vmm.pmm.map.physical frame indices = indices.length := by
  apply hholds.missingTables_of_empty extend_table_self hway
  intro index
  rw [extend_table_of_ne (by simp)]
  exact hbefore.parent hnone

/-- A way that exists is followed without touching memory. -/
theorem descend_of_some {found : ℕ} (hholds : vmm.Holds roots free tree)
    (htable : tree.table root path = some table) (hway : UpperWay path indices)
    (hfound : tree.table root (indices.reverse ++ path) = some found) :
    descend vmm table indices = some (vmm, found) := by
  induction indices generalizing table path with
  | nil =>
      have heq : table = found := Option.some.inj (htable.symm.trans hfound)
      rw [heq]
      rfl
  | cons index indices ih =>
      have hfound' : tree.table root (indices.reverse ++ (index :: path)) = some found := by
        simpa using hfound
      cases hnext : tree.table root (index :: path) with
      | none =>
          rw [hholds.table_append_of_none hnext] at hfound'
          exact absurd hfound' (by simp)
      | some next =>
          have hrun := hholds.getNextPml_present htable hway.length_lt hway.index_lt hnext
          have hdescend := ih hnext hway.tail hfound'
          simp only [descend, hrun, Option.bind_eq_bind, Option.bind_some, hdescend]

/-- With a frame for every missing table the way down takes just those frames
and ends at a table of the tree. -/
theorem descend_spec (hholds : vmm.Holds roots free tree)
    (htable : tree.table root path = some table) (hway : UpperWay path indices)
    (hframes : missingTables vmm.pmm.map.physical table indices ≤ free.length) :
    ∃ pmm tree' found,
      descend vmm table indices = some ({ vmm with pmm := pmm }, found) ∧
        ({ vmm with pmm := pmm } : Vmm).Holds roots
            (free.drop (missingTables vmm.pmm.map.physical table indices)) tree' ∧
          tree'.table root (indices.reverse ++ path) = some found ∧
            tree'.leaf = tree.leaf := by
  induction indices generalizing vmm free tree table path with
  | nil => exact ⟨vmm.pmm, tree, table, rfl, hholds, htable, rfl⟩
  | cons index indices ih =>
      have hsplit : (index :: indices).reverse ++ path =
          indices.reverse ++ (index :: path) := by
        simp
      rw [hsplit]
      rcases hholds.getNextPml_cases htable hway.length_lt hway.index_lt with
        ⟨next, hnext, hrun⟩ | ⟨hnone, pmm, next, hrun, -, ⟨rfl, -⟩ | ⟨rest, rfl, hholds'⟩⟩
      · rw [hholds.missingTables_of_some htable hway hnext] at hframes ⊢
        obtain ⟨pmm, tree', found, hdescend, hfinal⟩ := ih hholds hnext hway.tail hframes
        exact ⟨pmm, tree', found, by simp [descend, hrun, hdescend], hfinal⟩
      · rw [hholds.missingTables_of_none htable hway hnone] at hframes
        simp at hframes
      · have hmissing := hholds.missingTables_extend hnone hholds' hway.tail
        rw [hholds.missingTables_of_none htable hway hnone, List.length_cons,
          Nat.add_le_add_iff_right] at hframes
        rw [hholds.missingTables_of_none htable hway hnone, List.drop_succ_cons]
        obtain ⟨pmm', tree', found, hdescend, hfinal⟩ :=
          ih hholds' extend_table_self hway.tail (hmissing.trans_le hframes)
        rw [hmissing] at hfinal
        exact ⟨pmm', tree', found, by simp [descend, hrun, hdescend], hfinal⟩

/-- All calls find a frame exactly if the free list is long enough. -/
theorem tablesAllocate_iff (hholds : vmm.Holds roots free tree)
    (htable : tree.table root path = some table) (hway : UpperWay path indices) :
    TablesAllocate vmm table indices ↔
      missingTables vmm.pmm.map.physical table indices ≤ free.length := by
  induction indices generalizing vmm free tree table path with
  | nil => simp [TablesAllocate, missingTables]
  | cons index indices ih =>
      have hallocates := allocates_iff hholds.freeList
      rcases hholds.getNextPml_cases htable hway.length_lt hway.index_lt with
        ⟨next, hnext, hrun⟩ | ⟨hnone, pmm, next, hrun, -, ⟨rfl, -⟩ | ⟨rest, rfl, hholds'⟩⟩
      · have hentry := hholds.entry_of_some htable hway.length_lt hway.index_lt hnext
        rw [hholds.missingTables_of_some htable hway hnext, ← ih hholds hnext hway.tail]
        simp [TablesAllocate, NextAllocates, hentry, hholds.isEntryPresent_link hnext, hrun]
      · have hentry := hholds.entry_of_none htable hway.length_lt hway.index_lt hnone
        rw [hholds.missingTables_of_none htable hway hnone]
        simp [TablesAllocate, NextAllocates, hentry, isEntryPresent, hallocates]
      · have hmissing := hholds.missingTables_extend hnone hholds' hway.tail
        have hrest := ih hholds' extend_table_self hway.tail
        rw [hmissing] at hrest
        rw [hholds.missingTables_of_none htable hway hnone]
        simp [TablesAllocate, NextAllocates, hallocates, hrun, hrest]

/-- Frame 0 is linked in exactly if the free list is too short. -/
theorem installsFrameZero_iff (hholds : vmm.Holds roots free tree)
    (htable : tree.table root path = some table) (hway : UpperWay path indices) :
    InstallsFrameZero vmm table indices ↔
      free.length < missingTables vmm.pmm.map.physical table indices := by
  induction indices generalizing vmm free tree table path with
  | nil => simp [InstallsFrameZero, missingTables]
  | cons index indices ih =>
      rcases hholds.getNextPml_cases htable hway.length_lt hway.index_lt with
        ⟨next, hnext, hrun⟩ |
          ⟨hnone, pmm, next, hrun, hlinked, ⟨rfl, rfl⟩ | ⟨rest, rfl, hholds'⟩⟩
      · rw [hholds.missingTables_of_some htable hway hnext, ← ih hholds hnext hway.tail]
        simp [InstallsFrameZero, hrun]
      · have hentry := hholds.entry_of_none htable hway.length_lt hway.index_lt hnone
        rw [hholds.missingTables_of_none htable hway hnone]
        simp only [InstallsFrameZero, hrun, List.length_nil, Nat.zero_lt_succ, iff_true]
        exact ⟨_, _, rfl, Or.inl (by simp only [hlinked, hentry]; decide)⟩
      · have hframe := hholds.freeList.frameOk next List.mem_cons_self
        have hmissing := hholds.missingTables_extend hnone hholds' hway.tail
        have hrest := ih hholds' extend_table_self hway.tail
        have hpositive := hframe.positive
        rw [hmissing] at hrest
        rw [hholds.missingTables_of_none htable hway hnone]
        simp [InstallsFrameZero, hrun, hlinked, linkEntry_and_mask hframe, hrest,
          show next ≠ 0 by omega]

/-! ### From a root -/

variable {virt : ℕ}

theorem tableAt_root (hholds : vmm.Holds roots free tree) (hroot : root ∈ roots) :
    tableAt vmm.pmm.map.physical root (upperIndices virt) =
      tree.table root (leafPath virt).tail :=
  hholds.tableAt_eq (hholds.root root hroot) (upperWay_upperIndices virt)

theorem pathAllocates_iff (hholds : vmm.Holds roots free tree) (hroot : root ∈ roots) :
    PathAllocates vmm root virt ↔
      missingTables vmm.pmm.map.physical root (upperIndices virt) ≤ free.length := by
  rw [pathAllocates_eq]
  exact hholds.tablesAllocate_iff (hholds.root root hroot) (upperWay_upperIndices virt)

/-- Three free frames are enough for any address. -/
theorem pathAllocates (hholds : vmm.Holds roots free tree) (hroot : root ∈ roots)
    (hfree : 3 ≤ free.length) : PathAllocates vmm root virt := by
  rw [hholds.pathAllocates_iff hroot]
  calc
    missingTables vmm.pmm.map.physical root (upperIndices virt) ≤
        (upperIndices virt).length := missingTables_le _ root (upperIndices virt)
    _ = 3 := rfl
    _ ≤ free.length := hfree

/-- Storing a leaf entry takes the frames of the missing tables and changes that
leaf entry of the tree. -/
theorem writeLeaf_spec {value : ℕ} (hholds : vmm.Holds roots free tree)
    (hroot : root ∈ roots)
    (hframes : missingTables vmm.pmm.map.physical root (upperIndices virt) ≤
      free.length) (hvalue : value < 2 ^ 64) :
    ∃ (after : Vmm) (tree' : TableTree),
      writeLeaf vmm root virt value = some after ∧
      after.Holds roots
        (free.drop (missingTables vmm.pmm.map.physical root (upperIndices virt)))
        (tree'.setLeaf root (leafPath virt) value) ∧
      tree'.leaf = tree.leaf ∧ (tree'.table root (leafPath virt).tail).isSome := by
  obtain ⟨pmm, tree', table, hrun, hholds', htable, hleaf⟩ := hholds.descend_spec
    (hholds.root root hroot) (upperWay_upperIndices virt) hframes
  rw [← leafPath_tail] at htable
  have hset := hholds'.setLeaf htable (by simp [leafPath]) (pml1Index_lt virt) hvalue
  have hwrite := DirectMap.write64_window pmm.map (table + 8 * pml1Index virt) value
  have hpointer : entryPointer { vmm with pmm := pmm } table (pml1Index virt) =
      table + 8 * pml1Index virt + pmm.map.hhdmOffset :=
    hholds'.entryPointer_eq htable
  set written : Vmm := { vmm with pmm := { pmm with map := { pmm.map with
    physical := store64 pmm.map.physical (table + 8 * pml1Index virt) value } } }
  refine ⟨invlpgIfNeeded written root virt, tree', ?_, ?_, hleaf, by simp [htable]⟩
  · simp only [writeLeaf, getPml1Entry_eq, hrun, hpointer, hwrite,
      Option.bind_eq_bind, Option.bind_some]
    rfl
  · exact hset.of_pmm_eq (invlpgIfNeeded_pmm written root virt)

end Vmm.Holds

end Flurry.Paging
