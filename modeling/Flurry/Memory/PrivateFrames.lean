import Flurry.Memory.PageEntries
import Flurry.Memory.Tlb

/-!
# Frames that belong to nobody else

The calls of `vmm.c` write to two kinds of frames only: to free ones, which they take
and clear, and to the tables.  A frame that is neither keeps its bytes, and stays
neither: what is taken later comes off the free list.
-/

namespace Flurry.Paging

open ByteMemory PhysicalMemory BitField

/-- A page of physical memory that is neither free nor a table. -/
structure Private (free : List ℕ) (tree : TableTree) (frame : ℕ) : Prop where
  aligned : frame % pageSize = 0
  notFree : frame ∉ free
  notTable : ∀ root path, tree.table root path ≠ some frame

/-- Frames are only taken off the free list, tables are made of free frames, the private
frames keep their bytes, and the window stays where it is. -/
structure Advances (pmm : Pmm) (free : List ℕ) (tree : TableTree) (pmm' : Pmm)
    (free' : List ℕ) (tree' : TableTree) : Prop where
  subset : free' ⊆ free
  tables : ∀ {root path table}, tree'.table root path = some table →
    tree.table root path = some table ∨ table ∈ free
  bytes : ∀ {frame}, Private free tree frame → ∀ target, frame ≤ target →
    target < frame + pageSize → pmm'.map.physical target = pmm.map.physical target
  offset : pmm'.map.hhdmOffset = pmm.map.hhdmOffset

theorem aligned_disjoint {left right : ℕ} (hleft : left % pageSize = 0)
    (hright : right % pageSize = 0) (hne : left ≠ right) :
    left + pageSize ≤ right ∨ right + pageSize ≤ left := by
  simp only [pageSize] at hleft hright ⊢
  omega

section Advances

variable {pmm pmm' pmm'' : Pmm} {free free' free'' : List ℕ} {tree tree' tree'' : TableTree}
variable {frame : ℕ}

theorem Advances.refl (pmm : Pmm) (free : List ℕ) (tree : TableTree) :
    Advances pmm free tree pmm free tree where
  subset := List.Subset.refl free
  tables := Or.inl
  bytes := fun _ _ _ _ => rfl
  offset := rfl

theorem Private.of_advances (hprivate : Private free tree frame)
    (hadvances : Advances pmm free tree pmm' free' tree') : Private free' tree' frame where
  aligned := hprivate.aligned
  notFree := fun hmem => hprivate.notFree (hadvances.subset hmem)
  notTable := fun root path htable =>
    (hadvances.tables htable).elim (hprivate.notTable root path) hprivate.notFree

theorem Advances.trans (hfirst : Advances pmm free tree pmm' free' tree')
    (hsecond : Advances pmm' free' tree' pmm'' free'' tree'') :
    Advances pmm free tree pmm'' free'' tree'' where
  subset := fun _ hmem => hfirst.subset (hsecond.subset hmem)
  tables := fun htable => (hsecond.tables htable).elim hfirst.tables
    fun hmem => Or.inr (hfirst.subset hmem)
  bytes := fun hprivate target hlower hupper =>
    (hsecond.bytes (hprivate.of_advances hfirst) target hlower hupper).trans
      (hfirst.bytes hprivate target hlower hupper)
  offset := hsecond.offset.trans hfirst.offset

end Advances

/-! ## Counting tables -/

/-- The paths of the tables on the way down from the table at `path`. -/
def pathsBelow : List ℕ → List ℕ → Finset (List ℕ)
  | _, [] => ∅
  | path, index :: indices => insert (index :: path) (pathsBelow (index :: path) indices)

theorem pathsBelow_upperIndices (virt : ℕ) :
    pathsBelow [] (upperIndices virt) = tablePaths virt := rfl

theorem suffix_of_mem_pathsBelow {path indices path' : List ℕ}
    (hmem : path' ∈ pathsBelow path indices) : ∃ deeper, path' = deeper ++ path := by
  induction indices generalizing path with
  | nil => simp [pathsBelow] at hmem
  | cons index indices ih =>
      rcases Finset.mem_insert.mp hmem with rfl | hmem
      · exact ⟨[index], rfl⟩
      · obtain ⟨deeper, rfl⟩ := ih hmem
        exact ⟨deeper ++ [index], by simp⟩

theorem length_lt_of_mem_pathsBelow {path indices path' : List ℕ}
    (hmem : path' ∈ pathsBelow path indices) : path.length < path'.length := by
  induction indices generalizing path with
  | nil => simp [pathsBelow] at hmem
  | cons index indices ih =>
      rcases Finset.mem_insert.mp hmem with rfl | hmem
      · simp
      · exact (Nat.lt_succ_self _).trans (ih hmem)

theorem card_pathsBelow (path indices : List ℕ) :
    (pathsBelow path indices).card = indices.length := by
  induction indices generalizing path with
  | nil => rfl
  | cons index indices ih =>
      rw [pathsBelow, Finset.card_insert_of_notMem, ih, List.length_cons]
      exact fun hmem => lt_irrefl _ (length_lt_of_mem_pathsBelow hmem)

theorem TableTree.Spans.mem_of_some {tree : TableTree} {root index table : ℕ}
    {paths : Finset (List ℕ)} {path : List ℕ} (hspans : tree.Spans root paths)
    (htable : tree.table root (index :: path) = some table) : index :: path ∈ paths :=
  (hspans _ (List.cons_ne_nil index path)).mp (by simp [htable])

/-! ## One call -/

namespace Vmm.Holds

variable {vmm : Vmm} {roots free : List ℕ} {tree : TableTree}
variable {root table index virt frame : ℕ} {path indices : List ℕ}

/-- A store to an entry of a table. -/
theorem store64_of_private (hholds : vmm.Holds roots free tree)
    (htable : tree.table root path = some table) (hindex : index < 512)
    (hprivate : Private free tree frame) (physical : Memory) (value : ℕ) {target : ℕ}
    (hlower : frame ≤ target) (hupper : target < frame + pageSize) :
    store64 physical (table + 8 * index) value target = physical target := by
  have hne : frame ≠ table := by
    rintro rfl
    exact hprivate.notTable root path htable
  have hapart := aligned_disjoint hprivate.aligned (hholds.frameOk htable).aligned hne
  apply store64_of_not_mem
  simp only [pageSize] at hapart hupper
  omega

/-- Clearing a free frame. -/
theorem fill_of_private {other : ℕ} (hholds : vmm.Holds roots free tree)
    (hfree : frame ∈ free) (hprivate : Private free tree other) (physical : Memory)
    {target : ℕ} (hlower : other ≤ target) (hupper : target < other + pageSize) :
    fill physical frame pageSize 0 target = physical target := by
  have hne : other ≠ frame := by
    rintro rfl
    exact hprivate.notFree hfree
  have hapart := aligned_disjoint hprivate.aligned
    (hholds.freeList.frameOk frame hfree).aligned hne
  exact fill_of_not_mem (by omega)

/-- A frame is taken and cleared. -/
theorem advances_alloc {rest : List ℕ} {pmm : Pmm}
    (hholds : vmm.Holds roots (frame :: rest) tree)
    (hwindow : pmm.map.hhdmOffset = vmm.pmm.map.hhdmOffset)
    (hphysical : pmm.map.physical = fill vmm.pmm.map.physical frame pageSize 0) :
    Advances vmm.pmm (frame :: rest) tree pmm rest tree where
  subset := List.subset_cons_self frame rest
  tables := Or.inl
  bytes := by
    intro other hprivate target hlower hupper
    rw [hphysical]
    exact hholds.fill_of_private List.mem_cons_self hprivate _ hlower hupper
  offset := hwindow

/-- The frame that was taken belongs to the caller. -/
theorem private_alloc {rest : List ℕ} (hholds : vmm.Holds roots (frame :: rest) tree) :
    Private rest tree frame where
  aligned := (hholds.freeList.frameOk frame List.mem_cons_self).aligned
  notFree := (List.nodup_cons.mp hholds.freeList.nodup).1
  notTable := fun _ _ htable => hholds.allocated htable List.mem_cons_self

/-- A frame that was taken is linked in as a table. -/
theorem advances_extend {rest : List ℕ} {pmm : Pmm} (root : ℕ) (path : List ℕ)
    (hadvances : Advances vmm.pmm (frame :: rest) tree pmm rest tree) :
    Advances vmm.pmm (frame :: rest) tree pmm rest (tree.extend root path frame) where
  subset := hadvances.subset
  tables := by
    intro root' path' table' htable
    rcases extend_table_eq_some htable with ⟨-, -, rfl⟩ | htable
    · exact Or.inr List.mem_cons_self
    · exact Or.inl htable
  bytes := hadvances.bytes
  offset := hadvances.offset

/-- The memory after a missing table was added. -/
theorem getNextPml_map {after : Vmm} {next : ℕ} {rest : List ℕ}
    (hholds : vmm.Holds roots (frame :: rest) tree)
    (htable : tree.table root path = some table) (hlength : path.length < 3)
    (hindex : index < 512) (habsent : tree.table root (index :: path) = none)
    (hrun : getNextPml vmm table index = some (after, next)) :
    after.pmm.map.physical = store64 (fill vmm.pmm.map.physical frame pageSize 0)
      (table + 8 * index) (linkEntry frame) ∧
    after.pmm.map.hhdmOffset = vmm.pmm.map.hhdmOffset := by
  obtain ⟨middle, halloc, -, hwindow, hphysical⟩ := pmmAlloc_cons hholds.freeList
  have hentry := hholds.entry_of_none htable hlength hindex habsent
  have hpointer : entryPointer vmm table index =
      table + 8 * index + middle.map.hhdmOffset := by
    rw [hwindow, hholds.entryPointer_eq htable]
  have hread : vmm.pmm.map.read64 (table + 8 * index + middle.map.hhdmOffset) =
      some 0 := by
    rw [← hpointer, hholds.read_entry htable, hentry]
  have hwrite := DirectMap.write64_window middle.map (table + 8 * index) (linkEntry frame)
  rw [hphysical] at hwrite
  simp only [getNextPml, hpointer, hread, halloc, Option.bind_eq_bind, Option.bind_some,
    ← linkEntry.eq_1, hwrite] at hrun
  obtain ⟨rfl, -⟩ := Prod.mk.inj (Option.some.inj hrun)
  exact ⟨rfl, hwindow⟩

theorem advances_next {after : Vmm} {next : ℕ} {rest : List ℕ}
    (hholds : vmm.Holds roots (frame :: rest) tree)
    (htable : tree.table root path = some table) (hlength : path.length < 3)
    (hindex : index < 512) (habsent : tree.table root (index :: path) = none)
    (hrun : getNextPml vmm table index = some (after, next)) :
    Advances vmm.pmm (frame :: rest) tree after.pmm rest
      (tree.extend root (index :: path) frame) := by
  apply advances_extend
  obtain ⟨hphysical, hwindow⟩ := hholds.getNextPml_map htable hlength hindex habsent hrun
  refine ⟨List.subset_cons_self frame rest, Or.inl, ?_, hwindow⟩
  intro other hprivate target hlower hupper
  rw [hphysical, hholds.store64_of_private htable hindex hprivate _ _ hlower hupper]
  exact hholds.fill_of_private List.mem_cons_self hprivate _ hlower hupper

/-- Each missing table is a path that is not there yet. -/
theorem missingTables_add_card {paths : Finset (List ℕ)}
    (hholds : vmm.Holds roots free tree) (hspans : tree.Spans root paths)
    (htable : tree.table root path = some table) (hway : UpperWay path indices) :
    missingTables vmm.pmm.map.physical table indices + paths.card =
      (paths ∪ pathsBelow path indices).card := by
  induction indices generalizing table path with
  | nil => simp [missingTables, pathsBelow]
  | cons index indices ih =>
      cases hnext : tree.table root (index :: path) with
      | some next =>
          rw [hholds.missingTables_of_some htable hway hnext, ih hnext hway.tail, pathsBelow,
            Finset.union_insert, ← Finset.insert_union,
            Finset.insert_eq_of_mem (hspans.mem_of_some hnext)]
      | none =>
          -- below a missing table everything is missing
          have hapart : Disjoint paths (pathsBelow path (index :: indices)) := by
            rw [Finset.disjoint_right]
            intro path' hmem hpath
            have hnil : path' ≠ [] := by
              rintro rfl
              exact absurd (length_lt_of_mem_pathsBelow hmem) (Nat.not_lt_zero _)
            obtain ⟨deeper, rfl⟩ : ∃ deeper, path' = deeper ++ (index :: path) := by
              rcases Finset.mem_insert.mp hmem with rfl | hmem
              · exact ⟨[], rfl⟩
              · exact suffix_of_mem_pathsBelow hmem
            have hsome := (hspans _ hnil).mpr hpath
            rw [hholds.table_append_of_none hnext] at hsome
            exact absurd hsome (by simp)
          rw [hholds.missingTables_of_none htable hway hnext,
            Finset.card_union_of_disjoint hapart, card_pathsBelow, List.length_cons,
            Nat.add_comm]

/-- The way down takes frames for the missing tables from the free list. -/
theorem descend_advances (hholds : vmm.Holds roots free tree)
    (htable : tree.table root path = some table) (hway : UpperWay path indices)
    (hframes : missingTables vmm.pmm.map.physical table indices ≤ free.length) :
    ∃ pmm tree' found,
      descend vmm table indices = some ({ vmm with pmm := pmm }, found) ∧
        ({ vmm with pmm := pmm } : Vmm).Holds roots
            (free.drop (missingTables vmm.pmm.map.physical table indices)) tree' ∧
          tree'.table root (indices.reverse ++ path) = some found ∧
            tree'.leaf = tree.leaf ∧
              Advances vmm.pmm free tree pmm
                (free.drop (missingTables vmm.pmm.map.physical table indices)) tree' ∧
              ∀ paths, tree.Spans root paths →
                tree'.Spans root (paths ∪ pathsBelow path indices) := by
  induction indices generalizing vmm free tree table path with
  | nil =>
      refine ⟨vmm.pmm, tree, table, rfl, hholds, htable, rfl, Advances.refl _ _ _, ?_⟩
      intro paths hspans
      rwa [pathsBelow, Finset.union_empty]
  | cons index indices ih =>
      have hsplit : (index :: indices).reverse ++ path =
          indices.reverse ++ (index :: path) := by
        simp
      rw [hsplit]
      rcases hholds.getNextPml_cases htable hway.length_lt hway.index_lt with
        ⟨next, hnext, hrun⟩ | ⟨hnone, pmm, next, hrun, -, ⟨rfl, -⟩ | ⟨rest, rfl, hholds'⟩⟩
      · rw [hholds.missingTables_of_some htable hway hnext] at hframes ⊢
        obtain ⟨pmm, tree', found, hdescend, hholds', hfound, hleaf, hadvances, hspan⟩ :=
          ih hholds hnext hway.tail hframes
        refine ⟨pmm, tree', found, by simp [descend, hrun, hdescend], hholds', hfound, hleaf,
          hadvances, ?_⟩
        intro paths hspans
        rw [pathsBelow, Finset.union_insert, ← Finset.insert_union,
          Finset.insert_eq_of_mem (hspans.mem_of_some hnext)]
        exact hspan paths hspans
      · rw [hholds.missingTables_of_none htable hway hnone] at hframes
        simp at hframes
      · have hmissing := hholds.missingTables_extend hnone hholds' hway.tail
        rw [hholds.missingTables_of_none htable hway hnone, List.length_cons,
          Nat.add_le_add_iff_right] at hframes
        rw [hholds.missingTables_of_none htable hway hnone, List.drop_succ_cons]
        obtain ⟨pmm', tree', found, hdescend, hholds'', hfound, hleaf, hadvances, hspan⟩ :=
          ih hholds' extend_table_self hway.tail (hmissing.trans_le hframes)
        rw [hmissing] at hholds'' hadvances
        refine ⟨pmm', tree', found, by simp [descend, hrun, hdescend], hholds'', hfound,
          hleaf, ?_, ?_⟩
        · exact (hholds.advances_next htable hway.length_lt hway.index_lt hnone hrun).trans
            hadvances
        · intro paths hspans
          rw [pathsBelow, Finset.union_insert, ← Finset.insert_union]
          exact hspan _ hspans.extend

/-- Storing a leaf entry. -/
theorem writeLeaf_advances {value : ℕ} (hholds : vmm.Holds roots free tree)
    (hroot : root ∈ roots)
    (hframes : missingTables vmm.pmm.map.physical root (upperIndices virt) ≤
      free.length) (hvalue : value < 2 ^ 64) :
    ∃ pmm tree',
      writeLeaf vmm root virt value =
        some (invlpgIfNeeded { vmm with pmm := pmm } root virt) ∧
      ({ vmm with pmm := pmm } : Vmm).Holds roots
        (free.drop (missingTables vmm.pmm.map.physical root (upperIndices virt))) tree' ∧
      tree'.leaf = (tree.setLeaf root (leafPath virt) value).leaf ∧
      Advances vmm.pmm free tree pmm
        (free.drop (missingTables vmm.pmm.map.physical root (upperIndices virt))) tree' ∧
      ∀ paths, tree.Spans root paths → tree'.Spans root (paths ∪ tablePaths virt) := by
  obtain ⟨pmm, tree', table, hrun, hholds', htable, hleaf, hadvances, hspan⟩ :=
    hholds.descend_advances (hholds.root root hroot) (upperWay_upperIndices virt) hframes
  rw [← leafPath_tail] at htable
  have hset := hholds'.setLeaf htable (by simp [leafPath]) (pml1Index_lt virt) hvalue
  have hwrite := DirectMap.write64_window pmm.map (table + 8 * pml1Index virt) value
  have hpointer : entryPointer { vmm with pmm := pmm } table (pml1Index virt) =
      table + 8 * pml1Index virt + pmm.map.hhdmOffset :=
    hholds'.entryPointer_eq htable
  refine ⟨_, _, ?_, hset, ?_, ?_, hspan⟩
  · simp only [writeLeaf, getPml1Entry_eq, hrun, hpointer, hwrite,
      Option.bind_eq_bind, Option.bind_some]
    rfl
  · simp only [TableTree.setLeaf, hleaf]
    rfl
  · refine ⟨hadvances.subset, hadvances.tables, ?_, hadvances.offset⟩
    intro frame hprivate target hlower hupper
    rw [← hadvances.bytes hprivate target hlower hupper]
    exact hholds'.store64_of_private htable (pml1Index_lt virt)
      (hprivate.of_advances hadvances) _ value hlower hupper

end Vmm.Holds

/-! ## Lookups in between -/

/-- The lookups during a call leave no trace but in the cache. -/
theorem getNextPmlFilled_of_run {vmm : Vmm} {pmm : Pmm} {pml pmlIndex next : ℕ}
    (fills : LevelFills) (tlb : ℕ → Option Translation)
    (hrun : getNextPml vmm pml pmlIndex = some ({ vmm with pmm := pmm }, next)) :
    ∃ tlb', getNextPmlFilled fills { vmm with tlb := tlb } pml pmlIndex =
      some ({ vmm with pmm := pmm, tlb := tlb' }, next) := by
  rcases getNextPmlFilled_cases fills (getNextPml_tlb tlb hrun) with ⟨hsame, hfilled⟩ |
    ⟨middle, frame, -, -, hfilled⟩
  · rw [fillTlbs_eq] at hfilled
    have hpmm : pmm = vmm.pmm := congrArg Vmm.pmm hsame
    subst hpmm
    exact ⟨_, hfilled⟩
  · rw [fillTlbs_eq] at hfilled
    exact ⟨_, hfilled⟩

theorem getNextPml_eq {vmm : Vmm} {pml pmlIndex : ℕ} {result : Vmm × ℕ}
    (hrun : getNextPml vmm pml pmlIndex = some result) :
    ∃ pmm next, result = ({ vmm with pmm := pmm }, next) := by
  simp only [getNextPml, Option.bind_eq_bind, Option.bind_eq_some_iff] at hrun
  obtain ⟨value, -, hrun⟩ := hrun
  by_cases hpresent : isEntryPresent value = true
  · rw [if_pos hpresent] at hrun
    exact ⟨_, _, (Option.some.inj hrun).symm⟩
  · rw [if_neg hpresent, Option.bind_eq_some_iff] at hrun
    obtain ⟨allocated, -, hrun⟩ := hrun
    obtain ⟨map, -, hrun⟩ := Option.bind_eq_some_iff.mp hrun
    exact ⟨_, _, (Option.some.inj hrun).symm⟩

theorem writeLeafFilled_of_run {vmm after : Vmm} {pml4 virt value : ℕ} (fills : CallFills)
    (hrun : writeLeaf vmm pml4 virt value = some after) :
    ∃ tlb, writeLeafFilled fills vmm pml4 virt value = some { after with tlb := tlb } := by
  simp only [writeLeaf, getPml1Entry, Option.bind_eq_bind, Option.bind_assoc,
    Option.pure_def, Option.bind_some] at hrun
  obtain ⟨result₃, hrun4, hrun⟩ := Option.bind_eq_some_iff.mp hrun
  obtain ⟨pmm₃, pml3, rfl⟩ := getNextPml_eq hrun4
  obtain ⟨result₂, hrun3, hrun⟩ := Option.bind_eq_some_iff.mp hrun
  obtain ⟨pmm₂, pml2, rfl⟩ := getNextPml_eq hrun3
  obtain ⟨result₁, hrun2, hrun⟩ := Option.bind_eq_some_iff.mp hrun
  obtain ⟨pmm₁, pml1, rfl⟩ := getNextPml_eq hrun2
  obtain ⟨map, hwrite, hrun⟩ := Option.bind_eq_some_iff.mp hrun
  obtain ⟨tlb₃, hfilled4⟩ := getNextPmlFilled_of_run fills.pml4 vmm.tlb hrun4
  obtain ⟨tlb₂, hfilled3⟩ := getNextPmlFilled_of_run fills.pml3 tlb₃ hrun3
  obtain ⟨tlb₁, hfilled2⟩ := getNextPmlFilled_of_run fills.pml2 tlb₂ hrun2
  have hflush : ∀ (written : Vmm) (tlb : ℕ → Option Translation) (virts : List ℕ),
      ∃ tlb', invlpgIfNeeded (fillTlbs { written with tlb := tlb } virts) pml4 virt =
        { invlpgIfNeeded written pml4 virt with tlb := tlb' } := by
    intro written tlb virts
    rw [fillTlbs_eq]
    unfold invlpgIfNeeded
    split <;> exact ⟨_, rfl⟩
  obtain ⟨tlb, hdone⟩ := hflush { vmm with pmm := { pmm₁ with map := map } } tlb₁
    fills.stored
  refine ⟨tlb, ?_⟩
  rw [← Option.some.inj hrun, ← hdone]
  change getNextPmlFilled fills.pml4 vmm pml4 (pml4Index virt) = _ at hfilled4
  simp only [writeLeafFilled, hfilled4, hfilled3, hfilled2, Option.bind_eq_bind,
    Option.bind_some]
  exact Option.bind_eq_some_iff.mpr ⟨map, hwrite, rfl⟩

namespace Vmm.Holds

variable {vmm : Vmm} {roots free : List ℕ} {tree : TableTree} {root virt : ℕ}

/-- A call with lookups in between changes one leaf entry, leaves the private frames
alone and keeps the cache in agreement with the tables. -/
theorem writeLeafFilled_advances {value : ℕ} (fills : CallFills)
    (hholds : vmm.Holds roots free tree) (hroot : root ∈ roots)
    (hframes : missingTables vmm.pmm.map.physical root (upperIndices virt) ≤ free.length)
    (hvalue : value < 2 ^ 64) :
    ∃ pmm tlb tree', writeLeafFilled fills vmm root virt value =
        some { vmm with pmm := pmm, tlb := tlb } ∧
      ({ vmm with pmm := pmm, tlb := tlb } : Vmm).Holds roots
        (free.drop (missingTables vmm.pmm.map.physical root (upperIndices virt))) tree' ∧
      tree'.leaf = (tree.setLeaf root (leafPath virt) value).leaf ∧
      Advances vmm.pmm free tree pmm
        (free.drop (missingTables vmm.pmm.map.physical root (upperIndices virt))) tree' ∧
      (∀ paths, tree.Spans root paths → tree'.Spans root (paths ∪ tablePaths virt)) ∧
      (vmm.cr3 ∈ roots → vmm.AgreesOn Set.univ →
        ({ vmm with pmm := pmm, tlb := tlb } : Vmm).AgreesOn Set.univ) := by
  obtain ⟨pmm, tree', hrun, hholds', hleaf, hadvances, hspan⟩ :=
    hholds.writeLeaf_advances hroot hframes hvalue
  obtain ⟨tlb, hfilled⟩ := writeLeafFilled_of_run fills hrun
  obtain ⟨pmm', tlb', -, -, hspec, -, hagrees⟩ := hholds.writeLeafFilled_spec fills hroot
    ((hholds.pathAllocates_iff hroot).mpr hframes) hvalue
  have hsame := Option.some.inj (hspec.symm.trans hfilled)
  have hpmm : pmm' = pmm :=
    (congrArg Vmm.pmm hsame).trans (invlpgIfNeeded_pmm { vmm with pmm := pmm } root virt)
  subst hpmm
  exact ⟨pmm', tlb', tree', hspec, hholds'.of_pmm_eq rfl, hleaf, hadvances, hspan, hagrees⟩

end Vmm.Holds

end Flurry.Paging
