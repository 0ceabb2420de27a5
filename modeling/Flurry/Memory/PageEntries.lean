import Flurry.Memory.PageMap

/-!
# Leaf entries by page, and the frames their tables cost

The leaf entry of every canonical page is kept as a number, so that all of its
bits can be spoken about, and the tables under one root are counted: a table is
added for each path that was not there yet, and each costs one frame.
-/

namespace Flurry.Paging

open ByteMemory PhysicalMemory BitField

/-- For every root, the leaf entry of each virtual page. -/
abbrev PageEntries := ℕ → ℕ → ℕ

namespace PageEntries

def empty : PageEntries := fun _ _ => 0

def set (entries : PageEntries) (root virt value : ℕ) : PageEntries :=
  fun root' page =>
    if root' = root ∧ page = virt / pageSize then value else entries root' page

variable {entries : PageEntries} {root root' page virt value : ℕ}

theorem set_self (hpage : page = virt / pageSize) :
    entries.set root virt value root page = value :=
  if_pos ⟨rfl, hpage⟩

theorem set_of_ne (hne : ¬(root' = root ∧ page = virt / pageSize)) :
    entries.set root virt value root' page = entries root' page :=
  if_neg hne

end PageEntries

/-- The paths of the three tables above the leaf entry of `virt`. -/
def tablePaths (virt : ℕ) : Finset (List ℕ) :=
  {[pml4Index virt], [pml3Index virt, pml4Index virt],
    [pml2Index virt, pml3Index virt, pml4Index virt]}

/-- The tables below the root itself are those at the given paths. -/
def TableTree.Spans (tree : TableTree) (root : ℕ) (paths : Finset (List ℕ)) : Prop :=
  ∀ path, path ≠ [] → ((tree.table root path).isSome ↔ path ∈ paths)

/-- The leaf entries of the tree, page by page. -/
def TableTree.Lists (tree : TableTree) (entries : PageEntries) : Prop :=
  ∀ root virt, Canonical virt →
    tree.leaf root (leafPath virt) = entries root (virt / pageSize)

/-- The tables hold the given entries, and those under `root` are the tables at
the given paths. -/
def Vmm.Maps (vmm : Vmm) (roots free : List ℕ) (entries : PageEntries) (root : ℕ)
    (paths : Finset (List ℕ)) : Prop :=
  ∃ tree, vmm.Holds roots free tree ∧ tree.Lists entries ∧ tree.Spans root paths

section Spans

variable {tree : TableTree} {root frame : ℕ} {paths : Finset (List ℕ)} {path : List ℕ}

theorem TableTree.Spans.extend (hspans : tree.Spans root paths) :
    (tree.extend root path frame).Spans root (insert path paths) := by
  intro path' hpath'
  by_cases heq : path' = path
  · simp [TableTree.extend, heq]
  · rw [Vmm.Holds.extend_table_of_ne (fun hand => heq hand.2), hspans path' hpath',
      Finset.mem_insert, or_iff_right heq]

theorem TableTree.Lists.setLeaf {entries : PageEntries} {virt value : ℕ}
    (hlists : tree.Lists entries) (hvirt : Canonical virt) :
    (tree.setLeaf root (leafPath virt) value).Lists (entries.set root virt value) := by
  intro root' virt' hvirt'
  have hpath := leafPath_eq_iff hvirt' hvirt
  by_cases hpage : root' = root ∧ virt' / pageSize = virt / pageSize
  · rw [hpage.1, hpath.mpr hpage.2, setLeaf_leaf_self, PageEntries.set_self hpage.2]
  · rw [setLeaf_leaf_of_ne (by rwa [hpath]), PageEntries.set_of_ne hpage,
      hlists root' virt' hvirt']

end Spans

namespace Vmm.Holds

variable {vmm : Vmm} {roots free : List ℕ} {tree : TableTree}
variable {root table index virt : ℕ} {path : List ℕ} {paths : Finset (List ℕ)}

/-- One level down, a frame is spent exactly if the path is new. -/
theorem getNextPml_counted (hholds : vmm.Holds roots free tree)
    (hspans : tree.Spans root paths) (htable : tree.table root path = some table)
    (hlength : path.length < 3) (hindex : index < 512)
    (hroom : (insert (index :: path) paths).card ≤ paths.card + free.length) :
    ∃ pmm free' tree' next,
      getNextPml vmm table index = some ({ vmm with pmm := pmm }, next) ∧
        ({ vmm with pmm := pmm } : Vmm).Holds roots free' tree' ∧
          tree'.table root (index :: path) = some next ∧ tree'.leaf = tree.leaf ∧
            tree'.Spans root (insert (index :: path) paths) ∧ free' <:+ free ∧
              (insert (index :: path) paths).card + free'.length =
                paths.card + free.length := by
  have hmem := hspans (index :: path) (List.cons_ne_nil index path)
  cases hnext : tree.table root (index :: path) with
  | some next =>
      have hinsert : insert (index :: path) paths = paths :=
        Finset.insert_eq_of_mem (hmem.mp (by simp [hnext]))
      rw [hinsert]
      exact ⟨vmm.pmm, free, tree, next,
        hholds.getNextPml_present htable hlength hindex hnext, hholds, hnext, rfl,
        hspans, List.suffix_rfl, rfl⟩
  | none =>
      have hnew : index :: path ∉ paths := by
        rw [← hmem, hnext]
        simp
      have hcard := Finset.card_insert_of_notMem hnew
      cases free with
      | nil =>
          simp only [List.length_nil] at hroom
          omega
      | cons frame rest =>
          obtain ⟨pmm, hrun, hholds'⟩ :=
            hholds.getNextPml_absent htable hlength hindex hnext
          refine ⟨pmm, rest, _, frame, hrun, hholds', extend_table_self, rfl,
            hspans.extend, List.suffix_cons frame rest, ?_⟩
          rw [hcard, List.length_cons]
          omega

/-- The way down to the leaf entry of `virt` adds the tables that it lacks. -/
theorem getPml1Entry_counted (hholds : vmm.Holds roots free tree)
    (hspans : tree.Spans root paths) (hroot : root ∈ roots)
    (hroom : (paths ∪ tablePaths virt).card ≤ paths.card + free.length) :
    ∃ pmm free' tree' table,
      getPml1Entry vmm root virt = some ({ vmm with pmm := pmm },
        table + 8 * pml1Index virt + pmm.map.hhdmOffset) ∧
        ({ vmm with pmm := pmm } : Vmm).Holds roots free' tree' ∧
          tree'.table root (leafPath virt).tail = some table ∧
            tree'.leaf = tree.leaf ∧ tree'.Spans root (paths ∪ tablePaths virt) ∧
              free' <:+ free ∧ (paths ∪ tablePaths virt).card + free'.length =
                paths.card + free.length := by
  have hall : paths ∪ tablePaths virt =
      insert [pml2Index virt, pml3Index virt, pml4Index virt]
        (insert [pml3Index virt, pml4Index virt] (insert [pml4Index virt] paths)) := by
    ext path
    simp only [tablePaths, Finset.mem_union, Finset.mem_insert, Finset.mem_singleton]
    tauto
  rw [hall] at hroom ⊢
  have hstep1 := Finset.card_le_card (Finset.subset_insert
    [pml2Index virt, pml3Index virt, pml4Index virt]
    (insert [pml3Index virt, pml4Index virt] (insert [pml4Index virt] paths)))
  have hstep2 := Finset.card_le_card (Finset.subset_insert
    [pml3Index virt, pml4Index virt] (insert [pml4Index virt] paths))
  obtain ⟨pmm₃, free₃, tree₃, pml3, hrun4, hholds₃, htable₃, hleaf₃, hspans₃,
    hsuffix₃, hcount₃⟩ :=
    hholds.getNextPml_counted hspans (hholds.root root hroot) (by simp)
      (pml4Index_lt virt) (by omega)
  obtain ⟨pmm₂, free₂, tree₂, pml2, hrun3, hholds₂, htable₂, hleaf₂, hspans₂,
    hsuffix₂, hcount₂⟩ :=
    hholds₃.getNextPml_counted hspans₃ htable₃ (by simp) (pml3Index_lt virt) (by omega)
  obtain ⟨pmm₁, free₁, tree₁, pml1, hrun2, hholds₁, htable₁, hleaf₁, hspans₁,
    hsuffix₁, hcount₁⟩ :=
    hholds₂.getNextPml_counted hspans₂ htable₂ (by simp) (pml2Index_lt virt) (by omega)
  refine ⟨pmm₁, free₁, tree₁, pml1, ?_, hholds₁, htable₁,
    hleaf₁.trans (hleaf₂.trans hleaf₃), hspans₁,
    hsuffix₁.trans (hsuffix₂.trans hsuffix₃), by omega⟩
  simp only [getPml1Entry, hrun4, hrun3, hrun2, Option.bind_eq_bind,
    Option.bind_some, hholds₁.entryPointer_eq htable₁]
  rfl

end Vmm.Holds

namespace Vmm.Maps

variable {vmm : Vmm} {roots free : List ℕ} {entries : PageEntries} {root virt : ℕ}
variable {paths : Finset (List ℕ)}

theorem of_pmm_eq {vmm' : Vmm} (hmaps : vmm.Maps roots free entries root paths)
    (hpmm : vmm'.pmm = vmm.pmm) : vmm'.Maps roots free entries root paths := by
  obtain ⟨tree, hholds, hlists, hspans⟩ := hmaps
  exact ⟨tree, hholds.of_pmm_eq hpmm, hlists, hspans⟩

theorem frameOk {frame : ℕ} (hmaps : vmm.Maps roots free entries root paths)
    (hframe : frame ∈ free) : FrameOk vmm.pmm.map.hhdmOffset frame := by
  obtain ⟨tree, hholds, -⟩ := hmaps
  exact hholds.freeList.frameOk frame hframe

theorem walk_eq {root' : ℕ} (hmaps : vmm.Maps roots free entries root paths)
    (hroot : root' ∈ roots) (hvirt : Canonical virt) :
    walk vmm.pmm.map.physical root' virt =
      leafTranslation (entries root' (virt / pageSize)) := by
  obtain ⟨tree, hholds, hlists, -⟩ := hmaps
  rw [hholds.walk_eq hroot, hlists root' virt hvirt]

/-- A store to the leaf entry of a page succeeds if the frames last for the
tables that are missing, and replaces the entry of that page only. -/
theorem writeLeaf {value : ℕ} (hmaps : vmm.Maps roots free entries root paths)
    (hroot : root ∈ roots) (hvirt : Canonical virt)
    (hroom : (paths ∪ tablePaths virt).card ≤ paths.card + free.length)
    (hvalue : value < 2 ^ 64) :
    ∃ pmm free', Paging.writeLeaf vmm root virt value =
        some (invlpgIfNeeded { vmm with pmm := pmm } root virt) ∧
      ({ vmm with pmm := pmm } : Vmm).Maps roots free' (entries.set root virt value)
        root (paths ∪ tablePaths virt) ∧ free' <:+ free ∧
          (paths ∪ tablePaths virt).card + free'.length =
            paths.card + free.length := by
  obtain ⟨tree, hholds, hlists, hspans⟩ := hmaps
  obtain ⟨pmm, free', tree', table, hrun, hholds', htable, hleaf, hspans', hsuffix,
    hcount⟩ := hholds.getPml1Entry_counted hspans hroot hroom
  have hset := hholds'.setLeaf htable (by simp [leafPath]) (pml1Index_lt virt) hvalue
  have hwrite := DirectMap.write64_window pmm.map (table + 8 * pml1Index virt) value
  have hlists' : tree'.Lists entries := by
    intro root' virt' hvirt'
    rw [hleaf, hlists root' virt' hvirt']
  refine ⟨_, free', ?_, ⟨_, hset, hlists'.setLeaf hvirt, hspans'⟩, hsuffix, hcount⟩
  simp only [Paging.writeLeaf, hrun, hwrite, Option.bind_eq_bind, Option.bind_some]
  rfl

/-- Handing out a frame for another purpose. -/
theorem alloc {frame : ℕ} {rest : List ℕ}
    (hmaps : vmm.Maps roots (frame :: rest) entries root paths) :
    ∃ pmm, pmmAlloc vmm.pmm = some (pmm, frame) ∧
      ({ vmm with pmm := pmm } : Vmm).Maps roots rest entries root paths := by
  obtain ⟨tree, hholds, hlists, hspans⟩ := hmaps
  obtain ⟨pmm, hrun, hholds', -⟩ := hholds.takeFrame
  exact ⟨pmm, hrun, tree, hholds', hlists, hspans⟩

end Vmm.Maps

/-- The first frame taken becomes the root of an empty address space. -/
theorem maps_newPml4 {vmm : Vmm} {frame : ℕ} {rest : List ℕ}
    (hfree : vmm.pmm.FreeList (frame :: rest)) :
    ∃ pmm, pmmAlloc vmm.pmm = some (pmm, frame) ∧
      ({ vmm with pmm := pmm } : Vmm).Maps [frame] rest .empty frame ∅ := by
  obtain ⟨pmm, hrun, -, hroot⟩ := (holds_empty hfree).takeFrame
  refine ⟨pmm, hrun, _, hroot, fun root virt hvirt => rfl, ?_⟩
  intro path hpath
  rw [Vmm.Holds.extend_table_of_ne (fun hand => hpath hand.2)]
  simp [TableTree.empty]

end Flurry.Paging
