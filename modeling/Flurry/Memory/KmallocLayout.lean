import Flurry.Memory.KmallocOps

/-!
# The heap as a partition into chunks

A `Layout` is a partition of the heap into used and free chunks in which no two
free chunks are neighbours, together with the order of the freelist.  `kmalloc`
and `kfree` take a heap that represents a layout to one that represents another,
and leave the contents of all other used chunks alone.
-/

namespace Flurry.Kmalloc

open ByteMemory BitField CellLayout DoublyLinked

/-! ## Flags -/

/-- Every chunk knows whether the chunk before it is free, and no two
neighbours are free. -/
def FlagsOk : Bool → List Chunk → Prop
  | _, [] => True
  | prevFree, chunk :: chunks =>
      chunk.prevFree = prevFree ∧ ¬(prevFree = true ∧ chunk.free = true) ∧
        FlagsOk chunk.free chunks

/-- Whether the last chunk is free. -/
def lastFree : Bool → List Chunk → Bool
  | prevFree, [] => prevFree
  | _, chunk :: chunks => lastFree chunk.free chunks

section Flags

variable {prevFree flag : Bool} {before after : List Chunk}

theorem flagsOk_append :
    FlagsOk prevFree (before ++ after) ↔
      FlagsOk prevFree before ∧ FlagsOk (lastFree prevFree before) after := by
  induction before generalizing prevFree with
  | nil => simp [FlagsOk, lastFree]
  | cons chunk chunks ih => simp [FlagsOk, lastFree, ih, and_assoc]

theorem FlagsOk.replace {middle middle' after' : List Chunk}
    (hflags : FlagsOk prevFree (before ++ middle ++ after))
    (hmiddle : FlagsOk (lastFree prevFree before) (middle ++ after) →
      FlagsOk (lastFree prevFree before) (middle' ++ after')) :
    FlagsOk prevFree (before ++ middle' ++ after') := by
  rw [List.append_assoc, flagsOk_append] at hflags ⊢
  exact ⟨hflags.1, hmiddle hflags.2⟩

/-- A new flag for the first chunk. -/
theorem FlagsOk.withPrevFree (hflags : FlagsOk prevFree after)
    (hhead : flag = true → ∀ chunk ∈ after.head?, chunk.free = false) :
    FlagsOk flag (Kmalloc.withPrevFree flag after) := by
  cases after with
  | nil => trivial
  | cons chunk chunks =>
      refine ⟨rfl, ?_, hflags.2.2⟩
      rintro ⟨hflag, hfree⟩
      have hused := hhead hflag chunk rfl
      exact absurd (hused.symm.trans hfree) (by simp)

end Flags

/-! ## Used blocks -/

/-- Addresses and sizes of the used chunks. -/
def usedBlocks (start : ℕ) (chunks : List Chunk) : List (ℕ × ℕ) :=
  (place Chunk.size start chunks).filterMap fun entry =>
    if entry.2.free then none else some (entry.1, entry.2.size)

section UsedBlocks

variable {before middle after chunks : List Chunk} {chunk : Chunk}
variable {start address size : ℕ}

theorem usedBlocks_append :
    usedBlocks start (before ++ after) =
      usedBlocks start before ++
        usedBlocks (start + span Chunk.size before) after := by
  simp [usedBlocks]

theorem usedBlocks_cons :
    usedBlocks start (chunk :: chunks) =
      (if chunk.free then [] else [(start, chunk.size)]) ++
        usedBlocks (start + chunk.size) chunks := by
  cases hfree : chunk.free <;> simp [usedBlocks, hfree]

@[simp]
theorem usedBlocks_nil : usedBlocks start [] = [] := rfl

@[simp]
theorem usedBlocks_withPrevFree (flag : Bool) :
    usedBlocks start (withPrevFree flag chunks) = usedBlocks start chunks := by
  cases chunks with
  | nil => rfl
  | cons chunk chunks => simp [withPrevFree, usedBlocks_cons]

theorem usedBlocks_replace :
    usedBlocks heapStart (before ++ middle ++ after) =
      usedBlocks heapStart before ++ usedBlocks (addressAfter before) middle ++
        usedBlocks (addressAfter before + span Chunk.size middle) after := by
  simp [usedBlocks_append, addressAfter, Nat.add_assoc]

/-- A free chunk contributes no block. -/
theorem usedBlocks_of_free (before after : List Chunk) (chunk : Chunk)
    (hfree : chunk.free = true) :
    usedBlocks heapStart (before ++ [chunk] ++ after) =
      usedBlocks heapStart before ++
        usedBlocks (addressAfter before + chunk.size) after := by
  rw [usedBlocks_replace, usedBlocks_cons]
  simp [hfree]

theorem mem_usedBlocks :
    (address, size) ∈ usedBlocks start chunks ↔
      ∃ chunk, (address, chunk) ∈ place Chunk.size start chunks ∧
        chunk.free = false ∧ chunk.size = size := by
  simp only [usedBlocks, List.mem_filterMap, Prod.exists]
  constructor
  · rintro ⟨other, chunk, hmem, hsome⟩
    cases hfree : chunk.free with
    | true => simp [hfree] at hsome
    | false =>
        simp only [hfree, Bool.false_eq_true, if_false, Option.some.injEq,
          Prod.mk.injEq] at hsome
        exact ⟨chunk, hsome.1 ▸ hmem, hfree, hsome.2⟩
  · rintro ⟨chunk, hmem, hfree, rfl⟩
    exact ⟨address, chunk, hmem, by simp [hfree]⟩

end UsedBlocks

/-! ## Layouts -/

/-- Every chunk takes at least 32 bytes of the heap. -/
theorem Tiling.length_le {chunks : List Chunk} (htiling : Tiling chunks) :
    chunks.length ≤ maxChunks := by
  have hlength : ∀ chunks : List Chunk, (∀ chunk ∈ chunks, SizeOk chunk) →
      32 * chunks.length ≤ span Chunk.size chunks := by
    intro chunks hsizes
    induction chunks with
    | nil => simp
    | cons chunk chunks ih =>
        have hchunk := (hsizes chunk (by simp)).2
        have hchunks := ih fun other hother => hsizes other (by simp [hother])
        rw [span_cons, List.length_cons]
        omega
  have hcount := hlength chunks htiling.sizes
  have hmax : maxChunks = 65536 := by decide
  rw [htiling.covers, heapSize] at hcount
  omega

/-- A partition of the heap with its freelist. -/
structure Layout where
  chunks : List Chunk
  freelist : List ℕ
  tiling : Tiling chunks
  flags : FlagsOk false chunks
  exact : freelist.Perm (freeAddresses heapStart chunks)

/-- The bytes of the heap hold the layout. -/
def Heap.Represents (heap : Heap) (layout : Layout) : Prop :=
  heap.Holds layout.chunks layout.freelist

namespace Layout

theorem mem_free (layout : Layout) {node : ℕ} (hnode : node ∈ layout.freelist) :
    node ∈ freeAddresses heapStart layout.chunks :=
  layout.exact.mem_iff.mp hnode

/-- What is left of the freelist when one node is taken out still consists of free
chunks. -/
theorem mem_free_others (layout : Layout) {node taken : ℕ} {left right : List ℕ}
    (hfreelist : layout.freelist = left ++ taken :: right)
    (hnode : node ∈ left ++ right) : node ∈ freeAddresses heapStart layout.chunks :=
  layout.mem_free (hfreelist ▸ mem_of_mem_others hnode)

/-- The freelist can be cut at every free chunk. -/
theorem exists_split_freelist (layout : Layout) {address : ℕ} {chunk : Chunk}
    (hchunk : (address, chunk) ∈ place Chunk.size heapStart layout.chunks)
    (hfree : chunk.free = true) :
    ∃ left right, layout.freelist = left ++ address :: right := by
  apply List.append_of_mem
  rw [layout.exact.mem_iff]
  exact mem_addressesOf.mpr ⟨chunk, hchunk, hfree⟩

theorem nodup (layout : Layout) : layout.freelist.Nodup :=
  layout.exact.nodup_iff.mpr layout.tiling.nodup

/-- There are never more free chunks than the search loop may visit. -/
theorem length_le (layout : Layout) : layout.freelist.length ≤ maxChunks := by
  have hplace : ∀ (start : ℕ) (chunks : List Chunk),
      (freeAddresses start chunks).length ≤ chunks.length := by
    intro start chunks
    induction chunks generalizing start with
    | nil => simp
    | cons chunk chunks ih =>
        have hchunks := ih (start + chunk.size)
        rw [freeAddresses_cons]
        cases chunk.free <;> simp <;> omega
  rw [layout.exact.length_eq]
  exact (hplace heapStart layout.chunks).trans layout.tiling.length_le

end Layout

/-! ## Payloads -/

/-- The payloads of the given blocks are the same in both heaps. -/
def PayloadsKept (blocks : List (ℕ × ℕ)) (heap heap' : Heap) : Prop :=
  ∀ block ∈ blocks, ∀ target, block.1 + 8 ≤ target → target < block.1 + block.2 →
    heap'.memory target = heap.memory target

/-- Writes to neighbouring chunks, the metadata word after them and links reach
no payload of another used chunk. -/
theorem Frame.payloadsKept {before middle after : List Chunk} {nodes : List ℕ}
    {heap heap' : Heap} {high : ℕ}
    (hframe : Frame (addressAfter before) high nodes heap heap')
    (hhigh : high ≤ addressAfter before + span Chunk.size middle + 8)
    (htiling : Tiling (before ++ middle ++ after))
    (hnodes : ∀ node ∈ nodes,
      node ∈ freeAddresses heapStart (before ++ middle ++ after)) :
    PayloadsKept (usedBlocks heapStart before ++
      usedBlocks (addressAfter before + span Chunk.size middle) after) heap heap' := by
  rintro ⟨address, size⟩ hblock target hlower hupper
  have hused : (address, size) ∈
      usedBlocks heapStart (before ++ middle ++ after) := by
    rw [usedBlocks_replace]
    rcases List.mem_append.mp hblock with hbefore | hafter
    · simp [hbefore]
    · simp [hafter]
  obtain ⟨chunk, hchunk, hfree, rfl⟩ := mem_usedBlocks.mp hused
  simp only at hlower hupper
  apply hframe
  · rcases List.mem_append.mp hblock with hbefore | hafter
    · obtain ⟨other, hother, -, hsize⟩ := mem_usedBlocks.mp hbefore
      have hbounds := (mem_place_bounds hother).2
      rw [← addressAfter] at hbounds
      simp only [hsize] at hbounds
      exact Or.inl (by omega)
    · obtain ⟨other, hother, -, -⟩ := mem_usedBlocks.mp hafter
      have hbounds := (mem_place_bounds hother).1
      simp only at hbounds
      exact Or.inr (by omega)
  · intro node hnode
    exact htiling.outside_of_used hchunk hfree (hnodes node hnode) (by omega) hupper

/-! ## Release -/

/-- What releasing the used block `block` does. -/
structure Releases (block : ℕ × ℕ) (heap heap' : Heap) (layout layout' : Layout) :
    Prop where
  represents : heap'.Represents layout'
  used : (usedBlocks heapStart layout.chunks).Perm
    (block :: usedBlocks heapStart layout'.chunks)
  kept : PayloadsKept (usedBlocks heapStart layout'.chunks) heap heap'

theorem perm_of_middle {node : ℕ} {left right before after : List ℕ}
    (hperm : (left ++ node :: right).Perm (before ++ node :: after)) :
    (left ++ right).Perm (before ++ after) :=
  (List.perm_middle.symm.trans (hperm.trans List.perm_middle)).cons_inv

section Release

variable {heap : Heap} {layout : Layout} {before after : List Chunk}
variable {prev chunk next : Chunk}

/-- What a heap that represents a layout holds, at the chunks as they are written here. -/
theorem Heap.Represents.parts {chunks : List Chunk} (hrepresents : heap.Represents layout)
    (hchunks : layout.chunks = chunks) :
    heap.Holds chunks layout.freelist ∧ Tiling chunks ∧ FlagsOk false chunks ∧
      layout.freelist.Perm (freeAddresses heapStart chunks) ∧
        ∀ node ∈ layout.freelist, node ∈ freeAddresses heapStart chunks := by
  subst hchunks
  exact ⟨hrepresents, layout.tiling, layout.flags, layout.exact, fun _ => layout.mem_free⟩

theorem releases_alone (hrepresents : heap.Represents layout)
    (hchunks : layout.chunks = before ++ [chunk] ++ after)
    (hused : chunk.free = false) (hprevFree : chunk.prevFree = false)
    (hhead : ∀ other ∈ after.head?, other.free = false) :
    ∃ layout', Releases (addressAfter before, chunk.size) heap
      (kfreeAlone heap (addressAfter before) (addressAfter before + chunk.size))
        layout layout' := by
  obtain ⟨hholds, htiling, hflags, hexact, hnodes⟩ := hrepresents.parts hchunks
  obtain ⟨hholds', hframe⟩ := kfreeAlone_holds hholds htiling hnodes hused
  have htiling' : Tiling (before ++ [{ chunk with free := true }] ++
      withPrevFree true after) :=
    Tiling.withPrevFree (htiling.set rfl)
  have hflags' : FlagsOk false (before ++ [{ chunk with free := true }] ++
      withPrevFree true after) := by
    apply hflags.replace
    rintro ⟨hprev, -, hafter⟩
    refine ⟨hprev, ?_, hafter.withPrevFree fun _ => hhead⟩
    rw [← hprev, hprevFree]
    simp
  have hexact' : (addressAfter before :: layout.freelist).Perm (freeAddresses heapStart
      (before ++ [{ chunk with free := true }] ++ withPrevFree true after)) := by
    rw [freeAddresses_append_withPrevFree]
    exact (hexact.cons _).trans (freeAddresses_setFree hused)
  have hblocks := usedBlocks_of_free before (withPrevFree true after)
    { chunk with free := true } rfl
  rw [usedBlocks_withPrevFree] at hblocks
  refine ⟨⟨_, _, htiling', hflags', hexact'⟩, hholds', ?_, ?_⟩
  · simp only [hblocks, hchunks, usedBlocks_replace, usedBlocks_cons, hused, span_cons]
    simp
  · simp only [hblocks]
    exact hframe.payloadsKept (by simp) htiling hnodes

theorem releases_prev (hrepresents : heap.Represents layout)
    (hchunks : layout.chunks = before ++ [prev, chunk] ++ after)
    (hfree : prev.free = true) (hused : chunk.free = false)
    (hhead : ∀ other ∈ after.head?, other.free = false) :
    ∃ layout', Releases (addressAfter before + prev.size, chunk.size) heap
      (kfreePrev heap (addressAfter before + prev.size)
        (addressAfter before + prev.size + chunk.size)) layout layout' := by
  obtain ⟨hholds, htiling, hflags, hexact, hnodes⟩ := hrepresents.parts hchunks
  obtain ⟨hholds', hframe⟩ := kfreePrev_holds hholds htiling hnodes hfree hused
  obtain ⟨-, -, htiling'⟩ := hholds.grow htiling hnodes
    (show prev.size + chunk.size = span Chunk.size [prev, chunk] by simp)
  have hflags' : FlagsOk false (before ++
      [{ prev with size := prev.size + chunk.size }] ++ withPrevFree true after) := by
    apply hflags.replace
    rintro ⟨hprev, hne, -, -, hafter⟩
    refine ⟨hprev, hne, ?_⟩
    simp only [hfree]
    exact hafter.withPrevFree fun _ => hhead
  have hexact' : layout.freelist.Perm (freeAddresses heapStart (before ++
      [{ prev with size := prev.size + chunk.size }] ++ withPrevFree true after)) := by
    rw [freeAddresses_append_withPrevFree]
    simp only [freeAddresses_replace, freeAddresses_cons, hfree, hused,
      span_cons] at hexact ⊢
    simpa using hexact
  have hblocks := usedBlocks_of_free before (withPrevFree true after)
    { prev with size := prev.size + chunk.size } hfree
  rw [usedBlocks_withPrevFree] at hblocks
  refine ⟨⟨_, _, htiling'.withPrevFree, hflags', hexact'⟩, hholds', ?_, ?_⟩
  · simp only [hchunks, usedBlocks_replace, usedBlocks_cons, usedBlocks_withPrevFree,
      hused, hfree, span_cons]
    simp
  · have hkept := hframe.payloadsKept (by simp; omega) htiling hnodes
    simp only [hblocks]
    simpa using hkept

theorem releases_next (hrepresents : heap.Represents layout)
    (hchunks : layout.chunks = before ++ [chunk, next] ++ after)
    (hused : chunk.free = false) (hprevFree : chunk.prevFree = false)
    (hfree : next.free = true) :
    ∃ heap' layout', kfreeNext heap (addressAfter before)
        (addressAfter before + chunk.size) = some heap' ∧
      Releases (addressAfter before, chunk.size) heap heap' layout layout' := by
  obtain ⟨hholds, htiling, hflags, hexact, hnodes⟩ := hrepresents.parts hchunks
  have hnodup := layout.nodup
  have hplace : (addressAfter before + chunk.size, next) ∈
      place Chunk.size heapStart layout.chunks := by simp [hchunks, addressAfter]
  obtain ⟨left, right, hfreelist⟩ := layout.exists_split_freelist hplace hfree
  rw [hfreelist] at hholds hexact hnodup hnodes
  obtain ⟨heap', hrun, hholds', hframe⟩ :=
    kfreeNext_holds hholds htiling hnodes hnodup hused hfree
  obtain ⟨-, -, htiling'⟩ := hholds.grow htiling hnodes
    (show chunk.size + next.size = span Chunk.size [chunk, next] by simp)
  have hflags' : FlagsOk false (before ++
      [{ chunk with size := chunk.size + next.size, free := true }] ++ after) := by
    apply hflags.replace
    rintro ⟨hprev, -, -, -, hafter⟩
    rw [hfree] at hafter
    refine ⟨hprev, ?_, hafter⟩
    rw [← hprev, hprevFree]
    simp
  have hexact' : (addressAfter before :: (left ++ right)).Perm (freeAddresses heapStart
      (before ++ [{ chunk with size := chunk.size + next.size, free := true }] ++
        after)) := by
    simp only [freeAddresses_replace, freeAddresses_cons, hused, hfree,
      span_cons] at hexact ⊢
    have hmiddle := perm_of_middle (by simpa using hexact)
    simpa using (hmiddle.cons (addressAfter before)).trans List.perm_middle.symm
  have hblocks := usedBlocks_of_free before after
    { chunk with size := chunk.size + next.size, free := true } rfl
  have htiling'' : Tiling (before ++
      [{ chunk with size := chunk.size + next.size, free := true }] ++ after) :=
    htiling'.set rfl
  refine ⟨heap', ⟨_, _, htiling'', hflags', hexact'⟩, hrun, hholds', ?_, ?_⟩
  · simp only [hchunks, usedBlocks_replace, usedBlocks_cons, hused, hfree, span_cons]
    simp
  · have hkept := hframe.payloadsKept (by simp; omega) htiling
      (fun node hnode => hnodes node (mem_of_mem_others hnode))
    simp only [hblocks]
    simpa using hkept

theorem releases_both (hrepresents : heap.Represents layout)
    (hchunks : layout.chunks = before ++ [prev, chunk, next] ++ after)
    (hprevFree : prev.free = true) (hused : chunk.free = false)
    (hfree : next.free = true) :
    ∃ heap' layout', kfreeBoth heap (addressAfter before + prev.size)
        (addressAfter before + prev.size + chunk.size) = some heap' ∧
      Releases (addressAfter before + prev.size, chunk.size) heap heap' layout
        layout' := by
  obtain ⟨hholds, htiling, hflags, hexact, hnodes⟩ := hrepresents.parts hchunks
  have hnodup := layout.nodup
  have hplace : (addressAfter before + prev.size + chunk.size, next) ∈
      place Chunk.size heapStart layout.chunks := by simp [hchunks, addressAfter]
  obtain ⟨left, right, hfreelist⟩ := layout.exists_split_freelist hplace hfree
  rw [hfreelist] at hholds hexact hnodup hnodes
  obtain ⟨heap', hrun, hholds', hframe⟩ :=
    kfreeBoth_holds hholds htiling hnodes hnodup hprevFree hused hfree
  obtain ⟨-, -, htiling'⟩ := hholds.grow htiling hnodes
    (show prev.size + chunk.size + next.size = span Chunk.size [prev, chunk, next] by
      simp [Nat.add_assoc])
  have hflags' : FlagsOk false (before ++
      [{ prev with size := prev.size + chunk.size + next.size }] ++ after) := by
    apply hflags.replace
    rintro ⟨hprev, hne, -, -, -, -, hafter⟩
    rw [hfree, ← hprevFree] at hafter
    exact ⟨hprev, hne, hafter⟩
  have hexact' : (left ++ right).Perm (freeAddresses heapStart (before ++
      [{ prev with size := prev.size + chunk.size + next.size }] ++ after)) := by
    simp only [freeAddresses_replace, freeAddresses_cons, hprevFree, hused, hfree,
      span_cons] at hexact ⊢
    have hmiddle : (left ++ right).Perm ((freeAddresses heapStart before ++
        [addressAfter before]) ++ freeAddresses (addressAfter before +
          (prev.size + chunk.size + next.size)) after) :=
      perm_of_middle (by simpa [Nat.add_assoc] using hexact)
    simpa [Nat.add_assoc] using hmiddle
  have hblocks := usedBlocks_of_free before after
    { prev with size := prev.size + chunk.size + next.size } hprevFree
  refine ⟨heap', ⟨_, _, htiling', hflags', hexact'⟩, hrun, hholds', ?_, ?_⟩
  · simp only [hchunks, usedBlocks_replace, usedBlocks_cons, hprevFree, hused, hfree,
      span_cons]
    simp [Nat.add_assoc]
  · have hkept := hframe.payloadsKept (by simp; omega) htiling
      (fun node hnode => hnodes node (mem_of_mem_others hnode))
    simp only [hblocks]
    simpa [Nat.add_assoc] using hkept

/-- The chunk before a used chunk, when the used chunk says it is free. -/
theorem exists_prev (hflags : FlagsOk false (before ++ [chunk] ++ after))
    (hprevFree : chunk.prevFree = true) :
    ∃ before' prev, before = before' ++ [prev] ∧ prev.free = true := by
  rw [List.append_assoc, flagsOk_append] at hflags
  have hlast : lastFree false before = true := hflags.2.1.symm.trans hprevFree
  rcases List.eq_nil_or_concat before with rfl | ⟨before', prev, rfl⟩
  · simp [lastFree] at hlast
  · refine ⟨before', prev, by simp, ?_⟩
    have happend : ∀ (flag : Bool) (chunks : List Chunk),
        lastFree flag (chunks ++ [prev]) = prev.free := by
      intro flag chunks
      induction chunks generalizing flag with
      | nil => rfl
      | cons chunk chunks ih => exact ih chunk.free
    rw [List.concat_eq_append, happend] at hlast
    exact hlast

/-- The test for a free chunk after the one that is released. -/
theorem coalesceWithNext_eq {nodes : List ℕ}
    (hholds : heap.Holds (before ++ [chunk] ++ after) nodes)
    (htiling : Tiling (before ++ [chunk] ++ after)) :
    (isInHeapBounds (addressAfter before + chunk.size) &&
        getFlag heap (addressAfter before + chunk.size) flagIsFree) =
      (after.head?.map Chunk.free).getD false := by
  have hcovers := htiling.covers
  simp only [span_append, span_cons, span_nil] at hcovers
  cases after with
  | nil =>
      have hout : isInHeapBounds (addressAfter before + chunk.size) = false := by
        rw [Bool.eq_false_iff, ne_eq, isInHeapBounds_iff, heapEnd, addressAfter]
        simp only [span_nil] at hcovers
        omega
      rw [hout]
      rfl
  | cons next after =>
      have hsize := (htiling.sizes next (by simp)).2
      have hin : isInHeapBounds (addressAfter before + chunk.size) = true := by
        rw [isInHeapBounds_iff, heapEnd, addressAfter]
        simp only [span_cons] at hcovers
        omega
      have hplace : (addressAfter before + chunk.size, next) ∈
          place Chunk.size heapStart (before ++ [chunk] ++ next :: after) := by
        simp [addressAfter]
      rw [hin, getFlag_isFree (hholds.metadata hplace)]
      rfl

/-- The four ways in which a used chunk meets its neighbours, with what `kfree` does
about it. -/
inductive ReleaseCase (heap : Heap) (layout : Layout) : ℕ → ℕ → Option Heap → Prop
  | alone {before after : List Chunk} {chunk : Chunk}
      (split : layout.chunks = before ++ [chunk] ++ after)
      (used : chunk.free = false) (prevFree : chunk.prevFree = false)
      (head : ∀ other ∈ after.head?, other.free = false) :
      ReleaseCase heap layout (addressAfter before) chunk.size
        (some (kfreeAlone heap (addressAfter before) (addressAfter before + chunk.size)))
  | prev {before after : List Chunk} {prev chunk : Chunk}
      (split : layout.chunks = before ++ [prev, chunk] ++ after)
      (free : prev.free = true) (used : chunk.free = false)
      (prevFree : chunk.prevFree = true)
      (head : ∀ other ∈ after.head?, other.free = false) :
      ReleaseCase heap layout (addressAfter before + prev.size) chunk.size
        (some (kfreePrev heap (addressAfter before + prev.size)
          (addressAfter before + prev.size + chunk.size)))
  | next {before after : List Chunk} {chunk next : Chunk}
      (split : layout.chunks = before ++ [chunk, next] ++ after)
      (used : chunk.free = false) (prevFree : chunk.prevFree = false)
      (free : next.free = true) :
      ReleaseCase heap layout (addressAfter before) chunk.size
        (kfreeNext heap (addressAfter before) (addressAfter before + chunk.size))
  | both {before after : List Chunk} {prev chunk next : Chunk}
      (split : layout.chunks = before ++ [prev, chunk, next] ++ after)
      (freePrev : prev.free = true) (used : chunk.free = false)
      (prevFree : chunk.prevFree = true) (freeNext : next.free = true) :
      ReleaseCase heap layout (addressAfter before + prev.size) chunk.size
        (kfreeBoth heap (addressAfter before + prev.size)
          (addressAfter before + prev.size + chunk.size))

/-- Where `coalesce_with_next` says so, there is a next chunk and it is free. -/
theorem exists_next {chunks : List Chunk}
    (hnext : (chunks.head?.map Chunk.free).getD false = true) :
    ∃ next after, chunks = next :: after ∧ next.free = true := by
  cases chunks with
  | nil => simp at hnext
  | cons next after => exact ⟨next, after, rfl, hnext⟩

/-- The release of a chunk, by whether the chunks before and after it are free. -/
def kfreeChunk (heap : Heap) (toFree nextAddr : ℕ) : Bool → Bool → Option Heap
  | false, false => some (kfreeAlone heap toFree nextAddr)
  | true, false => some (kfreePrev heap toFree nextAddr)
  | false, true => kfreeNext heap toFree nextAddr
  | true, true => kfreeBoth heap toFree nextAddr

theorem kfree_cases (hrepresents : heap.Represents layout) {address size : ℕ}
    (hblock : (address, size) ∈ usedBlocks heapStart layout.chunks) :
    ReleaseCase heap layout address size (kfree heap (address + 8)) := by
  obtain ⟨chunk, hchunk, hused, rfl⟩ := mem_usedBlocks.mp hblock
  obtain ⟨before, after, hsplit, haddress⟩ := exists_split_of_mem hchunk
  obtain rfl : address = addressAfter before := haddress
  have hchunks : layout.chunks = before ++ [chunk] ++ after := by simp [hsplit]
  obtain ⟨hholds, htiling, hflags, -, -⟩ := hrepresents.parts hchunks
  have hlt := heapEnd_lt
  have hsize : 32 ≤ chunk.size := (layout.tiling.size_of_mem hchunk).2
  have hmetadata := hrepresents.metadata hchunk
  have hend : addressAfter before + chunk.size ≤ heapEnd := htiling.end_le
  have hstart : heapStart ≤ addressAfter before := Nat.le_add_right _ _
  have hin : isInHeapBounds (addressAfter before + 8) = true :=
    isInHeapBounds_iff.mpr ⟨by omega, by omega⟩
  have hsub : sub64 (addressAfter before + 8) wordSize = addressAfter before := by
    rw [wordSize, sub64_of_le (by omega) (by omega)]
    omega
  have hunfold : kfree heap (addressAfter before + 8) =
      kfreeChunk heap (addressAfter before) (addressAfter before + chunk.size) chunk.prevFree
        (isInHeapBounds (addressAfter before + chunk.size) &&
          getFlag heap (addressAfter before + chunk.size) flagIsFree) := by
    simp only [kfree, hin, hsub, getFlag_isFree hmetadata, hused,
      getSz_eq hmetadata, wrap64_chunkEnd hend, getFlag_isPrevFree hmetadata]
    rfl
  rw [hunfold, coalesceWithNext_eq hholds htiling]
  cases hprevFree : chunk.prevFree with
  | false =>
      cases hnext : (after.head?.map Chunk.free).getD false with
      | false =>
          apply ReleaseCase.alone hchunks hused hprevFree
          intro other hother
          simpa [Option.mem_def.mp hother] using hnext
      | true =>
          obtain ⟨next, after, rfl, hfreeNext⟩ := exists_next hnext
          have hchunks' : layout.chunks = before ++ [chunk, next] ++ after := by
            simp [hchunks]
          exact ReleaseCase.next hchunks' hused hprevFree hfreeNext
  | true =>
      obtain ⟨before, prev, rfl, hfree⟩ := exists_prev hflags hprevFree
      have haddress' : addressAfter (before ++ [prev]) =
          addressAfter before + prev.size := by
        simp [addressAfter_append]
      rw [haddress']
      cases hnext : (after.head?.map Chunk.free).getD false with
      | false =>
          have hchunks' : layout.chunks = before ++ [prev, chunk] ++ after := by
            simp [hchunks]
          apply ReleaseCase.prev hchunks' hfree hused hprevFree
          intro other hother
          simpa [Option.mem_def.mp hother] using hnext
      | true =>
          obtain ⟨next, after, rfl, hfreeNext⟩ := exists_next hnext
          have hchunks' : layout.chunks = before ++ [prev, chunk, next] ++ after := by
            simp [hchunks]
          exact ReleaseCase.both hchunks' hfree hused hprevFree hfreeNext

/-- Releasing a used block succeeds in each of the four cases. -/
theorem kfree_spec (hrepresents : heap.Represents layout) {address size : ℕ}
    (hblock : (address, size) ∈ usedBlocks heapStart layout.chunks) :
    ∃ heap' layout', kfree heap (address + 8) = some heap' ∧
      Releases (address, size) heap heap' layout layout' := by
  have hcase := kfree_cases hrepresents hblock
  generalize kfree heap (address + 8) = result at hcase ⊢
  cases hcase with
  | alone hchunks hused hprevFree hhead =>
      obtain ⟨layout', hreleases⟩ :=
        releases_alone hrepresents hchunks hused hprevFree hhead
      exact ⟨_, layout', rfl, hreleases⟩
  | prev hchunks hfree hused _ hhead =>
      obtain ⟨layout', hreleases⟩ := releases_prev hrepresents hchunks hfree hused hhead
      exact ⟨_, layout', rfl, hreleases⟩
  | next hchunks hused hprevFree hfree =>
      exact releases_next hrepresents hchunks hused hprevFree hfree
  | both hchunks hprevFree hused _ hfree =>
      exact releases_both hrepresents hchunks hprevFree hused hfree

end Release

/-! ## Allocation -/

theorem alignSz_eq {sz : ℕ} (hsz : sz + 7 < 2 ^ 64) : alignSz sz = (sz + 7) / 8 * 8 := by
  have hwrap : wrap64 (sz + (heapAlignment - 1)) = sz + 7 := wrap64_of_lt hsz
  rw [alignSz, hwrap]
  exact and_chunkSizeMask hsz

theorem freeChunkMinSz_eq : freeChunkMinSz = 32 := by decide

/-- A request that fits the heap gets a chunk with room for the metadata word. -/
theorem allocSize_spec {sz : ℕ} (hsz : sz ≤ heapSize) :
    32 ≤ allocSize sz ∧ allocSize sz % 8 = 0 ∧ sz + 8 ≤ allocSize sz ∧
      allocSize sz ≤ heapSize + 32 := by
  unfold heapSize at hsz ⊢
  have hwrap : wrap64 (sz + wordSize) = sz + 8 :=
    wrap64_of_lt (by unfold wordSize; omega)
  rw [allocSize, freeChunkMinSz_eq, hwrap, alignSz_eq (by omega)]
  split <;> omega

/-- The search visits the freelist in order and stops at the first chunk that
fits. -/
theorem kmallocSearch_eq {heap : Heap} {allocSz fuel prev head : ℕ} {nodes : List ℕ}
    (hsegment : Segment 8 heap.memory prev head nodes 0)
    (hpositive : ∀ node ∈ nodes, 0 < node) (hfuel : nodes.length ≤ fuel) :
    kmallocSearch heap allocSz fuel head =
      some ((nodes.find? (fits heap allocSz)).getD 0) := by
  induction nodes generalizing fuel prev head with
  | nil =>
      have hhead : head = 0 := hsegment
      cases fuel <;> simp [kmallocSearch, hhead]
  | cons node nodes ih =>
      obtain ⟨rfl, -, hrest⟩ := hsegment
      have hnode := hpositive head (by simp)
      have hne : head ≠ 0 := by omega
      cases fuel with
      | zero => simp at hfuel
      | succ fuel =>
          cases hfits : fits heap allocSz head with
          | true => simp [kmallocSearch, hfits]
          | false =>
              have hih := ih hrest (fun other hother => hpositive other (by simp [hother]))
                (by simpa using hfuel)
              rw [kmallocSearch, if_neg (by simp [hfits, hne]),
                List.find?_cons_of_neg (by simp [hfits])]
              exact hih

theorem fits_eq {heap : Heap} {allocSz address : ℕ} {chunk : Chunk}
    (hmetadata : Metadata (heap.load address) chunk)
    (halloc : allocSz ≤ heapSize + 32) :
    fits heap allocSz address =
      decide (chunk.size = allocSz ∨ allocSz + 32 ≤ chunk.size) := by
  have hwrap : wrap64 (allocSz + 32) = allocSz + 32 :=
    wrap64_of_lt (by unfold heapSize at halloc; omega)
  rw [fits, getSz_eq hmetadata, freeChunkMinSz_eq, hwrap]

/-- What taking the block `block` does. -/
structure Takes (block : ℕ × ℕ) (heap heap' : Heap) (layout layout' : Layout) :
    Prop where
  represents : heap'.Represents layout'
  used : (usedBlocks heapStart layout'.chunks).Perm
    (block :: usedBlocks heapStart layout.chunks)
  kept : PayloadsKept (usedBlocks heapStart layout.chunks) heap heap'

section Allocation

variable {heap : Heap} {layout : Layout} {sz : ℕ}

theorem kmalloc_eq_none (hrepresents : heap.Represents layout)
    (hfind : layout.freelist.find? (fits heap (allocSize sz)) = none) :
    kmalloc heap sz = none := by
  have hlinked := hrepresents.linked
  have hsearch := @kmallocSearch_eq heap (allocSize sz) maxChunks 0 heap.freelistHead
    layout.freelist hlinked.segment (fun node hnode => (hlinked.bounds node hnode).1)
      layout.length_le
  rw [hfind] at hsearch
  simp [kmalloc, hsearch]

/-- Taking a free chunk off the freelist and writing into it keeps all payloads. -/
theorem payloadsKept_of_taken {heap heap₁ heap' : Heap} {before after : List Chunk}
    {chunk : Chunk} {nodes : List ℕ} (hfree : chunk.free = true)
    (htiling : Tiling (before ++ [chunk] ++ after))
    (hnodes : ∀ node ∈ nodes,
      node ∈ freeAddresses heapStart (before ++ [chunk] ++ after))
    (hremoved : ∀ target, (∀ node ∈ nodes, Outside 8 target node) →
      heap₁.memory target = heap.memory target)
    (hframe : Frame (addressAfter before) (addressAfter before + chunk.size + 8) nodes
      heap₁ heap') :
    PayloadsKept (usedBlocks heapStart (before ++ [chunk] ++ after)) heap heap' := by
  have hboth : Frame (addressAfter before) (addressAfter before + chunk.size + 8) nodes
      heap heap' := by
    intro target htarget houtside
    rw [hframe target htarget houtside, hremoved target houtside]
  have hkept := hboth.payloadsKept (by simp) htiling hnodes
  rw [usedBlocks_of_free before after chunk hfree]
  simpa using hkept

theorem takes_whole {heap heap₁ : Heap} {before after : List Chunk} {chunk : Chunk}
    {left right : List ℕ}
    (hchunks : layout.chunks = before ++ [chunk] ++ after)
    (hfreelist : layout.freelist = left ++ addressAfter before :: right)
    (hfree : chunk.free = true)
    (hholds : heap₁.Holds (before ++ [chunk] ++ after) (left ++ right))
    (hremoved : ∀ target, (∀ node ∈ left ++ right, Outside 8 target node) →
      heap₁.memory target = heap.memory target) :
    ∃ layout', Takes (addressAfter before, chunk.size) heap
      (markUsed (kmallocWhole heap₁ (addressAfter before) chunk.size)
        (addressAfter before) chunk.size) layout layout' := by
  have htiling := layout.tiling
  have hflags := layout.flags
  have hexact := layout.exact
  have hnodes := fun node (hnode : node ∈ left ++ right) =>
    layout.mem_free_others hfreelist hnode
  rw [hchunks] at htiling hflags hexact hnodes
  rw [hfreelist] at hexact
  obtain ⟨hholds', hframe⟩ := kmallocWhole_holds hholds htiling hnodes
  have htiling' : Tiling (before ++ [{ chunk with free := false }] ++
      withPrevFree false after) :=
    Tiling.withPrevFree (htiling.set rfl)
  have hflags' : FlagsOk false (before ++ [{ chunk with free := false }] ++
      withPrevFree false after) := by
    apply hflags.replace
    rintro ⟨hprev, -, hafter⟩
    exact ⟨hprev, by simp, hafter.withPrevFree (by simp)⟩
  have hexact' : (left ++ right).Perm (freeAddresses heapStart
      (before ++ [{ chunk with free := false }] ++ withPrevFree false after)) := by
    rw [freeAddresses_append_withPrevFree]
    simp only [freeAddresses_replace, freeAddresses_singleton, hfree, span_cons] at hexact ⊢
    simpa using perm_of_middle (by simpa using hexact)
  refine ⟨⟨_, _, htiling', hflags', hexact'⟩, hholds', ?_, ?_⟩
  · simp only [hchunks, usedBlocks_replace, usedBlocks_cons, usedBlocks_withPrevFree,
      hfree, span_cons]
    simp
  · rw [hchunks]
    exact payloadsKept_of_taken hfree htiling hnodes hremoved hframe

theorem takes_split {heap heap₁ : Heap} {before after : List Chunk} {chunk : Chunk}
    {left right : List ℕ} {allocSz : ℕ}
    (hchunks : layout.chunks = before ++ [chunk] ++ after)
    (hfreelist : layout.freelist = left ++ addressAfter before :: right)
    (hfree : chunk.free = true)
    (halloc : 32 ≤ allocSz ∧ allocSz % 8 = 0 ∧ allocSz + 32 ≤ chunk.size)
    (hholds : heap₁.Holds (before ++ [chunk] ++ after) (left ++ right))
    (hremoved : ∀ target, (∀ node ∈ left ++ right, Outside 8 target node) →
      heap₁.memory target = heap.memory target) :
    ∃ layout', Takes (addressAfter before, allocSz) heap
      (markUsed (kmallocSplit heap₁ (addressAfter before) chunk.size allocSz)
        (addressAfter before) allocSz) layout layout' := by
  have htiling := layout.tiling
  have hflags := layout.flags
  have hexact := layout.exact
  have hnodup := layout.nodup
  have hnodes := fun node (hnode : node ∈ left ++ right) =>
    layout.mem_free_others hfreelist hnode
  rw [hchunks] at htiling hflags hexact hnodes
  rw [hfreelist] at hexact hnodup
  have hfresh : addressAfter before ∉ left ++ right :=
    (List.nodup_middle.mp hnodup).notMem
  have hsizeOk := htiling.sizes chunk (by simp)
  unfold SizeOk at hsizeOk
  obtain ⟨hholds', hframe⟩ := kmallocSplit_holds hholds htiling hnodes hfresh halloc
  have htiling' : Tiling (before ++ [{ chunk with size := allocSz, free := false },
      ⟨chunk.size - allocSz, true, false⟩] ++ after) := by
    apply htiling.replace
    · intro other hother
      simp only [List.mem_cons, List.not_mem_nil, or_false] at hother
      rcases hother with rfl | rfl
      · exact ⟨halloc.2.1, halloc.1⟩
      · exact ⟨by simp only; omega, by simp only; omega⟩
    · simp only [span_cons, span_nil]
      omega
  have hflags' : FlagsOk false (before ++ [{ chunk with size := allocSz, free := false },
      ⟨chunk.size - allocSz, true, false⟩] ++ after) := by
    apply hflags.replace
    rintro ⟨hprev, -, hafter⟩
    rw [hfree] at hafter
    exact ⟨hprev, by simp, rfl, by simp, hafter⟩
  have hend : addressAfter before + (allocSz + (chunk.size - allocSz)) =
      addressAfter before + chunk.size := by omega
  have hexact' : ((addressAfter before + allocSz) :: (left ++ right)).Perm
      (freeAddresses heapStart (before ++ [{ chunk with size := allocSz, free := false },
        ⟨chunk.size - allocSz, true, false⟩] ++ after)) := by
    simp only [freeAddresses_replace, freeAddresses_cons, freeAddresses_nil, hfree,
      span_cons, span_nil, Nat.add_zero, hend] at hexact ⊢
    have hmiddle := perm_of_middle (by simpa using hexact)
    simpa using (hmiddle.cons (addressAfter before + allocSz)).trans
      List.perm_middle.symm
  refine ⟨⟨_, _, htiling', hflags', hexact'⟩, hholds', ?_, ?_⟩
  · simp only [hchunks, usedBlocks_replace, usedBlocks_cons, usedBlocks_nil, hfree,
      span_cons, span_nil, Nat.add_zero, hend]
    simp
  · rw [hchunks]
    exact payloadsKept_of_taken hfree htiling hnodes hremoved hframe

/-- The first chunk of the freelist that fits is taken. -/
theorem kmalloc_eq_some (hrepresents : heap.Represents layout) (hsz : sz ≤ heapSize)
    {address : ℕ}
    (hfind : layout.freelist.find? (fits heap (allocSize sz)) = some address) :
    ∃ heap' layout', kmalloc heap sz = some (heap', address + 8) ∧
      Takes (address, allocSize sz) heap heap' layout layout' := by
  have halloc := allocSize_spec hsz
  have hlinked := hrepresents.linked
  have hsearch := @kmallocSearch_eq heap (allocSize sz) maxChunks 0 heap.freelistHead
    layout.freelist hlinked.segment (fun node hnode => (hlinked.bounds node hnode).1)
      layout.length_le
  rw [hfind, Option.getD_some] at hsearch
  have hmem := List.mem_of_find?_eq_some hfind
  have hfits := List.find?_some hfind
  obtain ⟨chunk, hchunk, hfree⟩ := mem_addressesOf.mp (layout.mem_free hmem)
  have hmetadata := Heap.Holds.metadata hrepresents hchunk
  rw [fits_eq hmetadata halloc.2.2.2, decide_eq_true_iff] at hfits
  obtain ⟨before, after, hsplit, haddress⟩ := exists_split_of_mem hchunk
  obtain rfl : address = addressAfter before := haddress
  have hchunks : layout.chunks = before ++ [chunk] ++ after := by simp [hsplit]
  obtain ⟨left, right, hfreelist⟩ := List.append_of_mem hmem
  have hholds : heap.Holds layout.chunks (left ++ addressAfter before :: right) :=
    hfreelist ▸ hrepresents
  obtain ⟨heap₁, hremove, hholds₁, houtside⟩ := hholds.removeNode layout.tiling
    (fun _ => layout.mem_free_others hfreelist)
  rw [hchunks] at hholds₁
  have hpositive := (hlinked.bounds _ hmem).1
  have hwrap : wrap64 (addressAfter before + wordSize) = addressAfter before + 8 := by
    have htiling := layout.tiling
    rw [hchunks] at htiling
    have hend : addressAfter before + chunk.size ≤ heapEnd := htiling.end_le
    have hsize : 32 ≤ chunk.size := (layout.tiling.size_of_mem hchunk).2
    have hlt := heapEnd_lt
    exact wrap64_of_lt (by unfold wordSize; omega)
  have hunfold : kmalloc heap sz = some
      (markUsed (if chunk.size = allocSize sz then
          kmallocWhole heap₁ (addressAfter before) chunk.size
        else kmallocSplit heap₁ (addressAfter before) chunk.size (allocSize sz))
          (addressAfter before) (allocSize sz), addressAfter before + 8) := by
    simp only [kmalloc, hsearch, Option.bind_eq_bind, Option.bind_some, hremove,
      getSz_eq hmetadata, hwrap, if_neg (show ¬addressAfter before = 0 by omega)]
    rfl
  rw [hunfold]
  by_cases hwhole : chunk.size = allocSize sz
  · obtain ⟨layout', htakes⟩ := takes_whole hchunks hfreelist hfree hholds₁ houtside
    rw [if_pos hwhole, ← hwhole]
    exact ⟨_, layout', rfl, htakes⟩
  · obtain ⟨layout', htakes⟩ := takes_split hchunks hfreelist hfree
      ⟨halloc.1, halloc.2.1, hfits.resolve_left hwhole⟩ hholds₁ houtside
    rw [if_neg hwhole]
    exact ⟨_, layout', rfl, htakes⟩

end Allocation

end Flurry.Kmalloc
