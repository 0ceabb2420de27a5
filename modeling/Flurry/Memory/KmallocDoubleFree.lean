import Flurry.Memory.KmallocRequests

/-!
# Releasing a block twice

`kfree` takes the free flag in the header in front of the pointer as a sign that the
block was released before.  The flag is set only where the released chunk stays a
chunk of its own.  If the chunk before it is free, that chunk takes it in, and the
old header stays in the middle of the free bytes as it was.
-/

namespace Flurry.Kmalloc

open ByteMemory BitField CellLayout DoublyLinked

/-- The assertion at which `kfree` stops before it changes anything. -/
def kfreeAssert (heap : Heap) (ptr : ℕ) : Option String :=
  if !isInHeapBounds ptr then some "kmalloc: free address out of heap bounds"
  else if getFlag heap (sub64 ptr wordSize) flagIsFree then some "kmalloc: double free"
  else none

theorem kfree_of_kfreeAssert {heap : Heap} {ptr : ℕ} {message : String}
    (hassert : kfreeAssert heap ptr = some message) : kfree heap ptr = none := by
  unfold kfreeAssert at hassert
  unfold kfree
  split at hassert
  · rename_i hout
    rw [if_pos hout]
  · rename_i hin
    split at hassert
    · rename_i hfree
      rw [if_neg hin]
      exact if_pos hfree
    · exact absurd hassert (by simp)

/-! ## The header of a released chunk -/

section Header

variable {heap : Heap} {address target newSz : ℕ}

theorem load_setSz_placeFooter (hlower : address + 8 ≤ target)
    (hupper : target + 16 ≤ address + newSz) (hend : address + newSz ≤ heapEnd) :
    (placeFooter (setSz heap address newSz) address newSz).load target =
      heap.load target := by
  rw [placeFooter_eq _ (by omega) hend]
  exact (load64_store64_of_disjoint (by omega)).trans
    (load64_store64_of_disjoint (by omega))

theorem load_markPrevFree (hbefore : target + 8 ≤ address) :
    (markPrevFree heap address).load target = heap.load target := by
  unfold markPrevFree
  split
  · exact load64_store64_of_disjoint (by omega)
  · rfl

/-- Taking a node off the freelist leaves a word alone that is not part of a link. -/
theorem load_freelistRemoveNode {heap' : Heap} {chunks : List Chunk}
    {left right : List ℕ} {node : ℕ} (hholds : heap.Holds chunks (left ++ node :: right))
    (hrun : freelistRemoveNode heap node = some heap')
    (houtside : ∀ other ∈ left ++ right, ∀ byte, target ≤ byte → byte < target + 8 →
      Outside 8 byte other) :
    heap'.load target = heap.load target := by
  have hpositive := (hholds.linked.bounds node (by simp)).1
  have hmemory : heap'.memory = unlink 8 heap.memory node := by
    rw [freelistRemoveNode_eq heap hpositive, Option.some.injEq] at hrun
    rw [← hrun]
  rw [Heap.load, Heap.load, hmemory]
  apply load64_congr
  intro byte hlower hupper
  exact (unlink_spec hholds.linked).2 byte fun other hother =>
    houtside other hother byte hlower hupper

end Header

section Release

variable {heap heap' : Heap} {layout : Layout} {before after : List Chunk}
variable {prev chunk next : Chunk}

theorem kfreePrev_header (hrepresents : heap.Represents layout)
    (hchunks : layout.chunks = before ++ [prev, chunk] ++ after)
    (hfree : prev.free = true) :
    (kfreePrev heap (addressAfter before + prev.size)
        (addressAfter before + prev.size + chunk.size)).load
          (addressAfter before + prev.size) =
      heap.load (addressAfter before + prev.size) := by
  obtain ⟨hholds, htiling, -, -, -⟩ := hrepresents.parts hchunks
  have hprevSize := (htiling.sizes prev (by simp)).2
  have hsize := (htiling.sizes chunk (by simp)).2
  have hend := htiling.end_le
  simp only [span_cons, span_nil] at hend
  rw [kfreePrev_eq hholds htiling hfree, load_markPrevFree (by omega),
    load_setSz_placeFooter (by omega) (by omega) (by omega)]

theorem kfreeBoth_header (hrepresents : heap.Represents layout)
    (hchunks : layout.chunks = before ++ [prev, chunk, next] ++ after)
    (hfree : prev.free = true) (hused : chunk.free = false)
    (hnext : next.free = true)
    (hrun : kfreeBoth heap (addressAfter before + prev.size)
      (addressAfter before + prev.size + chunk.size) = some heap') :
    heap'.load (addressAfter before + prev.size) =
      heap.load (addressAfter before + prev.size) := by
  obtain ⟨hholds, htiling, -, -, hnodes⟩ := hrepresents.parts hchunks
  have hnextPlace : (addressAfter before + prev.size + chunk.size, next) ∈
      place Chunk.size heapStart layout.chunks := by simp [hchunks, addressAfter]
  obtain ⟨left, right, hfreelist⟩ := layout.exists_split_freelist hnextPlace hnext
  rw [hfreelist] at hholds hnodes
  have hprevSize := (htiling.sizes prev (by simp)).2
  have hsize := (htiling.sizes chunk (by simp)).2
  have hnextSize := (htiling.sizes next (by simp)).2
  have hend := htiling.end_le
  simp only [span_cons, span_nil] at hend
  have hplace : (addressAfter before + prev.size, chunk) ∈
      place Chunk.size heapStart (before ++ [prev, chunk, next] ++ after) := by
    simp [addressAfter]
  obtain ⟨hgrown, -, -⟩ := hholds.grow htiling hnodes
    (show prev.size + chunk.size + next.size = span Chunk.size [prev, chunk, next] by
      simp [Nat.add_assoc])
  rw [kfreeBoth_eq hholds htiling hfree] at hrun
  refine (load_freelistRemoveNode hgrown hrun ?_).trans
    (load_setSz_placeFooter (by omega) (by omega) (by omega))
  -- the links that change are those of free chunks, and this chunk was in use
  intro other hother byte hlower hupper
  apply htiling.outside_of_used hplace hused _ hlower (by omega)
  exact hnodes _ (mem_of_mem_others hother)

theorem kfreeNext_header (hrepresents : heap.Represents layout)
    (hchunks : layout.chunks = before ++ [chunk, next] ++ after)
    (hused : chunk.free = false) (hnext : next.free = true)
    (hrun : kfreeNext heap (addressAfter before) (addressAfter before + chunk.size) =
      some heap') :
    getFlag heap' (addressAfter before) flagIsFree = true := by
  obtain ⟨hholds, htiling, -, -, hnodes⟩ := hrepresents.parts hchunks
  have hnodup := layout.nodup
  have hplace : (addressAfter before + chunk.size, next) ∈
      place Chunk.size heapStart layout.chunks := by simp [hchunks, addressAfter]
  obtain ⟨left, right, hfreelist⟩ := layout.exists_split_freelist hplace hnext
  rw [hfreelist] at hholds hnodes hnodup
  obtain ⟨heap₁, hrun₁, hheld, -⟩ :=
    kfreeNext_holds hholds htiling hnodes hnodup hused hnext
  obtain rfl := Option.some.inj (hrun₁.symm.trans hrun)
  exact getFlag_isFree (hheld.metadata (mem_place_middle before after _))

/-- The header of a released block carries the free flag exactly if the chunk before it
was in use. -/
theorem kfree_header {address size : ℕ} (hrepresents : heap.Represents layout)
    (hblock : (address, size) ∈ usedBlocks heapStart layout.chunks)
    (hrun : kfree heap (address + 8) = some heap') :
    getFlag heap' address flagIsFree = !getFlag heap address flagIsPrevFree := by
  have hmetadata : ∀ {address chunk},
      (address, chunk) ∈ place Chunk.size heapStart layout.chunks →
        Metadata (heap.load address) chunk :=
    fun hchunk => hrepresents.metadata hchunk
  have hcase := kfree_cases hrepresents hblock
  generalize hresult : kfree heap (address + 8) = result at hcase
  rw [hrun] at hresult
  cases hcase with
  | @alone before after chunk hchunks hused hprevFree hhead =>
      obtain rfl := Option.some.inj hresult
      obtain ⟨hholds, htiling, -, -, hnodes⟩ := hrepresents.parts hchunks
      have hplace : (addressAfter before, chunk) ∈
          place Chunk.size heapStart layout.chunks := by simp [hchunks, addressAfter]
      rw [getFlag_isPrevFree (hmetadata hplace), hprevFree]
      obtain ⟨hheld, -⟩ := kfreeAlone_holds hholds htiling hnodes hused
      exact getFlag_isFree (hheld.metadata (mem_place_middle before _ _))
  | @prev before after prev chunk hchunks hfree hused hprevFree hhead =>
      obtain rfl := Option.some.inj hresult
      have hplace : (addressAfter before + prev.size, chunk) ∈
          place Chunk.size heapStart layout.chunks := by simp [hchunks, addressAfter]
      rw [getFlag_isPrevFree (hmetadata hplace), hprevFree, Bool.not_true, getFlag,
        kfreePrev_header hrepresents hchunks hfree, ← getFlag,
        getFlag_isFree (hmetadata hplace), hused]
  | @next before after chunk next hchunks hused hprevFree hfree =>
      have hplace : (addressAfter before, chunk) ∈
          place Chunk.size heapStart layout.chunks := by simp [hchunks, addressAfter]
      rw [getFlag_isPrevFree (hmetadata hplace), hprevFree,
        kfreeNext_header hrepresents hchunks hused hfree hresult.symm, Bool.not_false]
  | @both before after prev chunk next hchunks hfree hused hprevFree hnext =>
      have hplace : (addressAfter before + prev.size, chunk) ∈
          place Chunk.size heapStart layout.chunks := by simp [hchunks, addressAfter]
      rw [getFlag_isPrevFree (hmetadata hplace), hprevFree, Bool.not_true, getFlag,
        kfreeBoth_header hrepresents hchunks hfree hused hnext hresult.symm, ← getFlag,
        getFlag_isFree (hmetadata hplace), hused]

end Release

/-- The second of two releases of a block stops at the assertion for double frees
exactly if the chunk before the block is not free. -/
theorem double_free_caught_iff {memory : Memory} {state : HeapState} {block : Block}
    (hreachable : HeapReachable memory state) (hblock : block ∈ state.live) :
    ∃ heap', kfree state.heap block.ptr = some heap' ∧
      (kfreeAssert heap' block.ptr = some "kmalloc: double free" ↔
        getFlag state.heap (block.ptr - wordSize) flagIsPrevFree = false) := by
  obtain ⟨layout, htracks⟩ := hreachable.tracks
  obtain ⟨⟨address, size⟩, hused, hptr, -⟩ := htracks.fits block hblock
  obtain ⟨heap', layout', hrun, -⟩ := kfree_spec htracks.represents hused
  have hheader := kfree_header htracks.represents hused hrun
  obtain ⟨chunk, hchunk, -, rfl⟩ := mem_usedBlocks.mp hused
  have hsize := (layout.tiling.size_of_mem hchunk).2
  have hbounds := layout.used_bounds hused
  have hlt := heapEnd_lt
  simp only at hptr hsize hbounds
  have hin : isInHeapBounds block.ptr = true :=
    isInHeapBounds_iff.mpr ⟨by omega, by omega⟩
  have hsub : sub64 block.ptr wordSize = address := by
    rw [wordSize, sub64_of_le (by omega) (by omega)]
    omega
  have haddress : block.ptr - wordSize = address := by
    rw [wordSize]
    omega
  refine ⟨heap', hptr ▸ hrun, ?_⟩
  rw [kfreeAssert, hin, hsub, haddress, hheader]
  cases getFlag state.heap address flagIsPrevFree <;> simp

/-- The only block of a heap has no free chunk before it. -/
theorem double_free_caught_one_block :
    ∃ heap heap', HeapReachable (fun _ => 0) ⟨heap, [⟨heapStart + 8, 100⟩]⟩ ∧
      kfree heap (heapStart + 8) = some heap' ∧
      kfreeAssert heap' (heapStart + 8) = some "kmalloc: double free" := by
  obtain ⟨heap, hreachable⟩ := reachable_after_kmalloc fun _ => 0
  obtain ⟨heap', hrun, hcaught⟩ := double_free_caught_iff hreachable List.mem_cons_self
  obtain ⟨layout, htracks⟩ := hreachable.tracks
  refine ⟨heap, heap', hreachable, hrun, hcaught.mpr ?_⟩
  exact htracks.represents.wellFormed.first

/-- A block of 112 bytes between two free chunks. -/
def holeLayout : Layout where
  chunks := [⟨112, true, false⟩, ⟨112, false, true⟩, ⟨heapSize - 224, true, false⟩]
  freelist := [heapStart, heapStart + 224]
  tiling := ⟨by simp [SizeOk, heapSize], by simp [heapSize]⟩
  flags := by simp [FlagsOk]
  exact := List.Perm.refl _

/-- Of two neighbouring blocks the first is released, then the second twice.  The second
time `kfree` does not notice. -/
theorem double_free_not_caught :
    ∃ state heap', HeapReachable (fun _ => 0) state ∧
      ⟨heapStart + 120, 100⟩ ∈ state.live ∧
      kfree state.heap (heapStart + 120) = some heap' ∧
      kfreeAssert heap' (heapStart + 120) = none := by
  obtain ⟨heap₂, hreachable₂, layout₂, htracks₂, hchunks₂⟩ := reachable_two_blocks
  have hfirst : (heapStart, 112) ∈ usedBlocks heapStart layout₂.chunks := by
    rw [hchunks₂]
    decide
  obtain ⟨heap, layout, hrun, hreleases⟩ := kfree_spec htracks₂.represents hfirst
  have hreachable : HeapReachable (fun _ => 0) ⟨heap, [⟨heapStart + 120, 100⟩]⟩ := by
    have hallowed : (HeapCall.kfree (heapStart + 8)).Allowed
        ⟨heap₂, [⟨heapStart + 120, 100⟩, ⟨heapStart + 8, 100⟩]⟩ :=
      ⟨⟨heapStart + 8, 100⟩, by simp, rfl⟩
    apply hreachable₂.step hallowed
    simp [HeapCall.run, hrun]
  have hused : (usedBlocks heapStart layout.chunks).Perm
      (usedBlocks heapStart holeLayout.chunks) := by
    have hperm := hreleases.used.symm
    rw [hchunks₂] at hperm
    exact hperm.cons_inv
  have hchunks : layout.chunks = holeLayout.chunks := Layout.chunks_eq hused
  have hsecond : (heapStart + 112, 112) ∈ usedBlocks heapStart layout.chunks :=
    hused.mem_iff.mpr List.mem_cons_self
  obtain ⟨heap', -, hrun', -⟩ := kfree_spec hreleases.represents hsecond
  have hplace : (heapStart + 112, (⟨112, false, true⟩ : Chunk)) ∈
      place Chunk.size heapStart layout.chunks := by
    rw [hchunks]
    exact List.mem_cons_of_mem _ List.mem_cons_self
  have hprevFree : getFlag heap (heapStart + 112) flagIsPrevFree = true :=
    getFlag_isPrevFree (hreleases.represents.metadata hplace)
  have hheader := kfree_header hreleases.represents hsecond hrun'
  rw [hprevFree] at hheader
  refine ⟨_, heap', hreachable, List.mem_cons_self, hrun', ?_⟩
  have hsub : sub64 (heapStart + 120) wordSize = heapStart + 112 := by decide
  have hin : isInHeapBounds (heapStart + 120) = true := by decide
  rw [kfreeAssert, hsub, hheader, hin]
  rfl

end Flurry.Kmalloc
