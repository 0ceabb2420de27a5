import Flurry.Core.BitField
import Flurry.Core.CellLayout
import Flurry.Core.DoublyLinked
import Flurry.Memory.Kmalloc

/-!
# Chunks in the bytes of the heap

A list of chunks describes the heap from its start to its end.  `Written` says
that memory holds the metadata of such a list, and the lemmas say how the small
writes of `kmalloc.c` change the list it holds: a write inside some neighbouring
chunks replaces those chunks, and a write to the links of free chunks changes
nothing.
-/

namespace Flurry.Kmalloc

open ByteMemory BitField CellLayout DoublyLinked

/-- What the metadata word of a chunk says. -/
structure Chunk where
  size : ℕ
  free : Bool
  prevFree : Bool
  deriving DecidableEq, Repr

/-! ## Metadata words -/

/-- The word encodes the chunk.  Bit 2 has no meaning. -/
structure Metadata (word : ℕ) (chunk : Chunk) : Prop where
  size : word / 8 * 8 = chunk.size
  free : word.testBit 0 = chunk.free
  prevFree : word.testBit 1 = chunk.prevFree

theorem chunkSizeMask_eq : chunkSizeMask = fieldMask 3 61 := by decide

theorem and_chunkSizeMask {word : ℕ} (hword : word < 2 ^ 64) :
    word &&& chunkSizeMask = word / 8 * 8 := by
  rw [chunkSizeMask_eq]
  exact and_fieldMask_eq_div hword

section Metadata

variable {word sz : ℕ} {chunk : Chunk}

/-- The word `set_sz` stores. -/
theorem metadata_setSz (hmetadata : Metadata word chunk) (hsz : sz < 2 ^ 64)
    (haligned : sz % 8 = 0) :
    Metadata ((word &&& complement64 chunkSizeMask) ||| (sz &&& chunkSizeMask))
      { chunk with size := sz } := by
  have hlow : word &&& complement64 chunkSizeMask = word % 2 ^ 3 := by
    rw [show complement64 chunkSizeMask = 2 ^ 3 - 1 by decide]
    exact Nat.and_two_pow_sub_one_eq_mod word 3
  have hhigh : sz &&& chunkSizeMask = sz := by
    rw [and_chunkSizeMask hsz]
    omega
  have hbit : ∀ bit < 3, (word % 2 ^ 3 ||| sz).testBit bit = word.testBit bit := by
    intro bit hbit
    have hsz' : sz.testBit bit = false := testBit_of_aligned haligned hbit
    rw [Nat.testBit_or, Nat.testBit_mod_two_pow, hsz', Bool.or_false,
      decide_eq_true hbit, Bool.true_and]
  have hdiv : (word % 2 ^ 3 ||| sz) / 2 ^ 3 = sz / 2 ^ 3 := by
    have hmod := Nat.mod_lt word (show 0 < 2 ^ 3 by omega)
    rw [← Nat.shiftRight_eq_div_pow, Nat.shiftRight_or_distrib,
      Nat.shiftRight_eq_div_pow, Nat.div_eq_of_lt hmod, Nat.zero_or,
      Nat.shiftRight_eq_div_pow]
  rw [hlow, hhigh]
  constructor
  · change (word % 2 ^ 3 ||| sz) / 2 ^ 3 * 8 = sz
    rw [hdiv]
    omega
  · rw [hbit 0 (by omega), hmetadata.free]
  · rw [hbit 1 (by omega), hmetadata.prevFree]

/-- Writes to the flag bits keep the size. -/
theorem metadata_of_div {word' : ℕ} {chunk' : Chunk} (hmetadata : Metadata word chunk)
    (hdiv : word' / 2 ^ 3 = word / 2 ^ 3) (hsize : chunk'.size = chunk.size)
    (hfree : word'.testBit 0 = chunk'.free)
    (hprevFree : word'.testBit 1 = chunk'.prevFree) : Metadata word' chunk' where
  size := by
    change word' / 2 ^ 3 * 8 = chunk'.size
    rw [hdiv, hsize]
    exact hmetadata.size
  free := hfree
  prevFree := hprevFree

theorem metadata_setFree (hmetadata : Metadata word chunk) :
    Metadata (word ||| flagIsFree) { chunk with free := true } := by
  change Metadata (word ||| 2 ^ 0) _
  refine metadata_of_div hmetadata (or_two_pow_div (by omega)) rfl ?_ ?_
  · rw [testBit_or_two_pow]
    simp
  · rw [testBit_or_two_pow, hmetadata.prevFree]
    simp

theorem metadata_setPrevFree (hmetadata : Metadata word chunk) :
    Metadata (word ||| flagIsPrevFree) { chunk with prevFree := true } := by
  change Metadata (word ||| 2 ^ 1) _
  refine metadata_of_div hmetadata (or_two_pow_div (by omega)) rfl ?_ ?_
  · rw [testBit_or_two_pow, hmetadata.free]
    simp
  · rw [testBit_or_two_pow]
    simp

theorem metadata_unsetFree (hmetadata : Metadata word chunk)
    (hword : word < 2 ^ 64) :
    Metadata (word &&& complement64 flagIsFree) { chunk with free := false } := by
  change Metadata (word &&& (2 ^ 64 - 1 - 2 ^ 0)) _
  refine metadata_of_div hmetadata (clear_div hword (by omega) (by omega)) rfl ?_ ?_
  · rw [testBit_clear hword (by omega)]
    simp
  · rw [testBit_clear hword (by omega), hmetadata.prevFree]
    simp

theorem metadata_unsetPrevFree (hmetadata : Metadata word chunk)
    (hword : word < 2 ^ 64) :
    Metadata (word &&& complement64 flagIsPrevFree) { chunk with prevFree := false } := by
  change Metadata (word &&& (2 ^ 64 - 1 - 2 ^ 1)) _
  refine metadata_of_div hmetadata (clear_div hword (by omega) (by omega)) rfl ?_ ?_
  · rw [testBit_clear hword (by omega), hmetadata.free]
    simp
  · rw [testBit_clear hword (by omega)]
    simp

end Metadata

/-! ## Memory that holds a list of chunks -/

/-- The metadata word of a placed chunk is right, and so is its footer if it is
free and not the last chunk of the heap. -/
structure ChunkWritten (memory : Memory) (address : ℕ) (chunk : Chunk) : Prop where
  metadata : Metadata (load64 memory address) chunk
  footer : chunk.free = true → address + chunk.size ≠ heapEnd →
    load64 memory (address + chunk.size - 8) = chunk.size

def Written (memory : Memory) (start : ℕ) (chunks : List Chunk) : Prop :=
  ∀ entry ∈ place Chunk.size start chunks, ChunkWritten memory entry.1 entry.2

/-- Sizes are multiples of 8 and leave room for the links and the footer. -/
def SizeOk (chunk : Chunk) : Prop := chunk.size % 8 = 0 ∧ 32 ≤ chunk.size

/-- The addresses of the free chunks. -/
def freeAddresses (start : ℕ) (chunks : List Chunk) : List ℕ :=
  addressesOf Chunk.size Chunk.free start chunks

section Written

variable {memory memory' : Memory} {start address : ℕ}
variable {before middle middle' after chunks : List Chunk} {chunk : Chunk}

theorem ChunkWritten.congr (hwritten : ChunkWritten memory address chunk)
    (hsize : 8 ≤ chunk.size)
    (hmetadata : ∀ target, address ≤ target → target < address + 8 →
      memory' target = memory target)
    (hfooter : chunk.free = true → ∀ target, address + chunk.size - 8 ≤ target →
      target < address + chunk.size → memory' target = memory target) :
    ChunkWritten memory' address chunk where
  metadata := by
    rw [load64_congr hmetadata]
    exact hwritten.metadata
  footer := by
    intro hfree hend
    have hsame : load64 memory' (address + chunk.size - 8) =
        load64 memory (address + chunk.size - 8) := by
      apply load64_congr
      intro target hlower hupper
      exact hfooter hfree target hlower (by omega)
    rw [hsame, hwritten.footer hfree hend]

theorem written_append :
    Written memory start (before ++ after) ↔
      Written memory start before ∧
        Written memory (start + span Chunk.size before) after := by
  simp only [Written, place_append, List.forall_mem_append]

theorem written_cons :
    Written memory start (chunk :: chunks) ↔
      ChunkWritten memory start chunk ∧
        Written memory (start + chunk.size) chunks := by
  simp only [Written, place_cons, List.forall_mem_cons]

theorem written_nil : Written memory start [] := by
  simp [Written, place]

/-- A list of chunks depends only on the bytes it covers. -/
theorem Written.congr (hwritten : Written memory start chunks)
    (hsizes : ∀ chunk ∈ chunks, SizeOk chunk)
    (hagree : ∀ target, start ≤ target → target < start + span Chunk.size chunks →
      memory' target = memory target) :
    Written memory' start chunks := by
  intro entry hentry
  have hbounds := mem_place_bounds hentry
  obtain ⟨left, right, rfl, -⟩ := exists_split_of_mem hentry
  have hsize := (hsizes entry.2 (by simp)).2
  apply (hwritten entry hentry).congr (by omega)
  · intro target hlower hupper
    exact hagree target (by omega) (by omega)
  · intro _ target hlower hupper
    exact hagree target (by omega) (by omega)

/-- A write inside neighbouring chunks replaces them by others of the same total
size. -/
theorem Written.replace
    (hwritten : Written memory start (before ++ middle ++ after))
    (hsizes : ∀ chunk ∈ before ++ middle ++ after, SizeOk chunk)
    (hspan : span Chunk.size middle' = span Chunk.size middle)
    (hmiddle : Written memory' (start + span Chunk.size before) middle')
    (hagree : ∀ target, (target < start + span Chunk.size before ∨
      start + span Chunk.size before + span Chunk.size middle ≤ target) →
        memory' target = memory target) :
    Written memory' start (before ++ middle' ++ after) := by
  rw [written_append, written_append] at hwritten ⊢
  obtain ⟨⟨hbefore, -⟩, hafter⟩ := hwritten
  refine ⟨⟨hbefore.congr ?_ ?_, hmiddle⟩, ?_⟩
  · intro chunk hchunk
    exact hsizes chunk (by simp [hchunk])
  · intro target _ hupper
    exact hagree target (Or.inl hupper)
  · rw [span_append, hspan, ← span_append]
    apply hafter.congr
    · intro chunk hchunk
      exact hsizes chunk (by simp [hchunk])
    · intro target hlower _
      rw [span_append] at hlower
      exact hagree target (Or.inr (by omega))

/-- Links at `node` lie between the metadata word and the footer of a chunk. -/
def Inside (start : ℕ) (chunks : List Chunk) (node : ℕ) : Prop :=
  ∃ entry ∈ place Chunk.size start chunks,
    entry.1 ≤ node ∧ node + 32 ≤ entry.1 + entry.2.size

theorem inside_of_mem {node : ℕ} (hsizes : ∀ chunk ∈ chunks, SizeOk chunk)
    (hnode : node ∈ freeAddresses start chunks) : Inside start chunks node := by
  obtain ⟨chunk, hchunk, -⟩ := mem_addressesOf.mp hnode
  obtain ⟨left, right, hsplit, -⟩ := exists_split_of_mem hchunk
  have hsize := (hsizes chunk (by simp [hsplit])).2
  exact ⟨(node, chunk), hchunk, le_refl node, by simp only; omega⟩

/-- Writes to links inside chunks leave the list alone. -/
theorem Written.links {nodes : List ℕ} (hwritten : Written memory start chunks)
    (hsizes : ∀ chunk ∈ chunks, SizeOk chunk)
    (hnodes : ∀ node ∈ nodes, Inside start chunks node)
    (hagree : ∀ target, (∀ node ∈ nodes, Outside 8 target node) →
      memory' target = memory target) :
    Written memory' start chunks := by
  intro entry hentry
  obtain ⟨left, right, hsplit, -⟩ := exists_split_of_mem hentry
  have hsize := (hsizes entry.2 (by simp [hsplit])).2
  have hapart : ∀ node ∈ nodes,
      (entry.1 ≤ node ∧ node + 32 ≤ entry.1 + entry.2.size) ∨
        node + 32 ≤ entry.1 ∨ entry.1 + entry.2.size ≤ node := by
    intro node hnode
    obtain ⟨other, hother, hlower, hupper⟩ := hnodes node hnode
    rcases eq_or_apart hother hentry with rfl | hleft | hright
    · exact Or.inl ⟨hlower, hupper⟩
    · exact Or.inr (Or.inl (by omega))
    · exact Or.inr (Or.inr (by omega))
  apply (hwritten entry hentry).congr (by omega)
  · intro target hlower hupper
    apply hagree
    intro node hnode
    have := hapart node hnode
    unfold Outside
    omega
  · intro _ target hlower hupper
    apply hagree
    intro node hnode
    have := hapart node hnode
    unfold Outside
    omega

end Written

/-! ## The freelist as a doubly linked list -/

theorem freelistAddNode_eq (heap : Heap) (node : ℕ) :
    freelistAddNode heap node =
      { memory := pushFront 8 heap.memory heap.freelistHead node
        freelistHead := node } := by
  unfold freelistAddNode pushFront
  split <;> rfl

theorem freelistRemoveNode_eq (heap : Heap) {node : ℕ} (hnode : 0 < node) :
    freelistRemoveNode heap node =
      some { memory := unlink 8 heap.memory node
             freelistHead :=
               unlinkHead 8 (unlink 8 heap.memory node) heap.freelistHead node } := by
  have hbypassNext : (if heap.prev node ≠ 0 then
      heap.setNext (heap.prev node) (heap.next node) else heap) =
        { heap with memory := bypassNext 8 heap.memory node } := by
    unfold bypassNext
    split <;> rename_i hprev
    · rw [if_pos (show load64 heap.memory (node + 8) ≠ 0 from hprev)]
      rfl
    · rw [if_neg (show ¬load64 heap.memory (node + 8) ≠ 0 from hprev)]
  have hbypassPrev : ∀ middle : Heap, (if middle.next node ≠ 0 then
      middle.setPrev (middle.next node) (middle.prev node) else middle) =
        { middle with memory := bypassPrev 8 middle.memory node } := by
    intro middle
    unfold bypassPrev
    split <;> rename_i hnext
    · rw [if_pos (show load64 middle.memory (node + 8 + 8) ≠ 0 from hnext)]
      rfl
    · rw [if_neg (show ¬load64 middle.memory (node + 8 + 8) ≠ 0 from hnext)]
  rw [freelistRemoveNode, if_neg (by omega), hbypassNext]
  simp only [hbypassPrev, unlink, unlinkHead]
  by_cases hhead : node = heap.freelistHead
  · simp only [if_pos hhead, Heap.next, Heap.load]
  · simp only [if_neg hhead]

/-- The chunks cover the heap exactly. -/
structure Tiling (chunks : List Chunk) : Prop where
  sizes : ∀ chunk ∈ chunks, SizeOk chunk
  covers : span Chunk.size chunks = heapSize

/-- The heap's bytes hold the chunks and a freelist with the given nodes. -/
structure Heap.Holds (heap : Heap) (chunks : List Chunk) (nodes : List ℕ) : Prop where
  written : Written heap.memory heapStart chunks
  linked : DoublyLinked.Holds 8 heap.memory heap.freelistHead nodes

section Tiling

variable {chunks : List Chunk} {address other : ℕ}

theorem Tiling.size_of_mem (htiling : Tiling chunks) {entry : ℕ × Chunk}
    (hentry : entry ∈ place Chunk.size heapStart chunks) :
    entry.2.size % 8 = 0 ∧ 32 ≤ entry.2.size := by
  obtain ⟨left, right, rfl, -⟩ := exists_split_of_mem hentry
  exact htiling.sizes entry.2 (by simp)

/-- Free chunks lie apart from each other. -/
theorem Tiling.apart (htiling : Tiling chunks)
    (haddress : address ∈ freeAddresses heapStart chunks)
    (hother : other ∈ freeAddresses heapStart chunks) (hne : address ≠ other) :
    Apart address other := by
  obtain ⟨chunk, hchunk, -⟩ := mem_addressesOf.mp haddress
  obtain ⟨chunk', hchunk', -⟩ := mem_addressesOf.mp hother
  have hsize := htiling.size_of_mem hchunk
  have hsize' := htiling.size_of_mem hchunk'
  rcases eq_or_apart hchunk hchunk' with heq | hleft | hright
  · exact absurd (congrArg Prod.fst heq) hne
  · exact Or.inl (by omega)
  · exact Or.inr (by omega)

end Tiling

namespace Heap.Holds

variable {heap : Heap} {chunks before middle middle' after : List Chunk}
variable {nodes left right : List ℕ} {node : ℕ}

/-- Put a node inside some chunk on the freelist. -/
theorem addInside (hholds : heap.Holds chunks nodes) (htiling : Tiling chunks)
    (hnode : Inside heapStart chunks node)
    (hnodes : ∀ other ∈ nodes, other ∈ freeAddresses heapStart chunks)
    (hapart : ∀ other ∈ nodes, Apart node other) :
    (freelistAddNode heap node).Holds chunks (node :: nodes) := by
  obtain ⟨entry, hentry, hlower, hupper⟩ := hnode
  have hbounds := mem_place_bounds hentry
  rw [htiling.covers] at hbounds
  rw [freelistAddNode_eq]
  constructor
  · apply hholds.written.links htiling.sizes
    · intro other hother
      rcases List.mem_cons.mp hother with rfl | hother
      · exact ⟨entry, hentry, hlower, hupper⟩
      · exact inside_of_mem htiling.sizes (hnodes other hother)
    · intro target htarget
      exact pushFront_of_outside hholds.linked htarget
  · apply pushFront_holds hholds.linked _ hapart
    simp only [heapStart, heapSize] at hbounds
    omega

/-- Put a free chunk on the freelist. -/
theorem addNode (hholds : heap.Holds chunks nodes) (htiling : Tiling chunks)
    (hnode : node ∈ freeAddresses heapStart chunks)
    (hnodes : ∀ other ∈ nodes, other ∈ freeAddresses heapStart chunks)
    (hfresh : node ∉ nodes) :
    (freelistAddNode heap node).Holds chunks (node :: nodes) := by
  apply hholds.addInside htiling (inside_of_mem htiling.sizes hnode) hnodes
  intro other hother
  exact htiling.apart hnode (hnodes other hother)
    (ne_of_mem_of_not_mem hother hfresh).symm

theorem addNode_of_outside {target : ℕ} (hholds : heap.Holds chunks nodes)
    (htarget : ∀ other ∈ node :: nodes, Outside 8 target other) :
    (freelistAddNode heap node).memory target = heap.memory target := by
  rw [freelistAddNode_eq]
  exact pushFront_of_outside hholds.linked htarget

/-- Take a node off the freelist. -/
theorem removeNode (hholds : heap.Holds chunks (left ++ node :: right))
    (htiling : Tiling chunks)
    (hnodes : ∀ other ∈ left ++ right, other ∈ freeAddresses heapStart chunks) :
    ∃ heap', freelistRemoveNode heap node = some heap' ∧
      heap'.Holds chunks (left ++ right) ∧
        ∀ target, (∀ other ∈ left ++ right, Outside 8 target other) →
          heap'.memory target = heap.memory target := by
  have hpositive := (hholds.linked.bounds node (by simp)).1
  obtain ⟨hlinked, houtside⟩ := unlink_spec hholds.linked
  have hwritten : Written (unlink 8 heap.memory node) heapStart chunks :=
    hholds.written.links htiling.sizes
      (fun other hother => inside_of_mem htiling.sizes (hnodes other hother)) houtside
  rw [freelistRemoveNode_eq heap hpositive]
  refine ⟨_, rfl, ⟨?_, ?_⟩, ?_⟩
  · dsimp only
    exact hwritten
  · dsimp only
    exact hlinked
  · dsimp only
    exact houtside

/-- A write inside neighbouring chunks that keeps the links of the free ones. -/
theorem replace {memory : Memory} (hholds : heap.Holds (before ++ middle ++ after) nodes)
    (hsizes : ∀ chunk ∈ before ++ middle ++ after, SizeOk chunk)
    (hnodes : ∀ node ∈ nodes,
      node ∈ freeAddresses heapStart (before ++ middle ++ after))
    (hspan : span Chunk.size middle' = span Chunk.size middle)
    (hmiddle : Written memory (heapStart + span Chunk.size before) middle')
    (hagree : ∀ target, (target < heapStart + span Chunk.size before ∨
      heapStart + span Chunk.size before + span Chunk.size middle ≤ target) →
        memory target = heap.memory target)
    (hlinks : ∀ node ∈ freeAddresses (heapStart + span Chunk.size before) middle,
      ∀ target, ¬Outside 8 target node → memory target = heap.memory target) :
    ({ heap with memory := memory } : Heap).Holds (before ++ middle' ++ after)
      nodes := by
  refine ⟨hholds.written.replace hsizes hspan hmiddle hagree, ?_⟩
  apply hholds.linked.congr
  intro node hnode target htarget
  have hmem := hnodes node hnode
  simp only [freeAddresses, addressesOf_append, List.mem_append] at hmem
  rcases hmem with (hbefore | hmiddle) | hafter
  · obtain ⟨chunk, hchunk, -⟩ := mem_addressesOf.mp hbefore
    obtain ⟨left, right, hsplit, -⟩ := exists_split_of_mem hchunk
    have hsize := (hsizes chunk (by simp [hsplit])).2
    have hbounds : node + chunk.size ≤ heapStart + span Chunk.size before :=
      (mem_place_bounds hchunk).2
    unfold Outside at htarget
    exact hagree target (Or.inl (by omega))
  · exact hlinks node hmiddle target htarget
  · obtain ⟨chunk, hchunk, -⟩ := mem_addressesOf.mp hafter
    have hbounds := mem_place_bounds hchunk
    rw [span_append] at hbounds
    unfold Outside at htarget
    exact hagree target (Or.inr (by omega))

end Heap.Holds

end Flurry.Kmalloc
