import Flurry.Core.ByteMemory

/-!
# The kernel heap of `kmalloc.c`

The heap is a sequence of chunks.  The first word of a chunk holds its size and
two flags, the last word of a free chunk its size again, and the free chunks
are on a doubly linked list whose links follow the first word.  Everything is
kept in the bytes of the heap itself.  A failed assertion and the out-of-memory
panic are `none`.
-/

namespace Flurry.Kmalloc

open ByteMemory

def heapStart : ℕ := 0xffff810000000000
def heapSize : ℕ := 0x200000
def heapEnd : ℕ := heapStart + heapSize

def heapAlignment : ℕ := 8
def chunkSizeMask : ℕ := complement64 (heapAlignment - 1)

def flagIsFree : ℕ := 0x1
def flagIsPrevFree : ℕ := 0x2

/-- `sizeof(struct alloc_hdr_t)` and `sizeof(struct free_footer_t)`. -/
def wordSize : ℕ := 8

/-- `sizeof(struct free_node_t)`: metadata, `prev` and `next`. -/
def freeNodeSize : ℕ := 24

/-- The bytes of the heap, by virtual address, and `freelist_head`, 0 for
`NULL`. -/
@[ext]
structure Heap where
  memory : Memory
  freelistHead : ℕ

namespace Heap

def load (heap : Heap) (address : ℕ) : ℕ := load64 heap.memory address

def store (heap : Heap) (address value : ℕ) : Heap :=
  { heap with memory := store64 heap.memory address value }

/-- The fields of a `free_node_t`. -/
def prev (heap : Heap) (node : ℕ) : ℕ := heap.load (node + 8)
def next (heap : Heap) (node : ℕ) : ℕ := heap.load (node + 8 + 8)

def setPrev (heap : Heap) (node value : ℕ) : Heap := heap.store (node + 8) value
def setNext (heap : Heap) (node value : ℕ) : Heap := heap.store (node + 8 + 8) value

end Heap

/-- `ALIGN_UP(sz, HEAP_ALIGNMENT)`. -/
def alignSz (sz : ℕ) : ℕ :=
  wrap64 (sz + (heapAlignment - 1)) &&& complement64 (heapAlignment - 1)

def getSz (heap : Heap) (chunk : ℕ) : ℕ := heap.load chunk &&& chunkSizeMask

def setSz (heap : Heap) (chunk sz : ℕ) : Heap :=
  heap.store chunk
    ((heap.load chunk &&& complement64 chunkSizeMask) ||| (sz &&& chunkSizeMask))

def getFlag (heap : Heap) (chunk flag : ℕ) : Bool := heap.load chunk &&& flag ≠ 0

def setFlag (heap : Heap) (chunk flag : ℕ) : Heap :=
  heap.store chunk (heap.load chunk ||| flag)

def unsetFlag (heap : Heap) (chunk flag : ℕ) : Heap :=
  heap.store chunk (heap.load chunk &&& complement64 flag)

def isInHeapBounds (addr : ℕ) : Bool := heapStart ≤ addr ∧ addr < heapEnd

/-! ## The freelist -/

def freelistAddNode (heap : Heap) (nodeToAdd : ℕ) : Heap :=
  if heap.freelistHead = 0 then
    let heap := { heap with freelistHead := nodeToAdd }
    let heap := heap.setPrev heap.freelistHead 0
    heap.setNext heap.freelistHead 0
  else
    let heap := heap.setPrev nodeToAdd 0
    let heap := heap.setNext nodeToAdd heap.freelistHead
    let heap := heap.setPrev heap.freelistHead nodeToAdd
    { heap with freelistHead := nodeToAdd }

def freelistRemoveNode (heap : Heap) (nodeToRemove : ℕ) : Option Heap :=
  if nodeToRemove = 0 then none
  else
    let heap :=
      if heap.prev nodeToRemove ≠ 0 then
        heap.setNext (heap.prev nodeToRemove) (heap.next nodeToRemove)
      else heap
    let heap :=
      if heap.next nodeToRemove ≠ 0 then
        heap.setPrev (heap.next nodeToRemove) (heap.prev nodeToRemove)
      else heap
    if nodeToRemove = heap.freelistHead then
      some { heap with freelistHead := heap.next heap.freelistHead }
    else some heap

/-! ## Allocation -/

/-- `FREE_CHUNK_MIN_SZ`. -/
def freeChunkMinSz : ℕ := alignSz (freeNodeSize + wordSize)

/-- The chunk size for a request. -/
def allocSize (sz : ℕ) : ℕ :=
  let allocSz := alignSz (wrap64 (sz + wordSize))
  if allocSz < freeChunkMinSz then freeChunkMinSz else allocSz

/-- The chunk is taken whole, or a chunk can be cut off its end. -/
def fits (heap : Heap) (allocSz free : ℕ) : Bool :=
  getSz heap free = allocSz ∨ wrap64 (allocSz + freeChunkMinSz) ≤ getSz heap free

/-- The search loop, 0 if no chunk was found and `none` if it is still running
after `fuel` iterations. -/
def kmallocSearch (heap : Heap) (allocSz : ℕ) : ℕ → ℕ → Option ℕ
  | 0, free => if free = 0 ∨ fits heap allocSz free then some free else none
  | fuel + 1, free =>
      if free = 0 ∨ fits heap allocSz free then some free
      else kmallocSearch heap allocSz fuel (heap.next free)

/-- No more chunks than this fit into the heap. -/
def maxChunks : ℕ := heapSize / freeChunkMinSz

/-- The branch that takes the whole chunk. -/
def kmallocWhole (heap : Heap) (freeAddr freeSz : ℕ) : Heap :=
  let nextAddr := wrap64 (freeAddr + freeSz)
  if isInHeapBounds nextAddr then unsetFlag heap nextAddr flagIsPrevFree else heap

/-- The branch that splits the chunk and adds the rest to the freelist. -/
def kmallocSplit (heap : Heap) (freeAddr freeSz allocSz : ℕ) : Heap :=
  let remain := wrap64 (freeAddr + allocSz)
  let heap := setSz heap remain (sub64 freeSz allocSz)
  let heap := setFlag heap remain flagIsFree
  let heap := unsetFlag heap remain flagIsPrevFree
  let heap := freelistAddNode heap remain
  let remainEndAddr := wrap64 (remain + getSz heap remain)
  heap.store (sub64 remainEndAddr wordSize) (getSz heap remain)

def kmalloc (heap : Heap) (sz : ℕ) : Option (Heap × ℕ) := do
  let allocSz := allocSize sz
  let free ← kmallocSearch heap allocSz maxChunks heap.freelistHead
  if free = 0 then none
  else
    let freeSz := getSz heap free
    let heap ← freelistRemoveNode heap free
    let heap :=
      if freeSz = allocSz then kmallocWhole heap free freeSz
      else kmallocSplit heap free freeSz allocSz
    let heap := setSz heap free allocSz
    let heap := unsetFlag heap free flagIsFree
    return (heap, wrap64 (free + wordSize))

/-! ## Release -/

/-- Place a footer at the end of a free chunk. -/
def placeFooter (heap : Heap) (chunk sz : ℕ) : Heap :=
  heap.store (sub64 (wrap64 (chunk + sz)) wordSize) sz

/-- Tell the chunk at `nextAddr`, if there is one, that a free chunk precedes
it. -/
def markPrevFree (heap : Heap) (nextAddr : ℕ) : Heap :=
  if isInHeapBounds nextAddr then setFlag heap nextAddr flagIsPrevFree else heap

/-- The chunk before `toFree`, found through its footer. -/
def prevChunk (heap : Heap) (toFree : ℕ) : ℕ :=
  sub64 toFree (heap.load (sub64 toFree wordSize))

/-- No coalescing. -/
def kfreeAlone (heap : Heap) (toFree nextAddr : ℕ) : Heap :=
  let heap := placeFooter heap toFree (getSz heap toFree)
  let heap := setFlag heap toFree flagIsFree
  let heap := freelistAddNode heap toFree
  markPrevFree heap nextAddr

/-- Coalesce with the previous chunk only. -/
def kfreePrev (heap : Heap) (toFree nextAddr : ℕ) : Heap :=
  let prev := prevChunk heap toFree
  let newSz := wrap64 (getSz heap prev + getSz heap toFree)
  let heap := setSz heap prev newSz
  let heap := placeFooter heap prev newSz
  markPrevFree heap nextAddr

/-- Coalesce with the next chunk only. -/
def kfreeNext (heap : Heap) (toFree next : ℕ) : Option Heap := do
  let newSz := wrap64 (getSz heap toFree + getSz heap next)
  let heap := setSz heap toFree newSz
  let heap := placeFooter heap toFree newSz
  let heap ← freelistRemoveNode heap next
  let heap := setFlag heap toFree flagIsFree
  return freelistAddNode heap toFree

/-- Coalesce with the previous and the next chunk. -/
def kfreeBoth (heap : Heap) (toFree next : ℕ) : Option Heap :=
  let prev := prevChunk heap toFree
  let newSz := wrap64 (wrap64 (getSz heap prev + getSz heap toFree) + getSz heap next)
  let heap := setSz heap prev newSz
  let heap := placeFooter heap prev newSz
  freelistRemoveNode heap next

def kfree (heap : Heap) (ptr : ℕ) : Option Heap :=
  if !isInHeapBounds ptr then none
  else
    let toFree := sub64 ptr wordSize
    if getFlag heap toFree flagIsFree then none
    else
      let nextAddr := wrap64 (toFree + getSz heap toFree)
      let coalesceWithPrev := getFlag heap toFree flagIsPrevFree
      let coalesceWithNext := isInHeapBounds nextAddr && getFlag heap nextAddr flagIsFree
      match coalesceWithPrev, coalesceWithNext with
      | false, false => some (kfreeAlone heap toFree nextAddr)
      | true, false => some (kfreePrev heap toFree nextAddr)
      | false, true => kfreeNext heap toFree nextAddr
      | true, true => kfreeBoth heap toFree nextAddr

/-- The part of `kmalloc_init` that follows the mapping of the heap's pages, on
pages of any contents. -/
def kmallocInit (memory : Memory) : Heap :=
  let heap : Heap := { memory := memory, freelistHead := 0 }
  let head := heapStart
  let heap := setSz heap head (alignSz heapSize)
  let heap := setFlag heap head flagIsFree
  let heap := unsetFlag heap head flagIsPrevFree
  freelistAddNode heap head

end Flurry.Kmalloc
