import Flurry.Memory.KmallocChunks

/-!
# What `kmalloc` and `kfree` do to the list of chunks

Each branch of the two functions is one replacement of neighbouring chunks
together with the matching change of the freelist.
-/

namespace Flurry.Kmalloc

open ByteMemory BitField CellLayout DoublyLinked

/-! ## Reading metadata -/

theorem Heap.load_lt (heap : Heap) (address : ℕ) : heap.load address < 2 ^ 64 :=
  load64_lt heap.memory address

theorem Heap.load_store_same (heap : Heap) {address word : ℕ} (hword : word < 2 ^ 64) :
    (heap.store address word).load address = word :=
  load64_store64_same hword

section Reading

variable {heap : Heap} {address : ℕ} {chunk : Chunk}

theorem getSz_eq (hmetadata : Metadata (heap.load address) chunk) :
    getSz heap address = chunk.size := by
  rw [getSz, and_chunkSizeMask (heap.load_lt address)]
  exact hmetadata.size

theorem getFlag_isFree (hmetadata : Metadata (heap.load address) chunk) :
    getFlag heap address flagIsFree = chunk.free := by
  rw [← hmetadata.free]
  exact and_two_pow_ne_zero (heap.load address) 0

theorem getFlag_isPrevFree (hmetadata : Metadata (heap.load address) chunk) :
    getFlag heap address flagIsPrevFree = chunk.prevFree := by
  rw [← hmetadata.prevFree]
  exact and_two_pow_ne_zero (heap.load address) 1

end Reading

theorem setSz_lt (word sz : ℕ) :
    word &&& complement64 chunkSizeMask ||| sz &&& chunkSizeMask < 2 ^ 64 :=
  Nat.or_lt_two_pow (Nat.and_lt_two_pow _ (by decide))
    (Nat.and_lt_two_pow _ (by decide))

theorem heapEnd_lt : heapEnd < 2 ^ 64 := by decide

theorem isInHeapBounds_iff {addr : ℕ} :
    isInHeapBounds addr = true ↔ heapStart ≤ addr ∧ addr < heapEnd := by
  simp [isInHeapBounds]

/-- The end of a chunk in the heap does not wrap. -/
theorem wrap64_chunkEnd {addr size : ℕ} (hend : addr + size ≤ heapEnd) :
    wrap64 (addr + size) = addr + size :=
  wrap64_of_lt (by have := heapEnd_lt; omega)

theorem placeFooter_eq (heap : Heap) {chunk sz : ℕ} (hsz : 8 ≤ sz)
    (hend : chunk + sz ≤ heapEnd) :
    placeFooter heap chunk sz = heap.store (chunk + sz - 8) sz := by
  have hlt := heapEnd_lt
  rw [placeFooter, wrap64_chunkEnd hend, wordSize, sub64_of_le (by omega) (by omega)]

/-! ## Lists of chunks -/

/-- The address of the chunk that follows the chunks `before`. -/
def addressAfter (before : List Chunk) : ℕ := heapStart + span Chunk.size before

theorem mem_place_middle (before after : List Chunk) (chunk : Chunk) :
    (addressAfter before, chunk) ∈
      place Chunk.size heapStart (before ++ [chunk] ++ after) := by
  simp [addressAfter]

section Lists

variable {before middle middle' after chunks : List Chunk} {chunk : Chunk}
variable {start : ℕ}

theorem span_mod_eight (hsizes : ∀ chunk ∈ chunks, SizeOk chunk) :
    span Chunk.size chunks % 8 = 0 := by
  induction chunks with
  | nil => rfl
  | cons chunk chunks ih =>
      have hchunk := (hsizes chunk (by simp)).1
      have hchunks := ih fun other hother => hsizes other (by simp [hother])
      rw [span_cons]
      omega

namespace Tiling

theorem replace (htiling : Tiling (before ++ middle ++ after))
    (hsizes : ∀ chunk ∈ middle', SizeOk chunk)
    (hspan : span Chunk.size middle' = span Chunk.size middle) :
    Tiling (before ++ middle' ++ after) where
  sizes := by
    intro chunk hchunk
    rw [List.mem_append, List.mem_append] at hchunk
    rcases hchunk with (hbefore | hmiddle) | hafter
    · exact htiling.sizes chunk (by simp [hbefore])
    · exact hsizes chunk hmiddle
    · exact htiling.sizes chunk (by simp [hafter])
  covers := by
    have hcovers := htiling.covers
    simp only [span_append] at hcovers ⊢
    omega

theorem set {chunk' : Chunk} (htiling : Tiling (before ++ [chunk] ++ after))
    (hsize : chunk'.size = chunk.size) : Tiling (before ++ [chunk'] ++ after) := by
  apply htiling.replace
  · intro other hother
    obtain rfl := List.mem_singleton.mp hother
    unfold SizeOk
    rw [hsize]
    exact htiling.sizes chunk (by simp)
  · simp [hsize]

theorem nodup (htiling : Tiling chunks) :
    (freeAddresses heapStart chunks).Nodup := by
  apply nodup_addressesOf
  intro chunk hchunk
  have := (htiling.sizes chunk hchunk).2
  omega

/-- Neighbouring chunks end inside the heap. -/
theorem end_le (htiling : Tiling (before ++ middle ++ after)) :
    addressAfter before + span Chunk.size middle ≤ heapEnd := by
  have hcovers := htiling.covers
  simp only [span_append] at hcovers
  unfold heapEnd addressAfter
  omega

theorem wrap64_span (htiling : Tiling (before ++ middle ++ after)) :
    wrap64 (span Chunk.size middle) = span Chunk.size middle := by
  have hend := htiling.end_le
  have hlt := heapEnd_lt
  exact wrap64_of_lt (by omega)

/-- No free chunk starts where a used one does. -/
theorem not_mem_free (htiling : Tiling (before ++ [chunk] ++ after))
    (hused : chunk.free = false) :
    addressAfter before ∉ freeAddresses heapStart (before ++ [chunk] ++ after) := by
  intro hmem
  obtain ⟨other, hother, hfree⟩ := mem_addressesOf.mp hmem
  have hchunk : (addressAfter before, chunk) ∈
      place Chunk.size heapStart (before ++ [chunk] ++ after) := by
    simp [addressAfter]
  have hsize := htiling.size_of_mem hchunk
  have hsize' := htiling.size_of_mem hother
  rcases eq_or_apart hchunk hother with heq | hleft | hright
  · rw [← ((Prod.mk.injEq ..).mp heq).2, hused] at hfree
    exact absurd hfree (by simp)
  · simp only at hleft hsize
    omega
  · simp only at hright hsize'
    omega

/-- The bytes of a used chunk are no links. -/
theorem outside_of_used {address node target : ℕ} (htiling : Tiling chunks)
    (hchunk : (address, chunk) ∈ place Chunk.size heapStart chunks)
    (hused : chunk.free = false) (hnode : node ∈ freeAddresses heapStart chunks)
    (hlower : address ≤ target) (hupper : target < address + chunk.size) :
    Outside 8 target node := by
  obtain ⟨other, hother, hfree⟩ := mem_addressesOf.mp hnode
  have hsize : 32 ≤ other.size := (htiling.size_of_mem hother).2
  unfold Outside
  rcases eq_or_apart hchunk hother with heq | hleft | hright
  · rw [← ((Prod.mk.injEq ..).mp heq).2, hused] at hfree
    exact absurd hfree (by simp)
  · simp only at hleft
    omega
  · simp only at hright
    omega

end Tiling

theorem freeAddresses_replace :
    freeAddresses heapStart (before ++ middle ++ after) =
      freeAddresses heapStart before ++
        freeAddresses (addressAfter before) middle ++
          freeAddresses (addressAfter before + span Chunk.size middle) after := by
  simp [freeAddresses, addressesOf_append, addressAfter, Nat.add_assoc]

@[simp]
theorem freeAddresses_nil (start : ℕ) : freeAddresses start [] = [] := rfl

theorem freeAddresses_singleton (start : ℕ) (chunk : Chunk) :
    freeAddresses start [chunk] = if chunk.free then [start] else [] := by
  rw [freeAddresses, addressesOf_cons]
  exact List.append_nil _

theorem freeAddresses_cons (start : ℕ) (chunk : Chunk) (chunks : List Chunk) :
    freeAddresses start (chunk :: chunks) =
      (if chunk.free then [start] else []) ++
        freeAddresses (start + chunk.size) chunks :=
  addressesOf_cons Chunk.size Chunk.free start chunk chunks

/-- A used chunk that becomes free adds its address. -/
theorem freeAddresses_setFree (hused : chunk.free = false) :
    (addressAfter before :: freeAddresses heapStart (before ++ [chunk] ++ after)).Perm
      (freeAddresses heapStart (before ++ [{ chunk with free := true }] ++ after)) := by
  simp only [freeAddresses_replace, freeAddresses_singleton, hused]
  simpa using List.perm_middle.symm

end Lists

/-! ## Writing metadata -/

/-- The `prevFree` flag of the first chunk replaced. -/
def withPrevFree (flag : Bool) : List Chunk → List Chunk
  | [] => []
  | chunk :: chunks => { chunk with prevFree := flag } :: chunks

@[simp]
theorem span_withPrevFree (flag : Bool) (chunks : List Chunk) :
    span Chunk.size (withPrevFree flag chunks) = span Chunk.size chunks := by
  cases chunks <;> simp [withPrevFree]

@[simp]
theorem freeAddresses_withPrevFree (flag : Bool) (start : ℕ) (chunks : List Chunk) :
    freeAddresses start (withPrevFree flag chunks) = freeAddresses start chunks := by
  cases chunks with
  | nil => rfl
  | cons chunk chunks => simp [withPrevFree, freeAddresses_cons]

theorem freeAddresses_append_withPrevFree (flag : Bool) (before after : List Chunk) :
    freeAddresses heapStart (before ++ withPrevFree flag after) =
      freeAddresses heapStart (before ++ after) := by
  have hafter := freeAddresses_withPrevFree flag (addressAfter before) after
  unfold freeAddresses at hafter ⊢
  rw [addressesOf_append, addressesOf_append, ← addressAfter, hafter]

theorem Tiling.withPrevFree {before after : List Chunk} {flag : Bool}
    (htiling : Tiling (before ++ after)) :
    Tiling (before ++ Kmalloc.withPrevFree flag after) := by
  cases after with
  | nil => exact htiling
  | cons chunk after =>
      constructor
      · intro other hother
        simp only [Kmalloc.withPrevFree, List.mem_append, List.mem_cons] at hother
        rcases hother with hbefore | rfl | hafter
        · exact htiling.sizes other (by simp [hbefore])
        · exact htiling.sizes chunk (by simp)
        · exact htiling.sizes other (by simp [hafter])
      · have hcovers := htiling.covers
        simp only [span_append, span_withPrevFree] at hcovers ⊢
        exact hcovers

namespace Heap.Holds

variable {heap : Heap} {before after chunks : List Chunk} {chunk chunk' : Chunk}
variable {nodes : List ℕ} {address word : ℕ}

theorem chunkWritten (hholds : heap.Holds chunks nodes)
    (hchunk : (address, chunk) ∈ place Chunk.size heapStart chunks) :
    ChunkWritten heap.memory address chunk :=
  hholds.written (address, chunk) hchunk

theorem metadata (hholds : heap.Holds chunks nodes)
    (hchunk : (address, chunk) ∈ place Chunk.size heapStart chunks) :
    Metadata (heap.load address) chunk :=
  (hholds.chunkWritten hchunk).metadata

/-- Storing a new metadata word for a chunk that keeps its size.  If it says that
the chunk is free, the footer must be in place already. -/
theorem storeMetadata (hholds : heap.Holds (before ++ [chunk] ++ after) nodes)
    (htiling : Tiling (before ++ [chunk] ++ after))
    (hnodes : ∀ node ∈ nodes,
      node ∈ freeAddresses heapStart (before ++ [chunk] ++ after))
    (hword : word < 2 ^ 64) (hmetadata : Metadata word chunk')
    (hsize : chunk'.size = chunk.size)
    (hfooter : chunk'.free = true → addressAfter before + chunk.size ≠ heapEnd →
      heap.load (addressAfter before + chunk.size - 8) = chunk.size) :
    (heap.store (addressAfter before) word).Holds (before ++ [chunk'] ++ after)
      nodes := by
  have hsizeOk := (htiling.sizes chunk (by simp)).2
  apply hholds.replace htiling.sizes hnodes
  · simp [hsize]
  · rw [written_cons]
    refine ⟨⟨?_, ?_⟩, written_nil⟩
    · exact (load64_store64_same hword).symm ▸ hmetadata
    · intro hfree hend
      rw [hsize] at hend ⊢
      rw [addressAfter, load64_store64_of_disjoint (by omega)]
      exact hfooter hfree hend
  · intro target htarget
    simp only [span_cons, span_nil] at htarget
    exact store64_of_not_mem (by unfold addressAfter; omega)
  · intro node hnode target htarget
    have hnode' : node = addressAfter before := by
      obtain ⟨inner, hinner, -⟩ := mem_addressesOf.mp hnode
      simp only [place, List.mem_singleton, Prod.mk.injEq] at hinner
      exact hinner.1
    unfold Outside at htarget
    exact store64_of_not_mem (by omega)

/-- Marking a chunk free whose footer is in place. -/
theorem setFree (hholds : heap.Holds (before ++ [chunk] ++ after) nodes)
    (htiling : Tiling (before ++ [chunk] ++ after))
    (hnodes : ∀ node ∈ nodes,
      node ∈ freeAddresses heapStart (before ++ [chunk] ++ after))
    (hfooter : heap.load (addressAfter before + chunk.size - 8) = chunk.size) :
    (setFlag heap (addressAfter before) flagIsFree).Holds
      (before ++ [{ chunk with free := true }] ++ after) nodes := by
  refine hholds.storeMetadata htiling hnodes ?_ ?_ rfl fun _ _ => hfooter
  · exact Nat.or_lt_two_pow (heap.load_lt (addressAfter before)) (by decide)
  · exact metadata_setFree (hholds.metadata (by simp [addressAfter]))

/-- Marking a chunk used. -/
theorem unsetFree (hholds : heap.Holds (before ++ [chunk] ++ after) nodes)
    (htiling : Tiling (before ++ [chunk] ++ after))
    (hnodes : ∀ node ∈ nodes,
      node ∈ freeAddresses heapStart (before ++ [chunk] ++ after)) :
    (unsetFlag heap (addressAfter before) flagIsFree).Holds
      (before ++ [{ chunk with free := false }] ++ after) nodes := by
  refine hholds.storeMetadata htiling hnodes ?_ ?_ rfl (by simp)
  · exact Nat.and_lt_two_pow _ (by decide)
  · exact metadata_unsetFree (hholds.metadata (by simp [addressAfter]))
      (heap.load_lt (addressAfter before))

/-- A new `prevFree` flag for the next chunk, if there is one: the write happens
exactly when its address is inside the heap. -/
theorem storePrevFree {flag : Bool} (hholds : heap.Holds (before ++ after) nodes)
    (htiling : Tiling (before ++ after))
    (hnodes : ∀ node ∈ nodes, node ∈ freeAddresses heapStart (before ++ after))
    (hword : word < 2 ^ 64)
    (hmetadata : ∀ chunk, Metadata (heap.load (addressAfter before)) chunk →
      Metadata word { chunk with prevFree := flag }) :
    (if isInHeapBounds (addressAfter before) then
      heap.store (addressAfter before) word else heap).Holds
        (before ++ withPrevFree flag after) nodes := by
  have hcovers := htiling.covers
  rw [span_append] at hcovers
  cases after with
  | nil =>
      have hout : isInHeapBounds (addressAfter before) = false := by
        simp only [span_nil] at hcovers
        simp [isInHeapBounds, heapEnd, addressAfter, ← hcovers]
      rw [hout]
      exact hholds
  | cons chunk after =>
      have hsize := (htiling.sizes chunk (by simp)).2
      have hin : isInHeapBounds (addressAfter before) = true := by
        simp only [span_cons] at hcovers
        rw [isInHeapBounds_iff, addressAfter, heapEnd]
        omega
      have hplace : (addressAfter before, chunk) ∈
          place Chunk.size heapStart (before ++ chunk :: after) := by
        simp [addressAfter]
      have hwritten := hholds.chunkWritten hplace
      rw [hin, if_pos rfl]
      have hsplit : ∀ inner : Chunk,
          before ++ inner :: after = before ++ [inner] ++ after := by simp
      rw [withPrevFree, hsplit]
      rw [hsplit] at hholds htiling hnodes
      exact hholds.storeMetadata htiling hnodes hword
        (hmetadata chunk hwritten.metadata) rfl hwritten.footer

theorem markPrevFree (hholds : heap.Holds (before ++ after) nodes)
    (htiling : Tiling (before ++ after))
    (hnodes : ∀ node ∈ nodes, node ∈ freeAddresses heapStart (before ++ after)) :
    (Kmalloc.markPrevFree heap (addressAfter before)).Holds
      (before ++ withPrevFree true after) nodes := by
  apply hholds.storePrevFree htiling hnodes
  · exact Nat.or_lt_two_pow (heap.load_lt (addressAfter before)) (by decide)
  · intro chunk hmetadata
    exact metadata_setPrevFree hmetadata

/-- The footer may be placed while the chunk is still in use. -/
theorem placeFooter (hholds : heap.Holds (before ++ [chunk] ++ after) nodes)
    (htiling : Tiling (before ++ [chunk] ++ after))
    (hnodes : ∀ node ∈ nodes,
      node ∈ freeAddresses heapStart (before ++ [chunk] ++ after))
    (hused : chunk.free = false) :
    (Kmalloc.placeFooter heap (addressAfter before) chunk.size).Holds
        (before ++ [chunk] ++ after) nodes ∧
      (Kmalloc.placeFooter heap (addressAfter before) chunk.size).load
        (addressAfter before + chunk.size - 8) = chunk.size := by
  have hlt := heapEnd_lt
  have hsize := (htiling.sizes chunk (by simp)).2
  have hend : addressAfter before + chunk.size ≤ heapEnd := htiling.end_le
  have hmetadata : Metadata (heap.load (addressAfter before)) chunk :=
    hholds.metadata (by simp [addressAfter])
  rw [placeFooter_eq heap (by omega) hend]
  refine ⟨?_, load64_store64_same (by omega)⟩
  apply hholds.replace htiling.sizes hnodes rfl
  · rw [written_cons, ← addressAfter]
    refine ⟨⟨?_, by simp [hused]⟩, written_nil⟩
    rw [load64_store64_of_disjoint (by omega)]
    exact hmetadata
  · intro target htarget
    rw [← addressAfter] at htarget
    simp only [span_cons, span_nil] at htarget
    exact store64_of_not_mem (by omega)
  · intro node hnode
    simp [freeAddresses_singleton, hused] at hnode

/-- A new size for the first of some neighbouring chunks that takes in the
others, and the footer for it. -/
theorem grow {rest : List Chunk} {newSz : ℕ}
    (hholds : heap.Holds (before ++ chunk :: rest ++ after) nodes)
    (htiling : Tiling (before ++ chunk :: rest ++ after))
    (hnodes : ∀ node ∈ nodes,
      node ∈ freeAddresses heapStart (before ++ chunk :: rest ++ after))
    (hnewSz : newSz = span Chunk.size (chunk :: rest)) :
    (Kmalloc.placeFooter (setSz heap (addressAfter before) newSz)
        (addressAfter before) newSz).Holds
          (before ++ [{ chunk with size := newSz }] ++ after) nodes ∧
      (Kmalloc.placeFooter (setSz heap (addressAfter before) newSz)
        (addressAfter before) newSz).load (addressAfter before + newSz - 8) = newSz ∧
        Tiling (before ++ [{ chunk with size := newSz }] ++ after) := by
  have hlt := heapEnd_lt
  have hmetadata : Metadata (heap.load (addressAfter before)) chunk :=
    hholds.metadata (by simp [addressAfter])
  have hsizeOk : newSz % 8 = 0 ∧ 32 ≤ newSz := by
    have hsize := htiling.sizes chunk (by simp)
    have hrest : span Chunk.size rest % 8 = 0 := by
      apply span_mod_eight
      intro other hother
      exact htiling.sizes other (by simp [hother])
    unfold SizeOk at hsize
    rw [hnewSz, span_cons]
    omega
  have hend : addressAfter before + newSz ≤ heapEnd := hnewSz ▸ htiling.end_le
  rw [placeFooter_eq _ (by omega) hend]
  have hfooter : load64 (store64 (setSz heap (addressAfter before) newSz).memory
      (addressAfter before + newSz - 8) newSz) (addressAfter before + newSz - 8) =
        newSz :=
    load64_store64_same (by omega)
  have hword := metadata_setSz hmetadata (show newSz < 2 ^ 64 by omega) hsizeOk.1
  have hwordLt := setSz_lt (heap.load (addressAfter before)) newSz
  refine ⟨?_, hfooter, htiling.replace ?_ (by simp [hnewSz])⟩
  · apply hholds.replace htiling.sizes hnodes
    · simp [hnewSz]
    · rw [written_cons, ← addressAfter]
      refine ⟨⟨?_, fun _ _ => hfooter⟩, written_nil⟩
      rw [load64_store64_of_disjoint (by omega)]
      exact (load64_store64_same hwordLt).symm ▸ hword
    · intro target htarget
      rw [← hnewSz, ← addressAfter] at htarget
      change store64 (store64 heap.memory _ _) _ _ target = heap.memory target
      rw [store64_of_not_mem (by omega), store64_of_not_mem (by omega)]
    · intro node hnode target htarget
      obtain ⟨other, hother, -⟩ := mem_addressesOf.mp hnode
      have hbounds : addressAfter before ≤ node ∧
          node + other.size ≤ addressAfter before + newSz := by
        have hplace := mem_place_bounds hother
        rw [← hnewSz] at hplace
        exact hplace
      have hotherSize : 32 ≤ other.size := by
        obtain ⟨left, right, hsplit, -⟩ := exists_split_of_mem hother
        exact (htiling.sizes other (by simp [hsplit])).2
      unfold Outside at htarget
      change store64 (store64 heap.memory _ _) _ _ target = heap.memory target
      rw [store64_of_not_mem (by omega), store64_of_not_mem (by omega)]
  · intro other hother
    obtain rfl := List.mem_singleton.mp hother
    exact hsizeOk

end Heap.Holds

/-! ## Bytes that stay -/

/-- Only bytes in `[low, high)` and the links of the given nodes differ. -/
def Frame (low high : ℕ) (nodes : List ℕ) (heap heap' : Heap) : Prop :=
  ∀ target, (target < low ∨ high ≤ target) →
    (∀ node ∈ nodes, Outside 8 target node) →
      heap'.memory target = heap.memory target

namespace Frame

variable {low high : ℕ} {nodes nodes' : List ℕ} {heap heap' heap'' : Heap}

theorem refl (low high : ℕ) (nodes : List ℕ) (heap : Heap) :
    Frame low high nodes heap heap :=
  fun _ _ _ => rfl

theorem store {address value : ℕ} (hframe : Frame low high nodes heap heap')
    (hlower : low ≤ address) (hupper : address + 8 ≤ high) :
    Frame low high nodes heap (heap'.store address value) := by
  intro target htarget hnodes
  rw [← hframe target htarget hnodes]
  exact store64_of_not_mem (by omega)

theorem placeFooter {chunk sz : ℕ} (hframe : Frame low high nodes heap heap')
    (hsz : 8 ≤ sz) (hend : chunk + sz ≤ heapEnd) (hlower : low ≤ chunk)
    (hupper : chunk + sz ≤ high) :
    Frame low high nodes heap (Kmalloc.placeFooter heap' chunk sz) := by
  rw [placeFooter_eq heap' hsz hend]
  exact hframe.store (by omega) (by omega)

theorem markPrevFree {address : ℕ} (hframe : Frame low high nodes heap heap')
    (hlower : low ≤ address) (hupper : address + 8 ≤ high) :
    Frame low high nodes heap (Kmalloc.markPrevFree heap' address) := by
  unfold Kmalloc.markPrevFree
  split
  · exact hframe.store hlower hupper
  · exact hframe

/-- Writes to links of nodes that are listed or lie in the range. -/
theorem links (hframe : Frame low high nodes heap heap')
    (hlinks : ∀ target, (∀ node ∈ nodes', Outside 8 target node) →
      heap''.memory target = heap'.memory target)
    (hnodes : ∀ node ∈ nodes', node ∈ nodes ∨ (low ≤ node ∧ node + 24 ≤ high)) :
    Frame low high nodes heap heap'' := by
  intro target htarget houtside
  rw [← hframe target htarget houtside]
  apply hlinks
  intro node hnode
  rcases hnodes node hnode with hmem | hrange
  · exact houtside node hmem
  · unfold Outside
    omega

end Frame

/-! ## Release -/

section Release

variable {heap : Heap} {before after : List Chunk} {prev chunk next : Chunk}
variable {nodes left right : List ℕ}

theorem addressAfter_append (before middle : List Chunk) :
    addressAfter (before ++ middle) = addressAfter before + span Chunk.size middle := by
  simp [addressAfter, Nat.add_assoc]

theorem kfreeAlone_holds (hholds : heap.Holds (before ++ [chunk] ++ after) nodes)
    (htiling : Tiling (before ++ [chunk] ++ after))
    (hnodes : ∀ node ∈ nodes,
      node ∈ freeAddresses heapStart (before ++ [chunk] ++ after))
    (hused : chunk.free = false) :
    (kfreeAlone heap (addressAfter before) (addressAfter before + chunk.size)).Holds
        (before ++ [{ chunk with free := true }] ++ withPrevFree true after)
        (addressAfter before :: nodes) ∧
      Frame (addressAfter before) (addressAfter before + chunk.size + 8) nodes heap
        (kfreeAlone heap (addressAfter before) (addressAfter before + chunk.size)) := by
  have hgetSz : getSz heap (addressAfter before) = chunk.size :=
    getSz_eq (hholds.metadata (by simp [addressAfter]))
  have hfresh : addressAfter before ∉ nodes := fun hmem =>
    htiling.not_mem_free hused (hnodes _ hmem)
  have htiling' : Tiling (before ++ [{ chunk with free := true }] ++ after) :=
    htiling.set rfl
  have hnodes' : ∀ node ∈ addressAfter before :: nodes, node ∈
      freeAddresses heapStart (before ++ [{ chunk with free := true }] ++ after) := by
    intro node hnode
    rw [← (freeAddresses_setFree hused).mem_iff]
    exact List.mem_cons.mpr ((List.mem_cons.mp hnode).imp_right (hnodes node))
  obtain ⟨hfooterHolds, hfooter⟩ := hholds.placeFooter htiling hnodes hused
  have hfree := hfooterHolds.setFree htiling hnodes hfooter
  have hadded := hfree.addNode htiling' (hnodes' _ (by simp))
    (fun node hnode => hnodes' node (by simp [hnode])) hfresh
  have hmarked := hadded.markPrevFree htiling' hnodes'
  rw [addressAfter_append] at hmarked
  have hsize := (htiling.sizes chunk (by simp)).2
  have hend : addressAfter before + chunk.size ≤ heapEnd := htiling.end_le
  rw [kfreeAlone, hgetSz]
  refine ⟨hmarked, Frame.markPrevFree (Frame.links (Frame.store (Frame.placeFooter
    (Frame.refl _ _ _ _) (by omega) hend (by omega) (by omega)) (by omega) (by omega))
    (fun target => hfree.addNode_of_outside) ?_) (by omega) (by omega)⟩
  intro node hnode
  rcases List.mem_cons.mp hnode with rfl | hnode
  · exact Or.inr ⟨by omega, by omega⟩
  · exact Or.inl hnode

/-- A free chunk that is not the last one is found through its footer. -/
theorem prevChunk_eq {chunks : List Chunk} {address : ℕ}
    (hholds : heap.Holds chunks nodes) (htiling : Tiling chunks)
    (hplace : (address, prev) ∈ place Chunk.size heapStart chunks)
    (hfree : prev.free = true) (hend : address + prev.size < heapEnd) :
    prevChunk heap (address + prev.size) = address := by
  have hlt := heapEnd_lt
  have hsize : 32 ≤ prev.size := (htiling.size_of_mem hplace).2
  have hfooter : heap.load (address + prev.size - 8) = prev.size :=
    (hholds.chunkWritten hplace).footer hfree (by omega)
  have hsub : sub64 (address + prev.size) 8 = address + prev.size - 8 :=
    sub64_of_le (by omega) (by omega)
  rw [prevChunk, wordSize, hsub, hfooter, sub64_of_le (by omega) (by omega)]
  omega

/-- What `kfree` reads of a released chunk and of the free chunk before it. -/
theorem prev_reads {rest : List Chunk}
    (hholds : heap.Holds (before ++ (prev :: chunk :: rest) ++ after) nodes)
    (htiling : Tiling (before ++ (prev :: chunk :: rest) ++ after))
    (hfree : prev.free = true) :
    prevChunk heap (addressAfter before + prev.size) = addressAfter before ∧
      getSz heap (addressAfter before) = prev.size ∧
        getSz heap (addressAfter before + prev.size) = chunk.size := by
  have hend := htiling.end_le
  have hsize := (htiling.sizes chunk (by simp)).2
  simp only [span_cons] at hend
  refine ⟨prevChunk_eq hholds htiling (by simp [addressAfter]) hfree (by omega), ?_, ?_⟩
  · exact getSz_eq (hholds.metadata (by simp [addressAfter]))
  · exact getSz_eq (hholds.metadata (by simp [addressAfter]))

/-- The previous chunk takes in the released one. -/
theorem kfreePrev_eq (hholds : heap.Holds (before ++ [prev, chunk] ++ after) nodes)
    (htiling : Tiling (before ++ [prev, chunk] ++ after)) (hfree : prev.free = true) :
    kfreePrev heap (addressAfter before + prev.size)
        (addressAfter before + prev.size + chunk.size) =
      markPrevFree (placeFooter (setSz heap (addressAfter before)
        (prev.size + chunk.size)) (addressAfter before) (prev.size + chunk.size))
          (addressAfter before + (prev.size + chunk.size)) := by
  obtain ⟨hprev, hgetPrev, hgetSz⟩ := prev_reads hholds htiling hfree
  have hspan : prev.size + chunk.size = span Chunk.size [prev, chunk] := by simp
  have hwrap := htiling.wrap64_span
  rw [← hspan] at hwrap
  simp only [kfreePrev, hprev, hgetPrev, hgetSz, hwrap, Nat.add_assoc]

theorem kfreePrev_holds (hholds : heap.Holds (before ++ [prev, chunk] ++ after) nodes)
    (htiling : Tiling (before ++ [prev, chunk] ++ after))
    (hnodes : ∀ node ∈ nodes,
      node ∈ freeAddresses heapStart (before ++ [prev, chunk] ++ after))
    (hfree : prev.free = true) (hused : chunk.free = false) :
    (kfreePrev heap (addressAfter before + prev.size)
          (addressAfter before + prev.size + chunk.size)).Holds
        (before ++ [{ prev with size := prev.size + chunk.size }] ++
          withPrevFree true after) nodes ∧
      Frame (addressAfter before) (addressAfter before + prev.size + chunk.size + 8)
        nodes heap (kfreePrev heap (addressAfter before + prev.size)
          (addressAfter before + prev.size + chunk.size)) := by
  have hend := htiling.end_le
  have hsize := (htiling.sizes chunk (by simp)).2
  simp only [span_cons] at hend
  have hspan : prev.size + chunk.size = span Chunk.size [prev, chunk] := by simp
  obtain ⟨hgrown, -, htiling'⟩ := hholds.grow htiling hnodes hspan
  have hnodes' : ∀ node ∈ nodes, node ∈ freeAddresses heapStart
      (before ++ [{ prev with size := prev.size + chunk.size }] ++ after) := by
    intro node hnode
    have hmem := hnodes node hnode
    simp only [freeAddresses_replace, freeAddresses_cons, hfree, hused,
      span_cons] at hmem ⊢
    simpa using hmem
  have hmarked := hgrown.markPrevFree htiling' hnodes'
  simp only [addressAfter_append, span_cons, span_nil, Nat.add_zero] at hmarked
  rw [kfreePrev_eq hholds htiling hfree]
  refine ⟨hmarked, Frame.markPrevFree (Frame.placeFooter (Frame.store
    (Frame.refl _ _ _ _) (by omega) (by omega)) (by omega) ?_ (by omega) (by omega))
      (by omega) (by omega)⟩
  simp only [span_nil] at hend
  omega

theorem kfreeNext_holds
    (hholds : heap.Holds (before ++ [chunk, next] ++ after)
      (left ++ (addressAfter before + chunk.size) :: right))
    (htiling : Tiling (before ++ [chunk, next] ++ after))
    (hnodes : ∀ node ∈ left ++ (addressAfter before + chunk.size) :: right,
      node ∈ freeAddresses heapStart (before ++ [chunk, next] ++ after))
    (hnodup : (left ++ (addressAfter before + chunk.size) :: right).Nodup)
    (hused : chunk.free = false) (hfree : next.free = true) :
    ∃ heap', kfreeNext heap (addressAfter before)
        (addressAfter before + chunk.size) = some heap' ∧
      heap'.Holds (before ++ [{ chunk with size := chunk.size + next.size
                                           free := true }] ++ after)
        (addressAfter before :: (left ++ right)) ∧
      Frame (addressAfter before) (addressAfter before + chunk.size + next.size)
        (left ++ right) heap heap' := by
  have hgetSz : getSz heap (addressAfter before) = chunk.size :=
    getSz_eq (hholds.metadata (by simp [addressAfter]))
  have hgetNext : getSz heap (addressAfter before + chunk.size) = next.size :=
    getSz_eq (hholds.metadata (by simp [addressAfter]))
  have hspan : chunk.size + next.size = span Chunk.size [chunk, next] := by simp
  have hwrap := htiling.wrap64_span
  rw [← hspan] at hwrap
  obtain ⟨hgrown, hfooter, htiling'⟩ := hholds.grow htiling hnodes hspan
  set merged : Chunk := { chunk with size := chunk.size + next.size } with hmerged
  have hothers : ∀ other ∈ left ++ right,
      other ∈ freeAddresses heapStart (before ++ [merged] ++ after) := by
    intro other hother
    have hne : other ≠ addressAfter before + chunk.size :=
      ne_of_mem_of_not_mem hother (List.nodup_middle.mp hnodup).notMem
    have hmem := hnodes other (mem_of_mem_others hother)
    simp only [freeAddresses_replace, freeAddresses_cons, hused, hfree, hmerged,
      span_cons] at hmem ⊢
    simpa [hne] using hmem
  have hplace : (addressAfter before, merged) ∈
      place Chunk.size heapStart (before ++ [merged] ++ after) := by
    simp [addressAfter]
  obtain ⟨heap', hremove, hholds', houtside⟩ := hgrown.removeNode htiling' hothers
  have hsize := (htiling'.size_of_mem hplace).2
  have hfooter' : heap'.load (addressAfter before + merged.size - 8) = merged.size := by
    refine Eq.trans (load64_congr ?_) hfooter
    intro target hlower hupper
    apply houtside
    intro other hother
    exact htiling'.outside_of_used hplace hused (hothers other hother)
      (by simp only at hsize; omega) (by simp only at hsize; omega)
  have hfreed := hholds'.setFree htiling' hothers hfooter'
  have htiling'' : Tiling (before ++ [{ merged with free := true }] ++ after) :=
    htiling'.set rfl
  have hperm := @freeAddresses_setFree before after merged hused
  have hadded := hfreed.addNode htiling'' (hperm.mem_iff.mp List.mem_cons_self)
    (fun other hother =>
      hperm.mem_iff.mp (List.mem_cons_of_mem _ (hothers other hother)))
    (fun hmem => htiling'.not_mem_free hused (hothers _ hmem))
  refine ⟨_, ?_, hadded, ?_⟩
  · simp only [kfreeNext, hgetSz, hgetNext, hwrap, hremove, Option.bind_eq_bind,
      Option.bind_some]
    rfl
  · have hend : addressAfter before + (chunk.size + next.size) ≤ heapEnd :=
      hspan ▸ htiling.end_le
    have hsize' : 32 ≤ chunk.size + next.size := hsize
    refine Frame.links (Frame.store (Frame.links (Frame.placeFooter (Frame.store
      (Frame.refl _ _ _ _) (by omega) (by omega)) (by omega) hend (by omega)
        (by omega)) houtside (fun node => Or.inl)) (by omega) (by omega))
          (fun target => hfreed.addNode_of_outside) ?_
    intro node hnode
    rcases List.mem_cons.mp hnode with rfl | hnode
    · exact Or.inr ⟨by omega, by omega⟩
    · exact Or.inl hnode

/-- The previous chunk takes in the released one and the next, which leaves the
freelist. -/
theorem kfreeBoth_eq
    (hholds : heap.Holds (before ++ [prev, chunk, next] ++ after) nodes)
    (htiling : Tiling (before ++ [prev, chunk, next] ++ after))
    (hfree : prev.free = true) :
    kfreeBoth heap (addressAfter before + prev.size)
        (addressAfter before + prev.size + chunk.size) =
      freelistRemoveNode (placeFooter (setSz heap (addressAfter before)
        (prev.size + chunk.size + next.size)) (addressAfter before)
          (prev.size + chunk.size + next.size))
            (addressAfter before + prev.size + chunk.size) := by
  obtain ⟨hprev, hgetPrev, hgetSz⟩ := prev_reads hholds htiling hfree
  have hgetNext : getSz heap (addressAfter before + prev.size + chunk.size) =
      next.size :=
    getSz_eq (hholds.metadata (by simp [addressAfter]))
  have hspan : prev.size + chunk.size + next.size =
      span Chunk.size [prev, chunk, next] := by simp [Nat.add_assoc]
  have hwrap := htiling.wrap64_span
  rw [← hspan] at hwrap
  have hwrap' : wrap64 (prev.size + chunk.size) = prev.size + chunk.size := by
    have hlt := heapEnd_lt
    have hend := htiling.end_le
    simp only [span_cons] at hend
    exact wrap64_of_lt (by omega)
  simp only [kfreeBoth, hprev, hgetPrev, hgetSz, hgetNext, hwrap', hwrap]

theorem kfreeBoth_holds
    (hholds : heap.Holds (before ++ [prev, chunk, next] ++ after)
      (left ++ (addressAfter before + prev.size + chunk.size) :: right))
    (htiling : Tiling (before ++ [prev, chunk, next] ++ after))
    (hnodes : ∀ node ∈ left ++ (addressAfter before + prev.size + chunk.size) :: right,
      node ∈ freeAddresses heapStart (before ++ [prev, chunk, next] ++ after))
    (hnodup : (left ++ (addressAfter before + prev.size + chunk.size) :: right).Nodup)
    (hprevFree : prev.free = true) (hused : chunk.free = false)
    (hfree : next.free = true) :
    ∃ heap', kfreeBoth heap (addressAfter before + prev.size)
        (addressAfter before + prev.size + chunk.size) = some heap' ∧
      heap'.Holds (before ++
        [{ prev with size := prev.size + chunk.size + next.size }] ++ after)
          (left ++ right) ∧
      Frame (addressAfter before)
        (addressAfter before + prev.size + chunk.size + next.size) (left ++ right)
          heap heap' := by
  have hend := htiling.end_le
  have hsize := (htiling.sizes chunk (by simp)).2
  simp only [span_cons] at hend
  have hspan : prev.size + chunk.size + next.size =
      span Chunk.size [prev, chunk, next] := by simp [Nat.add_assoc]
  obtain ⟨hgrown, -, htiling'⟩ := hholds.grow htiling hnodes hspan
  have hothers : ∀ other ∈ left ++ right, other ∈ freeAddresses heapStart (before ++
      [{ prev with size := prev.size + chunk.size + next.size }] ++ after) := by
    intro other hother
    have hne : other ≠ addressAfter before + prev.size + chunk.size :=
      ne_of_mem_of_not_mem hother (List.nodup_middle.mp hnodup).notMem
    have hmem := hnodes other (mem_of_mem_others hother)
    simp only [freeAddresses_replace, freeAddresses_cons, hprevFree, hused, hfree,
      span_cons, Nat.add_assoc] at hne hmem ⊢
    simpa [hne] using hmem
  obtain ⟨heap', hremove, hholds', houtside⟩ := hgrown.removeNode htiling' hothers
  refine ⟨heap', ?_, hholds', ?_⟩
  · rw [kfreeBoth_eq hholds htiling hprevFree, hremove]
  · simp only [span_nil] at hend
    exact Frame.links (Frame.placeFooter (Frame.store (Frame.refl _ _ _ _) (by omega)
      (by omega)) (by omega) (by omega) (by omega) (by omega)) houtside
        (fun node => Or.inl)

end Release

/-! ## Allocation -/

section Allocation

variable {heap : Heap} {before after : List Chunk} {chunk : Chunk}
variable {nodes : List ℕ}

/-- Both branches of `kmalloc` end with this. -/
def markUsed (heap : Heap) (free allocSz : ℕ) : Heap :=
  unsetFlag (setSz heap free allocSz) free flagIsFree

theorem markUsed_metadata {address sz : ℕ}
    (hmetadata : Metadata (heap.load address) chunk) (hsz : sz < 2 ^ 64)
    (haligned : sz % 8 = 0) :
    Metadata ((markUsed heap address sz).load address)
      { chunk with size := sz, free := false } := by
  have hsized : Metadata ((setSz heap address sz).load address)
      { chunk with size := sz } := by
    rw [setSz, heap.load_store_same (setSz_lt _ _)]
    exact metadata_setSz hmetadata hsz haligned
  rw [markUsed, unsetFlag, Heap.load_store_same _ (Nat.and_lt_two_pow _ (by decide))]
  exact metadata_unsetFree hsized (Heap.load_lt _ _)

theorem markUsed_of_outside {address sz target : ℕ}
    (htarget : target < address ∨ address + 8 ≤ target) :
    (markUsed heap address sz).memory target = heap.memory target := by
  change store64 (store64 heap.memory _ _) _ _ target = heap.memory target
  rw [store64_of_not_mem htarget, store64_of_not_mem htarget]

theorem kmallocWhole_holds (hholds : heap.Holds (before ++ [chunk] ++ after) nodes)
    (htiling : Tiling (before ++ [chunk] ++ after))
    (hnodes : ∀ node ∈ nodes,
      node ∈ freeAddresses heapStart (before ++ [chunk] ++ after)) :
    (markUsed (kmallocWhole heap (addressAfter before) chunk.size)
          (addressAfter before) chunk.size).Holds
        (before ++ [{ chunk with free := false }] ++ withPrevFree false after) nodes ∧
      Frame (addressAfter before) (addressAfter before + chunk.size + 8) nodes heap
        (markUsed (kmallocWhole heap (addressAfter before) chunk.size)
          (addressAfter before) chunk.size) := by
  have hlt := heapEnd_lt
  have hsizeOk := htiling.sizes chunk (by simp)
  have hsize : 32 ≤ chunk.size := hsizeOk.2
  have hend : addressAfter before + chunk.size ≤ heapEnd := htiling.end_le
  have hnext : addressAfter before + chunk.size = addressAfter (before ++ [chunk]) := by
    simp [addressAfter_append]
  have hcleared : (kmallocWhole heap (addressAfter before) chunk.size).Holds
      (before ++ [chunk] ++ withPrevFree false after) nodes := by
    rw [kmallocWhole, wrap64_chunkEnd hend, hnext]
    apply hholds.storePrevFree htiling hnodes
    · exact Nat.and_lt_two_pow _ (by decide)
    · intro inner hmetadata
      exact metadata_unsetPrevFree hmetadata (heap.load_lt _)
  have htiling' : Tiling (before ++ [chunk] ++ withPrevFree false after) :=
    htiling.withPrevFree
  have hnodes' : ∀ node ∈ nodes, node ∈
      freeAddresses heapStart (before ++ [chunk] ++ withPrevFree false after) := by
    intro node hnode
    rw [freeAddresses_append_withPrevFree]
    exact hnodes node hnode
  have hplace : (addressAfter before, chunk) ∈ place Chunk.size heapStart
      (before ++ [chunk] ++ withPrevFree false after) := by
    simp [addressAfter]
  have hwritten := hcleared.chunkWritten hplace
  have hsized : (setSz (kmallocWhole heap (addressAfter before) chunk.size)
      (addressAfter before) chunk.size).Holds
        (before ++ [chunk] ++ withPrevFree false after) nodes :=
    hcleared.storeMetadata htiling' hnodes' (setSz_lt _ _)
      (metadata_setSz hwritten.metadata (by omega) hsizeOk.1) rfl hwritten.footer
  refine ⟨hsized.unsetFree htiling' hnodes', ?_⟩
  apply Frame.store (Frame.store _ (by omega) (by omega)) (by omega) (by omega)
  rw [kmallocWhole, wrap64_chunkEnd hend]
  split
  · exact Frame.store (Frame.refl _ _ _ _) (by omega) (by omega)
  · exact Frame.refl _ _ _ _

/-- The metadata of a new free chunk, whatever was there before. -/
def writeFree (heap : Heap) (address sz : ℕ) : Heap :=
  unsetFlag (setFlag (setSz heap address sz) address flagIsFree) address flagIsPrevFree

theorem writeFree_metadata {address sz : ℕ} (hsz : sz < 2 ^ 64) (haligned : sz % 8 = 0) :
    Metadata ((writeFree heap address sz).load address)
      { size := sz, free := true, prevFree := false } := by
  have hold : Metadata (heap.load address)
      ⟨heap.load address / 8 * 8, (heap.load address).testBit 0,
        (heap.load address).testBit 1⟩ := ⟨rfl, rfl, rfl⟩
  have hsized : Metadata ((setSz heap address sz).load address)
      ⟨sz, (heap.load address).testBit 0, (heap.load address).testBit 1⟩ := by
    rw [setSz, heap.load_store_same (setSz_lt _ _)]
    exact metadata_setSz hold hsz haligned
  have hfreed : Metadata ((setFlag (setSz heap address sz) address flagIsFree).load
      address) ⟨sz, true, (heap.load address).testBit 1⟩ := by
    rw [setFlag, Heap.load_store_same _
      (Nat.or_lt_two_pow (Heap.load_lt _ _) (by decide))]
    exact metadata_setFree hsized
  rw [writeFree, unsetFlag,
    Heap.load_store_same _ (Nat.and_lt_two_pow _ (by decide))]
  exact metadata_unsetPrevFree hfreed (Heap.load_lt _ _)

theorem writeFree_of_outside {address sz target : ℕ}
    (htarget : target < address ∨ address + 8 ≤ target) :
    (writeFree heap address sz).memory target = heap.memory target := by
  change store64 (store64 (store64 heap.memory _ _) _ _) _ _ target = heap.memory target
  rw [store64_of_not_mem htarget, store64_of_not_mem htarget, store64_of_not_mem htarget]

/-- Free nodes other than a free chunk lie apart from all its bytes. -/
theorem Tiling.apart_of_ne {chunks : List Chunk} {address node : ℕ}
    (htiling : Tiling chunks)
    (hchunk : (address, chunk) ∈ place Chunk.size heapStart chunks)
    (hnode : node ∈ freeAddresses heapStart chunks) (hne : node ≠ address) :
    node + 32 ≤ address ∨ address + chunk.size ≤ node := by
  obtain ⟨other, hother, -⟩ := mem_addressesOf.mp hnode
  have hsize : 32 ≤ other.size := (htiling.size_of_mem hother).2
  rcases eq_or_apart hother hchunk with heq | hleft | hright
  · exact absurd ((Prod.mk.injEq ..).mp heq).1 hne
  · simp only at hleft
    omega
  · exact Or.inr hright

/-- A word in the middle of a chunk that is off the freelist can be written. -/
theorem writeRemain_holds {allocSz sz : ℕ}
    (hholds : heap.Holds (before ++ [chunk] ++ after) nodes)
    (htiling : Tiling (before ++ [chunk] ++ after))
    (hnodes : ∀ node ∈ nodes,
      node ∈ freeAddresses heapStart (before ++ [chunk] ++ after))
    (halloc : 32 ≤ allocSz ∧ allocSz + 32 ≤ chunk.size) :
    (writeFree heap (addressAfter before + allocSz) sz).Holds
      (before ++ [chunk] ++ after) nodes := by
  have hwritten := hholds.chunkWritten (mem_place_middle before after chunk)
  apply hholds.replace htiling.sizes hnodes rfl
  · rw [written_cons, ← addressAfter]
    refine ⟨hwritten.congr (by omega) ?_ ?_, written_nil⟩
    · intro target hlower hupper
      exact writeFree_of_outside (by omega)
    · intro _ target hlower hupper
      exact writeFree_of_outside (by omega)
  · intro target htarget
    rw [← addressAfter] at htarget
    simp only [span_cons, span_nil] at htarget
    exact writeFree_of_outside (by omega)
  · intro node hnode target htarget
    obtain ⟨inner, hinner, -⟩ := mem_addressesOf.mp hnode
    simp only [place, List.mem_singleton, Prod.mk.injEq] at hinner
    have hnode' : node = addressAfter before := hinner.1
    unfold Outside at htarget
    exact writeFree_of_outside (by omega)

/-- The rest of a split chunk gets its metadata and is put on the freelist. -/
theorem addRemain {allocSz : ℕ} (hholds : heap.Holds (before ++ [chunk] ++ after) nodes)
    (htiling : Tiling (before ++ [chunk] ++ after))
    (hnodes : ∀ node ∈ nodes,
      node ∈ freeAddresses heapStart (before ++ [chunk] ++ after))
    (hfresh : addressAfter before ∉ nodes)
    (halloc : 32 ≤ allocSz ∧ allocSz % 8 = 0 ∧ allocSz + 32 ≤ chunk.size) :
    (freelistAddNode (writeFree heap (addressAfter before + allocSz)
        (chunk.size - allocSz)) (addressAfter before + allocSz)).Holds
          (before ++ [chunk] ++ after) ((addressAfter before + allocSz) :: nodes) ∧
      Metadata ((freelistAddNode (writeFree heap (addressAfter before + allocSz)
        (chunk.size - allocSz)) (addressAfter before + allocSz)).load
          (addressAfter before + allocSz)) ⟨chunk.size - allocSz, true, false⟩ ∧
        Frame (addressAfter before) (addressAfter before + chunk.size) nodes heap
          (freelistAddNode (writeFree heap (addressAfter before + allocSz)
            (chunk.size - allocSz)) (addressAfter before + allocSz)) := by
  have hlt := heapEnd_lt
  have hsizeOk := htiling.sizes chunk (by simp)
  unfold SizeOk at hsizeOk
  have hend : addressAfter before + chunk.size ≤ heapEnd := htiling.end_le
  have hplace : (addressAfter before, chunk) ∈
      place Chunk.size heapStart (before ++ [chunk] ++ after) := by
    simp [addressAfter]
  have hwrite := @writeRemain_holds _ _ _ _ _ allocSz (chunk.size - allocSz) hholds htiling
    hnodes ⟨halloc.1, halloc.2.2⟩
  set remain := addressAfter before + allocSz with hremain
  have hmetadata : Metadata ((writeFree heap remain (chunk.size - allocSz)).load remain)
      ⟨chunk.size - allocSz, true, false⟩ :=
    writeFree_metadata (by omega) (by omega)
  have hapart : ∀ node ∈ nodes,
      node + 32 ≤ addressAfter before ∨ addressAfter before + chunk.size ≤ node :=
    fun node hnode => htiling.apart_of_ne hplace (hnodes node hnode)
      (ne_of_mem_of_not_mem hnode hfresh)
  have hinside : Inside heapStart (before ++ [chunk] ++ after) remain :=
    ⟨_, hplace, by simp only; omega, by simp only; omega⟩
  have hadded := hwrite.addInside htiling hinside hnodes
    (fun node hnode => by
      have := hapart node hnode
      unfold Apart
      omega)
  have hsame : (freelistAddNode (writeFree heap remain (chunk.size - allocSz))
      remain).load remain = (writeFree heap remain (chunk.size - allocSz)).load remain := by
    apply load64_congr
    intro target hlower hupper
    apply hwrite.addNode_of_outside
    intro node hnode
    unfold Outside
    rcases List.mem_cons.mp hnode with rfl | hnode
    · omega
    · have := hapart node hnode
      omega
  have hframe : Frame (addressAfter before) (addressAfter before + chunk.size) nodes
      heap (writeFree heap remain (chunk.size - allocSz)) :=
    fun target htarget _ => writeFree_of_outside (by omega)
  have hkept : Metadata ((freelistAddNode (writeFree heap remain (chunk.size - allocSz))
      remain).load remain) ⟨chunk.size - allocSz, true, false⟩ := by
    rw [hsame]
    exact hmetadata
  refine ⟨hadded, hkept, ?_⟩
  apply hframe.links fun target => hwrite.addNode_of_outside
  intro node hnode
  rcases List.mem_cons.mp hnode with rfl | hnode
  · exact Or.inr ⟨by omega, by omega⟩
  · exact Or.inl hnode

/-- The split without 64-bit wrapping, up to the footer that is written last. -/
theorem kmallocSplit_eq {address freeSz allocSz : ℕ} {added : Heap}
    (hend : address + freeSz ≤ heapEnd) (halloc : 32 ≤ allocSz ∧ allocSz + 32 ≤ freeSz)
    (hadded : added = freelistAddNode (writeFree heap (address + allocSz)
      (freeSz - allocSz)) (address + allocSz))
    (hsize : getSz added (address + allocSz) = freeSz - allocSz) :
    kmallocSplit heap address freeSz allocSz =
      added.store (address + freeSz - 8) (freeSz - allocSz) := by
  have hlt := heapEnd_lt
  have hwrap : wrap64 (address + allocSz) = address + allocSz := wrap64_chunkEnd (by omega)
  have hsub : sub64 freeSz allocSz = freeSz - allocSz := sub64_of_le (by omega) (by omega)
  have hwrap' : wrap64 (address + allocSz + (freeSz - allocSz)) = address + freeSz := by
    rw [wrap64_chunkEnd (by omega)]
    omega
  have hsub' : sub64 (address + freeSz) 8 = address + freeSz - 8 :=
    sub64_of_le (by omega) (by omega)
  simp only [kmallocSplit, hwrap, hsub, ← writeFree.eq_1, ← hadded, hsize, hwrap', wordSize,
    hsub']

theorem kmallocSplit_holds {allocSz : ℕ}
    (hholds : heap.Holds (before ++ [chunk] ++ after) nodes)
    (htiling : Tiling (before ++ [chunk] ++ after))
    (hnodes : ∀ node ∈ nodes,
      node ∈ freeAddresses heapStart (before ++ [chunk] ++ after))
    (hfresh : addressAfter before ∉ nodes)
    (halloc : 32 ≤ allocSz ∧ allocSz % 8 = 0 ∧ allocSz + 32 ≤ chunk.size) :
    (markUsed (kmallocSplit heap (addressAfter before) chunk.size allocSz)
          (addressAfter before) allocSz).Holds
        (before ++ [{ chunk with size := allocSz, free := false },
          ⟨chunk.size - allocSz, true, false⟩] ++ after)
        ((addressAfter before + allocSz) :: nodes) ∧
      Frame (addressAfter before) (addressAfter before + chunk.size + 8) nodes heap
        (markUsed (kmallocSplit heap (addressAfter before) chunk.size allocSz)
          (addressAfter before) allocSz) := by
  have hlt := heapEnd_lt
  have hsizeOk := htiling.sizes chunk (by simp)
  unfold SizeOk at hsizeOk
  have hend : addressAfter before + chunk.size ≤ heapEnd := htiling.end_le
  have hplace : (addressAfter before, chunk) ∈
      place Chunk.size heapStart (before ++ [chunk] ++ after) := by
    simp [addressAfter]
  obtain ⟨hadded, hremainMetadata, hframe⟩ :=
    addRemain hholds htiling hnodes hfresh halloc
  set remain := addressAfter before + allocSz with hremain
  set added := freelistAddNode (writeFree heap remain (chunk.size - allocSz)) remain
    with haddedEq
  have hmetadata := (hadded.chunkWritten hplace).metadata
  have hgetSz : getSz added remain = chunk.size - allocSz := getSz_eq hremainMetadata
  rw [kmallocSplit_eq hend ⟨halloc.1, halloc.2.2⟩ haddedEq hgetSz]
  set footed := added.store (addressAfter before + chunk.size - 8)
    (chunk.size - allocSz) with hfooted
  have hfootedMetadata : Metadata (footed.load (addressAfter before)) chunk := by
    have hsame : footed.load (addressAfter before) = added.load (addressAfter before) :=
      load64_store64_of_disjoint (by omega)
    rw [hsame]
    exact hmetadata
  have hsame : ∀ target, (target < addressAfter before ∨
      addressAfter before + 8 ≤ target) →
      (target < addressAfter before + chunk.size - 8 ∨
        addressAfter before + chunk.size ≤ target) →
          (markUsed footed (addressAfter before) allocSz).memory target =
            added.memory target := by
    intro target hheader hfooter
    rw [markUsed_of_outside hheader]
    exact store64_of_not_mem (by omega)
  constructor
  · constructor
    · refine hadded.written.replace htiling.sizes ?_ ?_ ?_
      · simp only [span_cons, span_nil]
        omega
      · rw [written_cons, written_cons, ← addressAfter]
        refine ⟨⟨markUsed_metadata hfootedMetadata (by omega) halloc.2.1, by simp⟩,
          ⟨?_, ?_⟩, written_nil⟩
        · have hload : load64 (markUsed footed (addressAfter before) allocSz).memory
              remain = added.load remain := by
            apply load64_congr
            intro target hlower hupper
            exact hsame target (by omega) (by omega)
          rw [hload]
          exact hremainMetadata
        · intro _ _
          have hfooter : addressAfter before + allocSz + (chunk.size - allocSz) - 8 =
              addressAfter before + chunk.size - 8 := by omega
          have hload : load64 (markUsed footed (addressAfter before) allocSz).memory
              (addressAfter before + chunk.size - 8) =
                footed.load (addressAfter before + chunk.size - 8) := by
            apply load64_congr
            intro target hlower hupper
            exact markUsed_of_outside (by omega)
          simp only
          rw [hfooter, hload, hfooted]
          exact Heap.load_store_same added (by omega)
      · intro target htarget
        rw [← addressAfter] at htarget
        simp only [span_cons, span_nil] at htarget
        exact hsame target (by omega) (by omega)
    · apply hadded.linked.congr
      intro node hnode target htarget
      unfold Outside at htarget
      rcases List.mem_cons.mp hnode with rfl | hnode
      · exact hsame target (by omega) (by omega)
      · have hapart := htiling.apart_of_ne hplace (hnodes node hnode)
          (ne_of_mem_of_not_mem hnode hfresh)
        exact hsame target (by omega) (by omega)
  · intro target htarget houtside
    rw [hsame target (by omega) (by omega)]
    exact hframe target (by omega) houtside

end Allocation

end Flurry.Kmalloc
