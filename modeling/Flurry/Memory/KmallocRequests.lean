import Flurry.Memory.KmallocFree

/-!
# What a request leads to

The sizes of the free chunks decide how a call of `kmalloc` ends.  The chunk that
is taken is the first one on the freelist that fits; if there is none, the call
ends in the out-of-memory panic.  All sums of sizes are taken in 64 bits, so that
requests near `2 ^ 64` are mistaken for small ones.
-/

namespace Flurry.Kmalloc

open ByteMemory BitField CellLayout DoublyLinked

/-! ## How a call ends -/

/-- A call returns a block or panics, with the heap as it is then. -/
inductive KmallocOutcome where
  | block (heap : Heap) (ptr : ℕ)
  /-- `kpanic("Kheap out of memory")` -/
  | outOfMemory (heap : Heap)

/-- The pointer a call returns and the heap it leaves. -/
def KmallocOutcome.returned : KmallocOutcome → Option (Heap × ℕ)
  | block heap ptr => some (heap, ptr)
  | outOfMemory _ => none

/-- `kmalloc` with its panic; the search before it only reads the heap. -/
def kmallocOutcome (heap : Heap) (sz : ℕ) : Option KmallocOutcome := do
  let free ← kmallocSearch heap (allocSize sz) maxChunks heap.freelistHead
  if free = 0 then some (.outOfMemory heap)
  else (kmalloc heap sz).map fun result => .block result.1 result.2

theorem kmalloc_eq_returned (heap : Heap) (sz : ℕ) :
    kmalloc heap sz = (kmallocOutcome heap sz).bind KmallocOutcome.returned := by
  rw [kmallocOutcome]
  cases hsearch : kmallocSearch heap (allocSize sz) maxChunks heap.freelistHead with
  | none => simp [kmalloc, hsearch]
  | some free =>
      by_cases hfree : free = 0
      · simp [kmalloc, hsearch, hfree, KmallocOutcome.returned]
      · cases hkmalloc : kmalloc heap sz with
        | none => simp [hfree]
        | some result => simp [hfree, KmallocOutcome.returned]

/-- The sizes of the free chunks. -/
def freeSizes (heap : Heap) : List ℕ :=
  ((readChunks heap).getD []).filterMap fun entry =>
    if entry.2.free then some entry.2.size else none

section Outcome

variable {heap : Heap} {layout : Layout} {sz size allocSz : ℕ}

theorem mem_freeSizes (hrepresents : heap.Represents layout) :
    size ∈ freeSizes heap ↔ ∃ entry ∈ place Chunk.size heapStart layout.chunks,
      entry.2.free = true ∧ entry.2.size = size := by
  simp only [freeSizes, hrepresents.readChunks_eq, Option.getD_some, List.mem_filterMap,
    Option.ite_none_right_eq_some, Option.some.injEq]

theorem freeSizes_bounds (hrepresents : heap.Represents layout)
    (hsize : size ∈ freeSizes heap) : 32 ≤ size ∧ size ≤ heapSize := by
  obtain ⟨entry, hentry, -, rfl⟩ := (mem_freeSizes hrepresents).mp hsize
  have hbounds := (mem_place_bounds hentry).2
  have hstart := (mem_place_bounds hentry).1
  rw [layout.tiling.covers] at hbounds
  exact ⟨(layout.tiling.size_of_mem hentry).2, by omega⟩

/-- The search finds nothing exactly if no free chunk passes the test in 64 bits. -/
theorem find_fits_eq_none_iff (hrepresents : heap.Represents layout) :
    layout.freelist.find? (fits heap allocSz) = none ↔
      ∀ size ∈ freeSizes heap, size ≠ allocSz ∧ size < wrap64 (allocSz + 32) := by
  have hfits : ∀ {entry}, entry ∈ place Chunk.size heapStart layout.chunks →
      (fits heap allocSz entry.1 = false ↔
        entry.2.size ≠ allocSz ∧ entry.2.size < wrap64 (allocSz + 32)) := by
    intro entry hentry
    rw [fits, getSz_eq (hrepresents.metadata hentry), freeChunkMinSz_eq]
    simp
  rw [List.find?_eq_none]
  constructor
  · intro hnone size hsize
    obtain ⟨entry, hentry, hfree, rfl⟩ := (mem_freeSizes hrepresents).mp hsize
    apply (hfits hentry).mp
    apply Bool.eq_false_iff.mpr
    apply hnone
    rw [layout.exact.mem_iff, freeAddresses, mem_addressesOf]
    exact ⟨entry.2, hentry, hfree⟩
  · intro hsizes node hnode
    obtain ⟨chunk, hchunk, hfree⟩ := mem_addressesOf.mp (layout.mem_free hnode)
    apply Bool.eq_false_iff.mp
    apply (hfits hchunk).mpr
    exact hsizes chunk.size ((mem_freeSizes hrepresents).mpr ⟨_, hchunk, hfree, rfl⟩)

theorem kmallocSearch_represents (hrepresents : heap.Represents layout) :
    kmallocSearch heap allocSz maxChunks heap.freelistHead =
      some ((layout.freelist.find? (fits heap allocSz)).getD 0) :=
  kmallocSearch_eq hrepresents.linked.segment
    (fun node hnode => (hrepresents.linked.bounds node hnode).1) layout.length_le

theorem kmallocOutcome_of_none (hrepresents : heap.Represents layout)
    (hfind : layout.freelist.find? (fits heap (allocSize sz)) = none) :
    kmallocOutcome heap sz = some (.outOfMemory heap) := by
  rw [kmallocOutcome, kmallocSearch_represents hrepresents, hfind]
  rfl

theorem kmallocOutcome_of_some {address : ℕ} (hrepresents : heap.Represents layout)
    (hfind : layout.freelist.find? (fits heap (allocSize sz)) = some address) :
    kmallocOutcome heap sz =
      (kmalloc heap sz).map fun result => .block result.1 result.2 := by
  have hpositive : 0 < address :=
    (hrepresents.linked.bounds address (List.mem_of_find?_eq_some hfind)).1
  rw [kmallocOutcome, kmallocSearch_represents hrepresents, hfind]
  exact if_neg (by simpa using hpositive.ne')

/-- The panic is reached, on the heap as it was, exactly if no free chunk fits. -/
theorem kmallocOutcome_eq_outOfMemory_iff (hrepresents : heap.Represents layout) :
    kmallocOutcome heap sz = some (.outOfMemory heap) ↔
      ∀ size ∈ freeSizes heap,
        size ≠ allocSize sz ∧ size < wrap64 (allocSize sz + 32) := by
  rw [← find_fits_eq_none_iff hrepresents]
  cases hfind : layout.freelist.find? (fits heap (allocSize sz)) with
  | none => simp [kmallocOutcome_of_none hrepresents hfind]
  | some address => simp [kmallocOutcome_of_some hrepresents hfind]

end Outcome

/-! ## Requests that the heap can hold -/

/-- A free chunk of this size can serve a request for a chunk of size `need`. -/
def Suitable (need size : ℕ) : Prop := size = need ∨ need + 32 ≤ size

/-- The chunk size for a request, without 64-bit wrapping. -/
def neededSize (sz : ℕ) : ℕ := max 32 ((sz + 8 + 7) / 8 * 8)

theorem allocSize_eq {sz : ℕ} (hsz : sz + 16 ≤ 2 ^ 64) :
    allocSize sz = neededSize sz := by
  have hwrap : wrap64 (sz + wordSize) = sz + 8 :=
    wrap64_of_lt (by unfold wordSize; omega)
  rw [allocSize, neededSize, freeChunkMinSz_eq, hwrap, alignSz_eq (by omega)]
  split <;> omega

/-- The test of the search loop, on the size that the chunk's metadata gives. -/
theorem fits_iff_suitable {heap : Heap} {sz node : ℕ} (hsz : sz ≤ heapSize) :
    fits heap (allocSize sz) node = true ↔
      Suitable (neededSize sz) (getSz heap node) := by
  have hsmall : sz + 16 ≤ 2 ^ 64 := by
    unfold heapSize at hsz
    omega
  have halloc := (allocSize_spec hsz).2.2.2
  have hwrap : wrap64 (allocSize sz + 32) = allocSize sz + 32 :=
    wrap64_of_lt (by unfold heapSize at halloc; omega)
  rw [fits, freeChunkMinSz_eq, hwrap, allocSize_eq hsmall, decide_eq_true_iff, Suitable]

/-- The search ends, and a block is returned exactly if some free chunk is suitable.
The block is the start of the first suitable chunk on the freelist, and its chunk has
the needed size.  Otherwise the panic is reached on the unchanged heap. -/
theorem kmalloc_first_fit {memory : Memory} {state : HeapState} {sz : ℕ}
    (hreachable : HeapReachable memory state) (hsz : sz ≤ heapSize) :
    (∃ found, kmallocSearch state.heap (allocSize sz) maxChunks state.heap.freelistHead =
      some found) ∧
    ((∃ heap' ptr, kmallocOutcome state.heap sz = some (.block heap' ptr)) ↔
      ∃ size ∈ freeSizes state.heap, Suitable (neededSize sz) size) ∧
    (∀ heap' ptr, kmallocOutcome state.heap sz = some (.block heap' ptr) →
      ∃ skipped node rest chunks' chunk',
        readNodes state.heap = some (skipped ++ node :: rest) ∧
        (∀ other ∈ skipped, ¬Suitable (neededSize sz) (getSz state.heap other)) ∧
        Suitable (neededSize sz) (getSz state.heap node) ∧
        ptr = node + wordSize ∧ readChunks heap' = some chunks' ∧
        (node, chunk') ∈ chunks' ∧ chunk'.free = false ∧
        chunk'.size = neededSize sz) ∧
    ((¬∃ size ∈ freeSizes state.heap, Suitable (neededSize sz) size) →
      kmallocOutcome state.heap sz = some (.outOfMemory state.heap)) := by
  obtain ⟨layout, htracks⟩ := hreachable.tracks
  have hrepresents := htracks.represents
  have hsmall : sz + 16 ≤ 2 ^ 64 := by
    unfold heapSize at hsz
    omega
  have hexists : (∃ size ∈ freeSizes state.heap, Suitable (neededSize sz) size) ↔
      kmallocOutcome state.heap sz ≠ some (.outOfMemory state.heap) := by
    have halloc := (allocSize_spec hsz).2.2.2
    have hwrap : wrap64 (allocSize sz + 32) = allocSize sz + 32 :=
      wrap64_of_lt (by unfold heapSize at halloc; omega)
    rw [ne_eq, kmallocOutcome_eq_outOfMemory_iff hrepresents, hwrap, allocSize_eq hsmall]
    push Not
    simp only [Suitable, or_iff_not_imp_left, ne_eq]
  refine ⟨⟨_, kmallocSearch_represents hrepresents⟩, ?_⟩
  rw [hexists]
  cases hfind : layout.freelist.find? (fits state.heap (allocSize sz)) with
  | none =>
      rw [kmallocOutcome_of_none hrepresents hfind]
      simp
  | some node =>
      obtain ⟨heap', layout', hrun, htakes⟩ := kmalloc_eq_some hrepresents hsz hfind
      have houtcome : kmallocOutcome state.heap sz = some (.block heap' (node + 8)) := by
        rw [kmallocOutcome_of_some hrepresents hfind, hrun]
        rfl
      rw [houtcome]
      refine ⟨by simp, ?_, by simp⟩
      intro _ _ hsame
      obtain ⟨rfl, rfl⟩ := KmallocOutcome.block.inj (Option.some.inj hsame)
      obtain ⟨hfits, skipped, rest, hfreelist, hskipped⟩ :=
        List.find?_eq_some_iff_append.mp hfind
      have hblock : (node, allocSize sz) ∈ usedBlocks heapStart layout'.chunks :=
        htakes.used.mem_iff.mpr List.mem_cons_self
      obtain ⟨chunk', hchunk', hused, hsize⟩ := mem_usedBlocks.mp hblock
      refine ⟨skipped, node, rest, _, chunk', ?_, ?_, ?_, rfl,
        htakes.represents.readChunks_eq, hchunk', hused, ?_⟩
      · rw [hrepresents.readNodes_eq, hfreelist]
      · intro other hother hsuitable
        have hfailed := hskipped other hother
        rw [(fits_iff_suitable hsz).mpr hsuitable] at hfailed
        exact absurd hfailed (by decide)
      · exact (fits_iff_suitable hsz).mp hfits
      · rw [hsize, allocSize_eq hsmall]

/-- A fresh heap serves a request for 100 bytes with a chunk of 112. -/
theorem kmalloc_first_fit_fresh :
    ∃ heap' chunks' chunk',
      kmallocOutcome (kmallocInit fun _ => 0) 100 =
        some (.block heap' (heapStart + wordSize)) ∧
      readChunks heap' = some chunks' ∧ (heapStart, chunk') ∈ chunks' ∧
      chunk'.free = false ∧ chunk'.size = 112 := by
  have hrepresents := kmallocInit_represents fun _ => 0
  obtain ⟨-, hreturns, hblock, -⟩ := kmalloc_first_fit
    (@HeapReachable.init fun _ => 0) (show 100 ≤ heapSize by decide)
  obtain ⟨heap', ptr, houtcome⟩ := hreturns.mpr ⟨heapSize,
    (mem_freeSizes hrepresents).mpr ⟨_, List.mem_cons_self, rfl, rfl⟩, Or.inr (by decide)⟩
  obtain ⟨skipped, node, rest, chunks', chunk', hnodes, -, -, rfl, hread, hchunk, hused,
    hsize⟩ := hblock heap' ptr houtcome
  have hlist : [heapStart] = skipped ++ node :: rest :=
    Option.some.inj (hrepresents.readNodes_eq.symm.trans hnodes)
  obtain rfl : node = heapStart := by
    apply List.mem_singleton.mp
    rw [hlist]
    simp
  exact ⟨heap', chunks', chunk', houtcome, hread, hchunk, hused, hsize⟩

/-- Releasing a block right after it was taken gives back the chunks with their flags
and the nodes of the freelist. -/
theorem kfree_undoes_kmalloc {memory : Memory} {state : HeapState} {sz ptr : ℕ}
    {heap₁ : Heap} (hreachable : HeapReachable memory state) (hsz : sz ≤ heapSize)
    (hrun : kmalloc state.heap sz = some (heap₁, ptr)) :
    ∃ heap₂ chunks nodes nodes₂, kfree heap₁ ptr = some heap₂ ∧
      readChunks state.heap = some chunks ∧ readChunks heap₂ = some chunks ∧
      readNodes state.heap = some nodes ∧ readNodes heap₂ = some nodes₂ ∧
      nodes.Nodup ∧ nodes₂.Nodup ∧ ∀ node, node ∈ nodes ↔ node ∈ nodes₂ := by
  obtain ⟨layout, htracks⟩ := hreachable.tracks
  have hrepresents := htracks.represents
  cases hfind : layout.freelist.find? (fits state.heap (allocSize sz)) with
  | none =>
      rw [kmalloc_eq_none hrepresents hfind] at hrun
      exact absurd hrun (by simp)
  | some address =>
      obtain ⟨heap', layout₁, hsome, htakes⟩ := kmalloc_eq_some hrepresents hsz hfind
      rw [hsome, Option.some.injEq, Prod.mk.injEq] at hrun
      obtain ⟨rfl, rfl⟩ := hrun
      obtain ⟨heap₂, layout₂, hkfree, hreleases⟩ := kfree_spec htakes.represents
        (htakes.used.mem_iff.mpr List.mem_cons_self)
      -- the used chunks are the old ones again, and they determine the partition
      have hused : (usedBlocks heapStart layout.chunks).Perm
          (usedBlocks heapStart layout₂.chunks) :=
        (htakes.used.symm.trans hreleases.used).cons_inv
      have hchunks : layout.chunks = layout₂.chunks := Layout.chunks_eq hused
      have hfreelist : layout.freelist.Perm layout₂.freelist :=
        layout.exact.trans (hchunks ▸ layout₂.exact.symm)
      exact ⟨heap₂, _, _, _, hkfree, hrepresents.readChunks_eq,
        hchunks ▸ hreleases.represents.readChunks_eq, hrepresents.readNodes_eq,
        hreleases.represents.readNodes_eq, layout.nodup, layout₂.nodup,
        fun node => hfreelist.mem_iff⟩

/-- On a fresh heap, with a block that is cut off the chunk and with one that takes it
whole. -/
theorem kfree_undoes_kmalloc_fresh :
    (∃ heap₁ heap₂ ptr, kmalloc (kmallocInit fun _ => 0) 100 = some (heap₁, ptr) ∧
      kfree heap₁ ptr = some heap₂ ∧
      readChunks heap₂ = some [(heapStart, ⟨heapSize, true, false⟩)]) ∧
    ∃ heap₁ heap₂ ptr,
      kmalloc (kmallocInit fun _ => 0) (heapSize - 8) = some (heap₁, ptr) ∧
      kfree heap₁ ptr = some heap₂ ∧
      readChunks heap₂ = some [(heapStart, ⟨heapSize, true, false⟩)] := by
  have hrepresents := kmallocInit_represents fun _ => 0
  have hfresh : ∀ sz ≤ heapSize, Suitable (allocSize sz) heapSize →
      ∃ heap₁ heap₂ ptr, kmalloc (kmallocInit fun _ => 0) sz = some (heap₁, ptr) ∧
        kfree heap₁ ptr = some heap₂ ∧
        readChunks heap₂ = some [(heapStart, ⟨heapSize, true, false⟩)] := by
    intro sz hsz hsuitable
    have hfind : initialLayout.freelist.find?
        (fits (kmallocInit fun _ => 0) (allocSize sz)) = some heapStart := by
      apply List.find?_cons_of_pos
      rw [fits_eq (hrepresents.metadata List.mem_cons_self) (allocSize_spec hsz).2.2.2]
      exact decide_eq_true hsuitable
    obtain ⟨heap₁, -, hrun, -⟩ := kmalloc_eq_some hrepresents hsz hfind
    obtain ⟨heap₂, chunks, -, -, hkfree, hread, hread₂, -⟩ :=
      kfree_undoes_kmalloc HeapReachable.init hsz hrun
    obtain rfl := Option.some.inj (hrepresents.readChunks_eq.symm.trans hread)
    exact ⟨heap₁, heap₂, _, hrun, hkfree, hread₂⟩
  exact ⟨hfresh 100 (by decide) (Or.inr (by decide)),
    hfresh (heapSize - 8) (by decide) (Or.inl (by decide))⟩

/-! ## Requests that are too large -/

section Oversized

variable {sz : ℕ}

theorem neededSize_le : sz + 8 ≤ neededSize sz := by
  unfold neededSize
  omega

/-- The rounded size wraps to zero and is raised to the minimum. -/
theorem allocSize_of_wraps (hsz : sz < 2 ^ 64) (hwraps : 2 ^ 64 < sz + 16) :
    allocSize sz = 32 := by
  have hsmall : alignSz (wrap64 (sz + wordSize)) < 32 := by
    by_cases hheader : sz + 8 < 2 ^ 64
    · have hwrap : wrap64 (sz + wordSize) = sz + 8 := wrap64_of_lt hheader
      have hround : wrap64 (sz + 8 + (heapAlignment - 1)) < 8 := by
        unfold wrap64 heapAlignment
        omega
      rw [hwrap, alignSz]
      exact (Nat.and_le_left).trans_lt (hround.trans (by decide))
    · have hwrap : wrap64 (sz + wordSize) = sz + 8 - 2 ^ 64 := by
        unfold wrap64 wordSize
        omega
      rw [hwrap, alignSz_eq (by omega)]
      omega
  rw [allocSize, freeChunkMinSz_eq, if_pos hsmall]

end Oversized

/-- A request that the heap cannot hold ends in the panic, on the unchanged heap,
exactly if its sums do not wrap or no free chunk passes the wrapped test. -/
theorem kmalloc_oversized_iff {memory : Memory} {state : HeapState} {sz : ℕ}
    (hreachable : HeapReachable memory state) (hlarge : heapSize - 8 < sz)
    (hsz : sz < 2 ^ 64) :
    kmallocOutcome state.heap sz = some (.outOfMemory state.heap) ↔
      sz + 48 ≤ 2 ^ 64 ∨ (sz + 16 ≤ 2 ^ 64 ∧ freeSizes state.heap = []) ∨
        (2 ^ 64 < sz + 16 ∧ ∀ size ∈ freeSizes state.heap, size ≠ 32 ∧ size < 64) := by
  obtain ⟨layout, htracks⟩ := hreachable.tracks
  have hbounds : ∀ size ∈ freeSizes state.heap, 32 ≤ size ∧ size ≤ heapSize :=
    fun size hsize => freeSizes_bounds htracks.represents hsize
  rw [kmallocOutcome_eq_outOfMemory_iff htracks.represents]
  by_cases hwraps : 2 ^ 64 < sz + 16
  · have hwrap : wrap64 (32 + 32) = 64 := by decide
    rw [allocSize_of_wraps hsz hwraps, hwrap]
    constructor
    · exact fun hsizes => Or.inr (Or.inr ⟨hwraps, hsizes⟩)
    · rintro (hsmall | ⟨hsmall, -⟩ | ⟨-, hsizes⟩)
      · omega
      · omega
      · exact hsizes
  · have halloc := allocSize_eq (not_lt.mp hwraps)
    have hneed : neededSize sz = (sz + 15) / 8 * 8 := by
      unfold neededSize
      unfold heapSize at hlarge
      omega
    by_cases hsum : sz + 48 ≤ 2 ^ 64
    · have hwrap : wrap64 (neededSize sz + 32) = neededSize sz + 32 :=
        wrap64_of_lt (by omega)
      rw [halloc, hwrap]
      refine iff_of_true (fun size hsize => ?_) (Or.inl hsum)
      have hsize := (hbounds size hsize).2
      have hle := @neededSize_le sz
      omega
    · -- the sum with the minimum is below every chunk's size
      have hwrap : wrap64 (neededSize sz + 32) < 32 := by
        unfold wrap64
        omega
      rw [halloc]
      constructor
      · intro hsizes
        refine Or.inr (Or.inl ⟨not_lt.mp hwraps, List.eq_nil_iff_forall_not_mem.mpr ?_⟩)
        intro size hsize
        have hless := (hsizes size hsize).2
        have hmin := (hbounds size hsize).1
        omega
      · rintro (hsmall | ⟨-, hempty⟩ | ⟨hlargest, -⟩)
        · exact absurd hsmall hsum
        · simp [hempty]
        · exact absurd hlargest hwraps

/-- Half of the address space, from a fresh heap. -/
theorem kmalloc_oversized_fresh :
    kmallocOutcome (kmallocInit fun _ => 0) (2 ^ 63) =
      some (.outOfMemory (kmallocInit fun _ => 0)) :=
  (kmalloc_oversized_iff (@HeapReachable.init fun _ => 0) (by decide) (by decide)).mpr
    (Or.inl (by decide))

/-- The largest request that is a multiple of eight is served like one for no bytes at
all: the first chunk of a fresh heap is cut to 32 bytes. -/
theorem kmalloc_oversized_returns_block :
    ∃ heap' chunks', heapSize - 8 < 2 ^ 64 - 8 ∧
      HeapReachable (fun _ => 0) ⟨kmallocInit fun _ => 0, []⟩ ∧
      kmallocOutcome (kmallocInit fun _ => 0) (2 ^ 64 - 8) =
        some (.block heap' (heapStart + 8)) ∧
      readChunks heap' = some chunks' ∧
      ∃ chunk', (heapStart, chunk') ∈ chunks' ∧ chunk'.free = false ∧
        chunk'.size = 32 := by
  have hrepresents := kmallocInit_represents fun _ => 0
  have hsame : allocSize (2 ^ 64 - 8) = allocSize 0 := by decide
  have hequal : kmalloc (kmallocInit fun _ => 0) (2 ^ 64 - 8) =
      kmalloc (kmallocInit fun _ => 0) 0 := by
    rw [kmalloc, kmalloc, hsame]
  obtain ⟨heap', layout', hrun, htakes⟩ := kmalloc_from_head hrepresents
    (show 0 ≤ heapSize by decide) rfl List.mem_cons_self (by decide)
  have hfind : initialLayout.freelist.find?
      (fits (kmallocInit fun _ => 0) (allocSize (2 ^ 64 - 8))) = some heapStart := by
    apply List.find?_cons_of_pos
    rw [hsame, fits_eq (hrepresents.metadata List.mem_cons_self) (by decide)]
    decide
  obtain ⟨chunk', hchunk, hused, hsize⟩ :=
    mem_usedBlocks.mp (htakes.used.mem_iff.mpr List.mem_cons_self)
  refine ⟨heap', _, by decide, HeapReachable.init, ?_, htakes.represents.readChunks_eq,
    chunk', hchunk, hused, hsize⟩
  rw [kmallocOutcome_of_some hrepresents hfind, hequal, hrun]
  rfl

end Flurry.Kmalloc
