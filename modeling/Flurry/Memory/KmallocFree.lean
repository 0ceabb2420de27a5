import Flurry.Memory.KmallocRuns

/-!
# The order in which blocks are released

No two neighbouring chunks are free, so what is free between two used chunks is
one chunk, and the used chunks alone determine the partition.  Releasing blocks
removes them from the used chunks, whatever the order; the four ways in which
`kfree` merges chunks need not be looked at again.
-/

namespace Flurry.Kmalloc

open ByteMemory BitField CellLayout DoublyLinked

/-! ## Used chunks determine the partition -/

section Unique

variable {chunks chunks' : List Chunk} {start : ℕ} {prevFree : Bool}

theorem le_of_mem_usedBlocks {used : ℕ × ℕ} (hused : used ∈ usedBlocks start chunks) :
    start ≤ used.1 := by
  obtain ⟨chunk, hchunk, -, -⟩ := mem_usedBlocks.mp hused
  exact (mem_place_bounds hchunk).1

/-- A free chunk is followed by a used one or by nothing. -/
theorem FlagsOk.head_used (hflags : FlagsOk true chunks) :
    chunks = [] ∨ ∃ chunk rest, chunks = chunk :: rest ∧ chunk.free = false := by
  cases chunks with
  | nil => exact Or.inl rfl
  | cons chunk rest =>
      refine Or.inr ⟨chunk, rest, rfl, ?_⟩
      have hapart := hflags.2.1
      cases hfree : chunk.free with
      | false => rfl
      | true => exact absurd ⟨rfl, hfree⟩ hapart

/-- Two free chunks that start at one address and are followed by the same used chunks
have the same size. -/
theorem size_eq_of_free {size size' : ℕ} (hflags : FlagsOk true chunks)
    (hflags' : FlagsOk true chunks')
    (hspan : size + span Chunk.size chunks = size' + span Chunk.size chunks')
    (hused : usedBlocks (start + size) chunks = usedBlocks (start + size') chunks') :
    size = size' := by
  rcases hflags.head_used with rfl | ⟨chunk, rest, rfl, hfree⟩ <;>
    rcases hflags'.head_used with rfl | ⟨chunk', rest', rfl, hfree'⟩
  · simpa using hspan
  · simp [usedBlocks_cons, hfree'] at hused
  · simp [usedBlocks_cons, hfree] at hused
  · simp only [usedBlocks_cons, hfree, hfree', Bool.false_eq_true, if_false,
      List.singleton_append, List.cons.injEq, Prod.mk.injEq] at hused
    omega

theorem chunks_unique (hsizes : ∀ chunk ∈ chunks, SizeOk chunk)
    (hsizes' : ∀ chunk ∈ chunks', SizeOk chunk) (hflags : FlagsOk prevFree chunks)
    (hflags' : FlagsOk prevFree chunks')
    (hspan : span Chunk.size chunks = span Chunk.size chunks')
    (hused : usedBlocks start chunks = usedBlocks start chunks') : chunks = chunks' := by
  induction chunks generalizing chunks' start prevFree with
  | nil =>
      cases chunks' with
      | nil => rfl
      | cons chunk' rest' =>
          have hsize := (hsizes' chunk' List.mem_cons_self).2
          rw [span_nil, span_cons] at hspan
          omega
  | cons chunk rest ih =>
      have hsize := (hsizes chunk List.mem_cons_self).2
      cases chunks' with
      | nil =>
          rw [span_nil, span_cons] at hspan
          omega
      | cons chunk' rest' =>
          have hsize' := (hsizes' chunk' List.mem_cons_self).2
          obtain ⟨hprev, -, hrest⟩ := hflags
          obtain ⟨hprev', -, hrest'⟩ := hflags'
          rw [span_cons, span_cons] at hspan
          rw [usedBlocks_cons, usedBlocks_cons] at hused
          -- the first chunks are both free or both used, and of one size
          have hsame : chunk.free = chunk'.free ∧ chunk.size = chunk'.size ∧
              usedBlocks (start + chunk.size) rest =
                usedBlocks (start + chunk.size) rest' := by
            cases hfree : chunk.free <;> cases hfree' : chunk'.free <;>
              simp only [hfree, hfree', Bool.false_eq_true, if_true, if_false,
                List.nil_append, List.singleton_append] at hused hrest hrest'
            · obtain ⟨hfirst, hlater⟩ := List.cons.inj hused
              have heq : chunk.size = chunk'.size := (Prod.mk.inj hfirst).2
              exact ⟨rfl, heq, heq ▸ hlater⟩
            · have hfirst : (start, chunk.size) ∈ usedBlocks (start + chunk'.size) rest' :=
                hused ▸ List.mem_cons_self
              have hlower := le_of_mem_usedBlocks hfirst
              dsimp only at hlower
              omega
            · have hfirst : (start, chunk'.size) ∈ usedBlocks (start + chunk.size) rest :=
                hused ▸ List.mem_cons_self
              have hlower := le_of_mem_usedBlocks hfirst
              dsimp only at hlower
              omega
            · have heq := size_eq_of_free hrest hrest' hspan hused
              exact ⟨rfl, heq, heq ▸ hused⟩
          obtain ⟨hfree, hequal, hlater⟩ := hsame
          have htail : rest = rest' := by
            apply ih (fun other hother => hsizes other (List.mem_cons_of_mem chunk hother))
              (fun other hother => hsizes' other (List.mem_cons_of_mem chunk' hother))
              hrest (hfree ▸ hrest') (by omega) hlater
          have hhead : chunk = chunk' := by
            cases chunk
            cases chunk'
            simp only at hfree hequal hprev hprev'
            rw [hfree, hequal, hprev, hprev']
          rw [hhead, htail]

/-- Used chunks are listed by address. -/
theorem pairwise_usedBlocks (hsizes : ∀ chunk ∈ chunks, SizeOk chunk) :
    (usedBlocks start chunks).Pairwise fun left right => left.1 < right.1 := by
  induction chunks generalizing start with
  | nil => exact List.Pairwise.nil
  | cons chunk rest ih =>
      have hsize := (hsizes chunk List.mem_cons_self).2
      have hrest := @ih (start + chunk.size) fun other hother =>
        hsizes other (List.mem_cons_of_mem chunk hother)
      rw [usedBlocks_cons]
      cases chunk.free with
      | true => exact hrest
      | false =>
          apply List.Pairwise.cons _ hrest
          intro used hused
          have hlower := le_of_mem_usedBlocks hused
          dsimp only
          omega

end Unique

/-- Layouts with the same used chunks have the same chunks. -/
theorem Layout.chunks_eq {layout layout' : Layout}
    (hused : (usedBlocks heapStart layout.chunks).Perm
      (usedBlocks heapStart layout'.chunks)) : layout.chunks = layout'.chunks := by
  apply chunks_unique layout.tiling.sizes layout'.tiling.sizes layout.flags layout'.flags
  · rw [layout.tiling.covers, layout'.tiling.covers]
  · apply hused.eq_of_pairwise _ (pairwise_usedBlocks layout.tiling.sizes)
      (pairwise_usedBlocks layout'.tiling.sizes)
    intro left right _ _ hless hmore
    omega

/-! ## Free bytes -/

/-- The byte belongs to a free chunk. -/
def IsFreeByte (chunks : List (ℕ × Chunk)) (byte : ℕ) : Prop :=
  ∃ entry ∈ chunks, entry.2.free = true ∧ entry.1 ≤ byte ∧ byte < entry.1 + entry.2.size

/-- The bytes from `first` up to `stop` are free and cannot be extended. -/
structure FreeRun (chunks : List (ℕ × Chunk)) (first stop : ℕ) : Prop where
  nonempty : first < stop
  free : ∀ byte, first ≤ byte → byte < stop → IsFreeByte chunks byte
  left : ∀ byte, byte + 1 = first → ¬IsFreeByte chunks byte
  right : ¬IsFreeByte chunks stop

section FreeRuns

variable {chunks : List Chunk} {start : ℕ} {entry other : ℕ × Chunk}

/-- A free chunk does not end where another begins. -/
theorem not_adjacent {prevFree : Bool} (hsizes : ∀ chunk ∈ chunks, SizeOk chunk)
    (hflags : FlagsOk prevFree chunks) (hentry : entry ∈ place Chunk.size start chunks)
    (hother : other ∈ place Chunk.size start chunks) (hfree : entry.2.free = true)
    (hotherFree : other.2.free = true) : entry.1 + entry.2.size ≠ other.1 := by
  intro hadjacent
  obtain ⟨before, after, rfl, haddress⟩ := exists_split_of_mem hentry
  have hafter : FlagsOk true after := by
    rw [flagsOk_append] at hflags
    exact hfree ▸ hflags.2.2.2
  have hsize := (hsizes entry.2 (by simp)).2
  rw [place_append, place_cons, ← haddress] at hother
  -- only the chunk right after `entry` starts at its end
  rcases List.mem_append.mp hother with hbefore | hother
  · have hbounds := mem_place_bounds hbefore
    omega
  · rcases List.mem_cons.mp hother with rfl | hother
    · omega
    · rcases hafter.head_used with rfl | ⟨chunk, rest, rfl, hused⟩
      · simp [place] at hother
      · have hchunk := (hsizes chunk (by simp)).2
        rcases List.mem_cons.mp hother with rfl | hrest
        · exact absurd (hused.symm.trans hotherFree) (by simp)
        · have hlower := (mem_place_bounds hrest).1
          omega

/-- The maximal runs of free bytes are the free chunks. -/
theorem Layout.freeRun_iff (layout : Layout) {first stop : ℕ} :
    FreeRun (place Chunk.size heapStart layout.chunks) first stop ↔
      ∃ chunk, (first, chunk) ∈ place Chunk.size heapStart layout.chunks ∧
        chunk.free = true ∧ first + chunk.size = stop := by
  have hsizes := layout.tiling.sizes
  have hpositive : ∀ {entry}, entry ∈ place Chunk.size heapStart layout.chunks →
      32 ≤ entry.2.size := fun hentry => (layout.tiling.size_of_mem hentry).2
  have hafter : ∀ {entry}, entry ∈ place Chunk.size heapStart layout.chunks →
      entry.2.free = true →
        ¬IsFreeByte (place Chunk.size heapStart layout.chunks)
          (entry.1 + entry.2.size) := by
    rintro entry hentry hfree ⟨other, hother, hotherFree, hlower, hupper⟩
    have hapart := not_adjacent hsizes layout.flags hentry hother hfree hotherFree
    have hsize := hpositive hentry
    rcases eq_or_apart hentry hother with rfl | hright | hleft <;> omega
  have hbefore : ∀ {entry}, entry ∈ place Chunk.size heapStart layout.chunks →
      entry.2.free = true → ∀ byte, byte + 1 = entry.1 →
        ¬IsFreeByte (place Chunk.size heapStart layout.chunks) byte := by
    rintro entry hentry hfree byte hbyte ⟨other, hother, hotherFree, hlower, hupper⟩
    have hapart := not_adjacent hsizes layout.flags hother hentry hotherFree hfree
    have hsize := hpositive hentry
    rcases eq_or_apart hentry hother with rfl | hright | hleft <;> omega
  constructor
  · intro hrun
    obtain ⟨⟨address, chunk⟩, hchunk, hfree, hlower, hupper⟩ :=
      hrun.free first le_rfl hrun.nonempty
    simp only at hfree hlower hupper
    have hfirst : address = first := by
      by_contra hne
      exact hrun.left (first - 1) (by omega)
        ⟨_, hchunk, hfree, by simp only; omega, by simp only; omega⟩
    subst hfirst
    refine ⟨chunk, hchunk, hfree, le_antisymm ?_ ?_⟩
    · by_contra hless
      exact hrun.right ⟨_, hchunk, hfree, hrun.nonempty.le, by simpa using hless⟩
    · by_contra hmore
      exact hafter hchunk hfree
        (hrun.free (address + chunk.size) (by omega) (by omega))
  · rintro ⟨chunk, hchunk, hfree, rfl⟩
    constructor
    · exact Nat.lt_add_of_pos_right (lt_of_lt_of_le (by decide) (hpositive hchunk))
    · intro byte hlower hupper
      exact ⟨_, hchunk, hfree, hlower, hupper⟩
    · exact hbefore hchunk hfree
    · exact hafter hchunk hfree

end FreeRuns

/-! ## Releasing several blocks -/

/-- Releases the blocks one after another. -/
def kfreeAll (heap : Heap) (ptrs : List ℕ) : Option Heap := ptrs.foldlM kfree heap

/-- What the metadata word of a chunk says. -/
def readChunk (heap : Heap) (address : ℕ) : Chunk where
  size := getSz heap address
  free := getFlag heap address flagIsFree
  prevFree := getFlag heap address flagIsPrevFree

/-- The chunks with their addresses, read from the bytes. -/
def readChunks (heap : Heap) : Option (List (ℕ × Chunk)) :=
  (walkChunks heap maxChunks heapStart).map fun addresses =>
    addresses.map fun address => (address, readChunk heap address)

/-- The nodes of the freelist, read from the bytes. -/
def readNodes (heap : Heap) : Option (List ℕ) :=
  walkFreelist heap maxChunks heap.freelistHead

theorem Heap.Represents.readChunks_eq {heap : Heap} {layout : Layout}
    (hrepresents : heap.Represents layout) :
    readChunks heap = some (place Chunk.size heapStart layout.chunks) := by
  rw [readChunks, hrepresents.wellFormed.tiles, Option.map_some, List.map_map,
    Option.some.injEq]
  refine (List.map_congr_left (g := id) ?_).trans (List.map_id _)
  rintro ⟨address, chunk⟩ hchunk
  have hmetadata := hrepresents.metadata hchunk
  simp only [Function.comp_apply, readChunk, getSz_eq hmetadata,
    getFlag_isFree hmetadata, getFlag_isPrevFree hmetadata, id_eq]

theorem Heap.Represents.readNodes_eq {heap : Heap} {layout : Layout}
    (hrepresents : heap.Represents layout) : readNodes heap = some layout.freelist :=
  hrepresents.wellFormed.freelist

/-- Once the block is released, the used chunks are those that are not the block. -/
theorem Releases.used_eq {heap heap' : Heap} {layout layout' : Layout} {block : ℕ × ℕ}
    (hreleases : Releases block heap heap' layout layout') (ptrs : List ℕ) :
    ((usedBlocks heapStart layout.chunks).filter
        fun used => used.1 + 8 ∉ (block.1 + 8) :: ptrs).Perm
      ((usedBlocks heapStart layout'.chunks).filter fun used => used.1 + 8 ∉ ptrs) := by
  have hnodup := layout.nodup_used
  rw [(hreleases.used.map Prod.fst).nodup_iff, List.map_cons, List.nodup_cons] at hnodup
  apply (hreleases.used.filter _).trans
  rw [List.filter_cons_of_neg (by simp)]
  apply List.Perm.of_eq
  apply List.filter_congr
  intro used hused
  have hne : used.1 ≠ block.1 :=
    ne_of_mem_of_not_mem (List.mem_map_of_mem hused) hnodup.1
  simp [hne]

/-- Releasing blocks takes them out of the used chunks and nothing else. -/
theorem kfreeAll_spec {heap : Heap} {layout : Layout} {ptrs : List ℕ}
    (hrepresents : heap.Represents layout) (hnodup : ptrs.Nodup)
    (hptrs : ∀ ptr ∈ ptrs, ∃ used ∈ usedBlocks heapStart layout.chunks,
      ptr = used.1 + 8) :
    ∃ heap' layout', kfreeAll heap ptrs = some heap' ∧ heap'.Represents layout' ∧
      (usedBlocks heapStart layout'.chunks).Perm
        ((usedBlocks heapStart layout.chunks).filter fun used => used.1 + 8 ∉ ptrs) := by
  induction ptrs generalizing heap layout with
  | nil =>
      refine ⟨heap, layout, rfl, hrepresents, List.Perm.of_eq ?_⟩
      simp
  | cons ptr ptrs ih =>
      obtain ⟨hfresh, hlaterNodup⟩ := List.nodup_cons.mp hnodup
      obtain ⟨block, hblock, rfl⟩ := hptrs ptr List.mem_cons_self
      obtain ⟨heap₁, layout₁, hkfree, hreleases⟩ := kfree_spec hrepresents hblock
      have hlater : ∀ ptr ∈ ptrs, ∃ used ∈ usedBlocks heapStart layout₁.chunks,
          ptr = used.1 + 8 := by
        intro ptr hptr
        obtain ⟨used, hused, rfl⟩ := hptrs ptr (List.mem_cons_of_mem _ hptr)
        rcases List.mem_cons.mp (hreleases.used.mem_iff.mp hused) with rfl | hused
        · exact absurd hptr hfresh
        · exact ⟨used, hused, rfl⟩
      obtain ⟨heap', layout', hrun, hrepresents', hused⟩ :=
        ih hreleases.represents hlaterNodup hlater
      refine ⟨heap', layout', ?_, hrepresents', hused.trans ?_⟩
      · rw [kfreeAll, List.foldlM_cons, hkfree]
        exact hrun
      · exact (hreleases.used_eq ptrs).symm

/-- Freeing a set of live blocks succeeds in every order and always gives the same
chunks and freelist nodes, with every maximal run of free bytes in one chunk; if the
set is all live blocks, the heap is one free chunk again. -/
theorem kfreeAll_order_independent {memory : Memory} {state : HeapState}
    {ptrs ptrs' : List ℕ} (hreachable : HeapReachable memory state)
    (hnodup : ptrs.Nodup) (hlive : ∀ ptr ∈ ptrs, ∃ block ∈ state.live, block.ptr = ptr)
    (horder : ptrs.Perm ptrs') :
    ∃ heap heap' chunks nodes nodes',
      kfreeAll state.heap ptrs = some heap ∧ kfreeAll state.heap ptrs' = some heap' ∧
      readChunks heap = some chunks ∧ readChunks heap' = some chunks ∧
      readNodes heap = some nodes ∧ readNodes heap' = some nodes' ∧
      nodes.Nodup ∧ nodes'.Nodup ∧ (∀ node, node ∈ nodes ↔ node ∈ nodes') ∧
      (∀ first stop, FreeRun chunks first stop ↔ ∃ chunk, (first, chunk) ∈ chunks ∧
        chunk.free = true ∧ first + chunk.size = stop) ∧
      ((∀ block ∈ state.live, block.ptr ∈ ptrs) →
        chunks = [(heapStart, ⟨heapSize, true, false⟩)] ∧ nodes = [heapStart] ∧
          nodes' = [heapStart]) := by
  obtain ⟨layout, htracks⟩ := hreachable.tracks
  have hptrs : ∀ ptr ∈ ptrs, ∃ used ∈ usedBlocks heapStart layout.chunks,
      ptr = used.1 + 8 := by
    intro ptr hptr
    obtain ⟨block, hblock, rfl⟩ := hlive ptr hptr
    obtain ⟨used, hused, heq, -⟩ := htracks.fits block hblock
    exact ⟨used, hused, heq⟩
  obtain ⟨heap, layout₁, hrun, hrepresents, hused⟩ :=
    kfreeAll_spec htracks.represents hnodup hptrs
  obtain ⟨heap', layout₂, hrun', hrepresents', hused'⟩ :=
    kfreeAll_spec htracks.represents (horder.nodup_iff.mp hnodup)
      fun ptr hptr => hptrs ptr (horder.mem_iff.mpr hptr)
  -- both orders leave the same used chunks, hence the same partition
  have hchunks : layout₁.chunks = layout₂.chunks := by
    apply Layout.chunks_eq
    apply hused.trans
    simp only [horder.mem_iff]
    exact hused'.symm
  have hfreelist : layout₁.freelist.Perm layout₂.freelist :=
    layout₁.exact.trans (hchunks ▸ layout₂.exact.symm)
  refine ⟨heap, heap', _, _, _, hrun, hrun', hrepresents.readChunks_eq,
    hchunks ▸ hrepresents'.readChunks_eq, hrepresents.readNodes_eq,
    hrepresents'.readNodes_eq, layout₁.nodup, layout₂.nodup,
    fun node => hfreelist.mem_iff, fun _ _ => layout₁.freeRun_iff, ?_⟩
  intro hall
  have hnone : (usedBlocks heapStart layout.chunks).filter
      (fun used => used.1 + 8 ∉ ptrs) = [] := by
    rw [List.filter_eq_nil_iff]
    intro used husedMem
    have hptr : used.1 + 8 ∈ state.live.map Block.ptr :=
      htracks.live.mem_iff.mpr (List.mem_map_of_mem husedMem)
    obtain ⟨block, hblock, heq⟩ := List.mem_map.mp hptr
    simpa [← heq] using hall block hblock
  have hinitial : layout₁.chunks = initialLayout.chunks := by
    apply Layout.chunks_eq
    apply hused.trans
    rw [hnone]
    exact List.Perm.refl _
  have hnodes : layout₁.freelist = [heapStart] := by
    apply List.perm_singleton.mp
    apply layout₁.exact.trans
    rw [hinitial]
    exact initialLayout.exact.symm
  refine ⟨by rw [hinitial]; rfl, hnodes, ?_⟩
  exact List.perm_singleton.mp (hnodes ▸ hfreelist.symm)

/-! ## A heap that has only been taken from -/

/-- Used chunks of the given sizes, and the rest of the heap. -/
def bumpChunks (sizes : List ℕ) : List Chunk :=
  sizes.map (fun size => ⟨size, false, false⟩) ++ [⟨heapSize - sizes.sum, true, false⟩]

section Bump

variable {sizes : List ℕ} {start : ℕ}

theorem span_map_used : span Chunk.size (sizes.map fun size => ⟨size, false, false⟩) =
    sizes.sum := by
  rw [span, List.map_map]
  exact congrArg List.sum (List.map_id sizes)

theorem place_bumpChunks :
    (start + sizes.sum, ⟨heapSize - sizes.sum, true, false⟩) ∈
      place Chunk.size start (bumpChunks sizes) := by
  rw [bumpChunks, place_append, span_map_used]
  simp [place]

theorem usedBlocks_bumpChunks :
    usedBlocks start (bumpChunks sizes) =
      usedBlocks start (sizes.map fun size => ⟨size, false, false⟩) := by
  rw [bumpChunks, usedBlocks_append, usedBlocks_cons]
  simp

theorem usedBlocks_bumpChunks_append (size : ℕ) :
    usedBlocks start (bumpChunks (sizes ++ [size])) =
      usedBlocks start (bumpChunks sizes) ++ [(start + sizes.sum, size)] := by
  rw [usedBlocks_bumpChunks, usedBlocks_bumpChunks, List.map_append, usedBlocks_append,
    span_map_used, List.map_singleton, usedBlocks_cons]
  simp

theorem flagsOk_bumpChunks : FlagsOk false (bumpChunks sizes) := by
  rw [bumpChunks]
  generalize heapSize - sizes.sum = rest
  induction sizes with
  | nil => simp [FlagsOk]
  | cons size sizes ih => exact ⟨rfl, by simp, ih⟩

theorem freeAddresses_bumpChunks :
    freeAddresses start (bumpChunks sizes) = [start + sizes.sum] := by
  rw [bumpChunks]
  generalize heapSize - sizes.sum = rest
  induction sizes generalizing start with
  | nil => simp [freeAddresses, addressesOf, place]
  | cons size sizes ih =>
      rw [List.map_cons, List.cons_append, freeAddresses_cons, ih, List.sum_cons,
        Nat.add_assoc]
      rfl

end Bump

/-- The layout with these chunks. -/
def bumpLayout (sizes : List ℕ) (hsizes : ∀ size ∈ sizes, size % 8 = 0 ∧ 32 ≤ size)
    (hroom : sizes.sum + 32 ≤ heapSize) : Layout where
  chunks := bumpChunks sizes
  freelist := [heapStart + sizes.sum]
  tiling := by
    have hsum : sizes.sum % 8 = 0 := by
      apply Nat.mod_eq_zero_of_dvd
      exact List.dvd_sum fun size hsize => Nat.dvd_of_mod_eq_zero (hsizes size hsize).1
    have hheap : heapSize % 8 = 0 := by decide
    constructor
    · intro chunk hchunk
      rcases List.mem_append.mp hchunk with hused | hfree
      · obtain ⟨size, hsize, rfl⟩ := List.mem_map.mp hused
        exact hsizes size hsize
      · rw [List.mem_singleton.mp hfree]
        constructor <;> simp only <;> omega
    · rw [bumpChunks, span_append, span_map_used, span_cons, span_nil]
      simp only
      omega
  flags := flagsOk_bumpChunks
  exact := by rw [freeAddresses_bumpChunks]

/-- The state's chunks were taken one after another. -/
def HeapState.TracksBump (state : HeapState) (sizes : List ℕ) : Prop :=
  ∃ layout, state.Tracks layout ∧ layout.chunks = bumpChunks sizes

theorem tracksBump_init (memory : Memory) :
    HeapState.TracksBump ⟨kmallocInit memory, []⟩ [] :=
  ⟨initialLayout, ⟨kmallocInit_represents memory, List.Perm.refl _, by simp⟩, rfl⟩

/-- The next block is cut off the free chunk. -/
theorem HeapState.TracksBump.kmalloc {state : HeapState} {sizes : List ℕ} {sz : ℕ}
    (hbump : state.TracksBump sizes) (hsz : sz ≤ heapSize)
    (hroom : sizes.sum + allocSize sz + 32 ≤ heapSize) :
    ∃ heap', Kmalloc.kmalloc state.heap sz =
        some (heap', heapStart + sizes.sum + 8) ∧
      HeapState.TracksBump ⟨heap', ⟨heapStart + sizes.sum + 8, sz⟩ :: state.live⟩
        (sizes ++ [allocSize sz]) := by
  obtain ⟨layout, htracks, hchunks⟩ := hbump
  have hfreelist : layout.freelist = [heapStart + sizes.sum] := by
    apply List.perm_singleton.mp
    rw [← freeAddresses_bumpChunks, ← hchunks]
    exact layout.exact
  obtain ⟨heap', layout₁, hrun, htakes⟩ := kmalloc_from_head htracks.represents hsz
    hfreelist (by rw [hchunks]; exact place_bumpChunks) (by simp only; omega)
  obtain ⟨layout₂, htracks', -⟩ := htracks.kmalloc hsz hrun
  refine ⟨heap', hrun, layout₂, htracks', ?_⟩
  have hsizes : ∀ size ∈ sizes ++ [allocSize sz], size % 8 = 0 ∧ 32 ≤ size := by
    intro size hsize
    rcases List.mem_append.mp hsize with hold | hnew
    · apply layout.tiling.sizes ⟨size, false, false⟩
      rw [hchunks]
      exact List.mem_append_left _ (List.mem_map_of_mem hold)
    · rw [List.mem_singleton.mp hnew]
      exact ⟨(allocSize_spec hsz).2.1, (allocSize_spec hsz).1⟩
  have hsum : (sizes ++ [allocSize sz]).sum + 32 ≤ heapSize := by simpa using hroom
  -- both layouts are read from the same bytes
  have hsame : layout₂.chunks = layout₁.chunks := by
    have hread : place Chunk.size heapStart layout₂.chunks =
        place Chunk.size heapStart layout₁.chunks :=
      Option.some.inj (htracks'.represents.readChunks_eq.symm.trans
        htakes.represents.readChunks_eq)
    rw [← map_snd_place Chunk.size heapStart layout₂.chunks, hread, map_snd_place]
  rw [hsame]
  change layout₁.chunks = (bumpLayout _ hsizes hsum).chunks
  apply Layout.chunks_eq
  apply htakes.used.trans
  rw [hchunks]
  have hused : usedBlocks heapStart (bumpLayout _ hsizes hsum).chunks = _ :=
    usedBlocks_bumpChunks_append (allocSize sz)
  rw [hused]
  exact (List.perm_append_singleton _ _).symm

/-- Two blocks of 100 bytes taken from a fresh heap. -/
theorem reachable_two_blocks :
    ∃ heap, HeapReachable (fun _ => 0)
        ⟨heap, [⟨heapStart + 120, 100⟩, ⟨heapStart + 8, 100⟩]⟩ ∧
      HeapState.TracksBump ⟨heap, [⟨heapStart + 120, 100⟩, ⟨heapStart + 8, 100⟩]⟩
        [112, 112] := by
  have hsz : 100 ≤ heapSize := by decide
  obtain ⟨heap₁, hfirst, hbump₁⟩ := (tracksBump_init fun _ => 0).kmalloc hsz (by decide)
  obtain ⟨heap₂, hsecond, hbump₂⟩ := hbump₁.kmalloc hsz (by decide)
  have hone : HeapReachable (fun _ => 0) ⟨heap₁, [⟨heapStart + 8, 100⟩]⟩ :=
    HeapReachable.init.step (show (HeapCall.kmalloc 100).Allowed _ from hsz)
      (by rw [HeapCall.run, hfirst]; rfl)
  have htwo := hone.step (show (HeapCall.kmalloc 100).Allowed _ from hsz)
    (by rw [HeapCall.run, hsecond]; rfl)
  exact ⟨heap₂, htwo, hbump₂⟩

/-- Two blocks of a fresh heap, freed in the order of their addresses and against it. -/
theorem kfreeAll_two_blocks :
    ∃ state heap heap' chunk,
      HeapReachable (fun _ => 0) state ∧
      state.live = [⟨heapStart + 120, 100⟩, ⟨heapStart + 8, 100⟩] ∧
      kfreeAll state.heap [heapStart + 8, heapStart + 120] = some heap ∧
      kfreeAll state.heap [heapStart + 120, heapStart + 8] = some heap' ∧
      readChunks heap = some [(heapStart, chunk)] ∧
      readChunks heap' = some [(heapStart, chunk)] ∧
      chunk = ⟨heapSize, true, false⟩ := by
  obtain ⟨start, hreachable, -⟩ := reachable_two_blocks
  obtain ⟨heap, heap', chunks, nodes, nodes', hrun, hrun', hread, hread', -, -, -, -, -, -,
    hall⟩ := kfreeAll_order_independent hreachable
      (show [heapStart + 8, heapStart + 120].Nodup by simp) (by simp) (List.Perm.swap _ _ _)
  obtain ⟨rfl, -, -⟩ := hall (by simp)
  exact ⟨_, heap, heap', _, hreachable, rfl, hrun, hrun', hread, hread', rfl⟩

end Flurry.Kmalloc
