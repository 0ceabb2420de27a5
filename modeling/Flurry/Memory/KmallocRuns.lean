import Flurry.Memory.KmallocLayout

/-!
# Runs of the kernel heap

Clients call `kmalloc` and `kfree` and write to the blocks they hold.  In every
state reached from `kmalloc_init` the bytes of the heap are a well-formed
sequence of chunks with a well-formed freelist, and every block is out of reach
of the others.
-/

namespace Flurry.Kmalloc

open ByteMemory BitField CellLayout DoublyLinked

/-! ## Reading the heap back -/

/-- The addresses of the chunks from `addr` on, found by following the sizes;
`none` if they do not end at the end of the heap. -/
def walkChunks (heap : Heap) : ℕ → ℕ → Option (List ℕ)
  | 0, addr => if addr = heapEnd then some [] else none
  | fuel + 1, addr =>
      if addr = heapEnd then some []
      else if isInHeapBounds addr then
        (walkChunks heap fuel (wrap64 (addr + getSz heap addr))).map (addr :: ·)
      else none

/-- The nodes from `node` on, found by following `next`. -/
def walkFreelist (heap : Heap) : ℕ → ℕ → Option (List ℕ)
  | 0, node => if node = 0 then some [] else none
  | fuel + 1, node =>
      if node = 0 then some []
      else (walkFreelist heap fuel (heap.next node)).map (node :: ·)

/-- What holds for two neighbouring chunks. -/
structure Neighbours (heap : Heap) (left right : ℕ) : Prop where
  coalesced : ¬(getFlag heap left flagIsFree = true ∧
    getFlag heap right flagIsFree = true)
  prevFree : getFlag heap right flagIsPrevFree = getFlag heap left flagIsFree
  footer : getFlag heap left flagIsFree = true →
    heap.load (left + getSz heap left - 8) = getSz heap left

/-- The heap read from its bytes alone is well formed. -/
structure WellFormed (heap : Heap) (chunks nodes : List ℕ) : Prop where
  tiles : walkChunks heap maxChunks heapStart = some chunks
  sizes : ∀ chunk ∈ chunks, getSz heap chunk % 8 = 0 ∧ 32 ≤ getSz heap chunk
  first : getFlag heap heapStart flagIsPrevFree = false
  neighbours : chunks.IsChain (Neighbours heap)
  freelist : walkFreelist heap maxChunks heap.freelistHead = some nodes
  nodup : nodes.Nodup
  exact : ∀ chunk, chunk ∈ nodes ↔
    chunk ∈ chunks ∧ getFlag heap chunk flagIsFree = true
  head : ∀ node ∈ nodes.head?, heap.prev node = 0
  links : nodes.IsChain fun left right =>
    heap.next left = right ∧ heap.prev right = left

section WellFormed

variable {heap : Heap} {chunks : List Chunk} {start : ℕ}

theorem walkChunks_eq {fuel : ℕ} (hwritten : Written heap.memory start chunks)
    (hsizes : ∀ chunk ∈ chunks, SizeOk chunk)
    (hend : start + span Chunk.size chunks = heapEnd) (hstart : heapStart ≤ start)
    (hfuel : chunks.length ≤ fuel) :
    walkChunks heap fuel start = some ((place Chunk.size start chunks).map Prod.fst) := by
  induction chunks generalizing start fuel with
  | nil =>
      have hstart' : start = heapEnd := by simpa using hend
      cases fuel <;> simp [walkChunks, hstart', place]
  | cons chunk chunks ih =>
      have hsize := (hsizes chunk (by simp)).2
      rw [written_cons] at hwritten
      rw [span_cons] at hend
      have hin : isInHeapBounds start = true :=
        isInHeapBounds_iff.mpr ⟨hstart, by omega⟩
      cases fuel with
      | zero => simp at hfuel
      | succ fuel =>
          have hih := ih hwritten.2 (fun other hother => hsizes other (by simp [hother]))
            (by omega) (by omega) (by simpa using hfuel)
          rw [walkChunks, if_neg (by omega), if_pos hin,
            getSz_eq hwritten.1.metadata, wrap64_chunkEnd (by omega), hih]
          rfl

theorem isChain_neighbours {prevFree : Bool}
    (hwritten : Written heap.memory start chunks)
    (hsizes : ∀ chunk ∈ chunks, SizeOk chunk) (hflags : FlagsOk prevFree chunks)
    (hend : start + span Chunk.size chunks ≤ heapEnd) :
    ((place Chunk.size start chunks).map Prod.fst).IsChain (Neighbours heap) := by
  induction chunks generalizing start prevFree with
  | nil => exact List.IsChain.nil
  | cons left chunks ih =>
      cases chunks with
      | nil => exact List.IsChain.singleton start
      | cons right chunks =>
          have hsize := (hsizes right (by simp)).2
          rw [written_cons] at hwritten
          have hrest := ih hwritten.2 (fun other hother => hsizes other (by simp [hother]))
            hflags.2.2 (by rw [span_cons] at hend; omega)
          have hright := (written_cons.mp hwritten.2).1
          rw [span_cons, span_cons] at hend
          apply List.IsChain.cons_cons _ hrest
          have hleftFree : getFlag heap start flagIsFree = left.free :=
            getFlag_isFree hwritten.1.metadata
          have hleftSize : getSz heap start = left.size :=
            getSz_eq hwritten.1.metadata
          have hrightFree : getFlag heap (start + left.size) flagIsFree = right.free :=
            getFlag_isFree hright.metadata
          have hrightPrev : getFlag heap (start + left.size) flagIsPrevFree =
              right.prevFree :=
            getFlag_isPrevFree hright.metadata
          constructor
          · rw [hleftFree, hrightFree]
            exact hflags.2.2.2.1
          · rw [hleftFree, hrightPrev]
            exact hflags.2.2.1
          · rw [hleftFree, hleftSize]
            intro hfree
            exact hwritten.1.footer hfree (by omega)

theorem walkFreelist_eq {prev head fuel : ℕ} {nodes : List ℕ}
    (hsegment : Segment 8 heap.memory prev head nodes 0)
    (hpositive : ∀ node ∈ nodes, 0 < node) (hfuel : nodes.length ≤ fuel) :
    walkFreelist heap fuel head = some nodes := by
  induction nodes generalizing fuel prev head with
  | nil =>
      have hhead : head = 0 := hsegment
      cases fuel <;> simp [walkFreelist, hhead]
  | cons node nodes ih =>
      obtain ⟨rfl, -, hrest⟩ := hsegment
      have hnode := hpositive head (by simp)
      cases fuel with
      | zero => simp at hfuel
      | succ fuel =>
          have hih := ih hrest (fun other hother => hpositive other (by simp [hother]))
            (by simpa using hfuel)
          rw [walkFreelist, if_neg (by omega)]
          exact congrArg (Option.map (head :: ·)) hih

theorem isChain_links {prev head : ℕ} {nodes : List ℕ}
    (hsegment : Segment 8 heap.memory prev head nodes 0) :
    (∀ node ∈ nodes.head?, heap.prev node = prev) ∧
      nodes.IsChain fun left right =>
        heap.next left = right ∧ heap.prev right = left := by
  induction nodes generalizing prev head with
  | nil => exact ⟨by simp, List.IsChain.nil⟩
  | cons node nodes ih =>
      obtain ⟨rfl, hprev, hrest⟩ := hsegment
      obtain ⟨hhead, hchain⟩ := ih hrest
      have hfirst : ∀ other ∈ (head :: nodes).head?, heap.prev other = prev := by
        intro other hother
        rw [List.head?_cons, Option.mem_some_iff] at hother
        exact hother ▸ hprev
      cases nodes with
      | nil => exact ⟨hfirst, List.IsChain.singleton head⟩
      | cons next nodes =>
          have hnext : heap.next head = next := hrest.1
          exact ⟨hfirst, List.IsChain.cons_cons ⟨hnext, hhead next rfl⟩ hchain⟩

/-- The bytes of a heap that represents a layout are well formed. -/
theorem Heap.Represents.wellFormed {layout : Layout}
    (hrepresents : heap.Represents layout) :
    WellFormed heap ((place Chunk.size heapStart layout.chunks).map Prod.fst)
      layout.freelist := by
  have hwritten : Written heap.memory heapStart layout.chunks := hrepresents.written
  have hsizes := layout.tiling.sizes
  have hend : heapStart + span Chunk.size layout.chunks = heapEnd := by
    rw [layout.tiling.covers, heapEnd]
  have hmetadata : ∀ {address : ℕ} {chunk : Chunk},
      (address, chunk) ∈ place Chunk.size heapStart layout.chunks →
        Metadata (heap.load address) chunk :=
    fun hmem => hrepresents.metadata hmem
  have hlinks := isChain_links hrepresents.linked.segment
  constructor
  · exact walkChunks_eq hwritten hsizes hend le_rfl layout.tiling.length_le
  · intro address haddress
    obtain ⟨⟨address, chunk⟩, hmem, rfl⟩ := List.mem_map.mp haddress
    rw [getSz_eq (hmetadata hmem)]
    exact layout.tiling.size_of_mem hmem
  · have hflags := layout.flags
    have hcovers := layout.tiling.covers
    cases hchunks : layout.chunks with
    | nil => simp [hchunks, heapSize] at hcovers
    | cons chunk chunks =>
        rw [hchunks] at hflags
        rw [getFlag_isPrevFree (hmetadata (by simp [hchunks] :
          (heapStart, chunk) ∈ place Chunk.size heapStart layout.chunks))]
        exact hflags.1
  · exact isChain_neighbours hwritten hsizes layout.flags hend.le
  · exact walkFreelist_eq hrepresents.linked.segment
      (fun node hnode => (hrepresents.linked.bounds node hnode).1) layout.length_le
  · exact layout.nodup
  · intro address
    rw [layout.exact.mem_iff, freeAddresses, mem_addressesOf]
    constructor
    · rintro ⟨chunk, hmem, hfree⟩
      refine ⟨List.mem_map.mpr ⟨_, hmem, rfl⟩, ?_⟩
      rw [getFlag_isFree (hmetadata hmem), hfree]
    · rintro ⟨haddress, hfree⟩
      obtain ⟨⟨address, chunk⟩, hmem, rfl⟩ := List.mem_map.mp haddress
      rw [getFlag_isFree (hmetadata hmem)] at hfree
      exact ⟨chunk, hmem, hfree⟩
  · exact hlinks.1
  · exact hlinks.2

end WellFormed

/-! ## The heap after `kmalloc_init` -/

/-- One free chunk. -/
def initialLayout : Layout where
  chunks := [⟨heapSize, true, false⟩]
  freelist := [heapStart]
  tiling := ⟨by simp [SizeOk, heapSize], by simp⟩
  flags := by simp [FlagsOk]
  exact := List.Perm.refl _

theorem kmallocInit_represents (memory : Memory) :
    (kmallocInit memory).Represents initialLayout := by
  have hinit : kmallocInit memory =
      freelistAddNode (writeFree ⟨memory, 0⟩ heapStart heapSize) heapStart := rfl
  have hmetadata : Metadata ((writeFree ⟨memory, 0⟩ heapStart heapSize).load heapStart)
      ⟨heapSize, true, false⟩ :=
    writeFree_metadata (by decide) (by decide)
  have hholds : (writeFree ⟨memory, 0⟩ heapStart heapSize).Holds
      initialLayout.chunks [] := by
    constructor
    · rw [initialLayout, written_cons]
      exact ⟨⟨hmetadata, fun _ hend => absurd rfl hend⟩, written_nil⟩
    · exact ⟨rfl, by simp, List.Pairwise.nil⟩
  rw [hinit]
  exact hholds.addNode initialLayout.tiling (by simp [initialLayout, freeAddresses_cons])
    (by simp) (by simp)

/-! ## Runs -/

/-- A block a client holds: the pointer it got and the size it asked for. -/
structure Block where
  ptr : ℕ
  sz : ℕ
  deriving DecidableEq, Repr

/-- The heap and the blocks that are live. -/
structure HeapState where
  heap : Heap
  live : List Block

inductive HeapCall
  | kmalloc (sz : ℕ)
  | kfree (ptr : ℕ)
  | write (address : ℕ) (byte : Byte)

/-- What clients may do: ask for at most the heap's size, free a live block, and
write inside a live payload. -/
def HeapCall.Allowed (state : HeapState) : HeapCall → Prop
  | kmalloc sz => sz ≤ heapSize
  | kfree ptr => ∃ block ∈ state.live, block.ptr = ptr
  | write address _ =>
      ∃ block ∈ state.live, block.ptr ≤ address ∧ address < block.ptr + block.sz

/-- `none` if the call does not return. -/
def HeapCall.run (state : HeapState) : HeapCall → Option HeapState
  | kmalloc sz => do
      let (heap, ptr) ← Kmalloc.kmalloc state.heap sz
      some { heap := heap, live := ⟨ptr, sz⟩ :: state.live }
  | kfree ptr => do
      let heap ← Kmalloc.kfree state.heap ptr
      some { heap := heap, live := state.live.filter fun block => block.ptr ≠ ptr }
  | write address byte =>
      some { state with heap :=
        { state.heap with memory := Function.update state.heap.memory address byte } }

/-- The states that calls lead to from `kmalloc_init`. -/
inductive HeapReachable (memory : Memory) : HeapState → Prop
  | init : HeapReachable memory ⟨kmallocInit memory, []⟩
  | step {state next : HeapState} {call : HeapCall} :
      HeapReachable memory state → call.Allowed state → call.run state = some next →
        HeapReachable memory next

/-- The live blocks are the used chunks, and each request fits its chunk. -/
structure HeapState.Tracks (state : HeapState) (layout : Layout) : Prop where
  represents : state.heap.Represents layout
  live : (state.live.map Block.ptr).Perm
    ((usedBlocks heapStart layout.chunks).map fun used => used.1 + 8)
  fits : ∀ block ∈ state.live, ∃ used ∈ usedBlocks heapStart layout.chunks,
    block.ptr = used.1 + 8 ∧ block.sz + 8 ≤ used.2

/-- The payload of `block` and the header and payload of `other` do not meet. -/
def Isolated (block other : Block) : Prop :=
  block.ptr + block.sz ≤ other.ptr - wordSize ∨ other.ptr + other.sz ≤ block.ptr

/-! ### Used chunks of a layout -/

theorem map_fst_usedBlocks (start : ℕ) (chunks : List Chunk) :
    (usedBlocks start chunks).map Prod.fst =
      addressesOf Chunk.size (fun chunk => !chunk.free) start chunks := by
  induction chunks generalizing start with
  | nil => rfl
  | cons chunk chunks ih =>
      rw [usedBlocks_cons, addressesOf_cons, List.map_append, ih]
      cases chunk.free <;> rfl

namespace Layout

variable {layout : Layout} {used other : ℕ × ℕ}

theorem nodup_used (layout : Layout) :
    ((usedBlocks heapStart layout.chunks).map Prod.fst).Nodup := by
  rw [map_fst_usedBlocks]
  apply nodup_addressesOf
  intro chunk hchunk
  have := (layout.tiling.sizes chunk hchunk).2
  omega

theorem used_bounds (hused : used ∈ usedBlocks heapStart layout.chunks) :
    used.1 % 8 = 0 ∧ heapStart ≤ used.1 ∧ used.1 + used.2 ≤ heapEnd := by
  obtain ⟨chunk, hchunk, -, hsize⟩ := mem_usedBlocks.mp hused
  have hbounds := mem_place_bounds hchunk
  rw [layout.tiling.covers] at hbounds
  simp only [hsize] at hbounds
  obtain ⟨before, after, hsplit, haddress⟩ := exists_split_of_mem hchunk
  have haligned : span Chunk.size before % 8 = 0 := by
    apply span_mod_eight
    intro other hother
    exact layout.tiling.sizes other (by simp [hsplit, hother])
  have hstart : heapStart % 8 = 0 := by decide
  simp only at haddress
  exact ⟨by omega, hbounds⟩

/-- Two used chunks are the same one or lie apart. -/
theorem used_apart (hused : used ∈ usedBlocks heapStart layout.chunks)
    (hother : other ∈ usedBlocks heapStart layout.chunks) :
    used.1 = other.1 ∨ used.1 + used.2 ≤ other.1 ∨ other.1 + other.2 ≤ used.1 := by
  obtain ⟨chunk, hchunk, -, hsize⟩ := mem_usedBlocks.mp hused
  obtain ⟨chunk', hchunk', -, hsize'⟩ := mem_usedBlocks.mp hother
  rw [← hsize, ← hsize']
  rcases eq_or_apart hchunk hchunk' with heq | hapart
  · exact Or.inl ((Prod.mk.injEq ..).mp heq).1
  · exact Or.inr hapart

end Layout

/-! ### One call -/

namespace HeapState.Tracks

variable {state : HeapState} {layout : Layout}

theorem kmalloc (htracks : state.Tracks layout) {sz ptr : ℕ} {heap' : Heap}
    (hsz : sz ≤ heapSize) (hrun : Kmalloc.kmalloc state.heap sz = some (heap', ptr)) :
    ∃ layout', HeapState.Tracks ⟨heap', ⟨ptr, sz⟩ :: state.live⟩ layout' ∧
      PayloadsKept (usedBlocks heapStart layout.chunks) state.heap heap' := by
  cases hfind : layout.freelist.find? (Kmalloc.fits state.heap (allocSize sz)) with
  | none =>
      rw [kmalloc_eq_none htracks.represents hfind] at hrun
      exact absurd hrun (by simp)
  | some address =>
      obtain ⟨heap'', layout', hsome, htakes⟩ :=
        kmalloc_eq_some htracks.represents hsz hfind
      rw [hsome, Option.some.injEq, Prod.mk.injEq] at hrun
      obtain ⟨rfl, rfl⟩ := hrun
      have hmem : ∀ used, used ∈ usedBlocks heapStart layout'.chunks ↔
          used = (address, allocSize sz) ∨
            used ∈ usedBlocks heapStart layout.chunks := by
        intro used
        rw [htakes.used.mem_iff, List.mem_cons]
      refine ⟨layout', ⟨htakes.represents, ?_, ?_⟩, htakes.kept⟩
      · have hperm := (htakes.used.map fun used => used.1 + 8).symm
        exact (htracks.live.cons (address + 8)).trans hperm
      · intro block hblock
        rcases List.mem_cons.mp hblock with rfl | hblock
        · exact ⟨_, (hmem _).mpr (Or.inl rfl), rfl, (allocSize_spec hsz).2.2.1⟩
        · obtain ⟨used, hused, hfits⟩ := htracks.fits block hblock
          exact ⟨used, (hmem used).mpr (Or.inr hused), hfits⟩

theorem kfree (htracks : state.Tracks layout) {block : Block}
    (hblock : block ∈ state.live) :
    ∃ heap' layout', Kmalloc.kfree state.heap block.ptr = some heap' ∧
      HeapState.Tracks ⟨heap', state.live.filter fun other => other.ptr ≠ block.ptr⟩
        layout' ∧
      PayloadsKept (usedBlocks heapStart layout'.chunks) state.heap heap' ∧
        ∀ used ∈ usedBlocks heapStart layout.chunks, used.1 + 8 ≠ block.ptr →
          used ∈ usedBlocks heapStart layout'.chunks := by
  obtain ⟨⟨address, size⟩, hused, hptr, hsz⟩ := htracks.fits block hblock
  obtain ⟨heap', layout', hrun, hreleases⟩ := kfree_spec htracks.represents hused
  have hothers : ∀ used ∈ usedBlocks heapStart layout.chunks, used.1 + 8 ≠ block.ptr →
      used ∈ usedBlocks heapStart layout'.chunks := by
    intro used hmem hne
    rcases List.mem_cons.mp (hreleases.used.mem_iff.mp hmem) with rfl | hmem
    · exact absurd hptr.symm hne
    · exact hmem
  refine ⟨heap', layout', by rw [hptr, hrun], ⟨hreleases.represents, ?_, ?_⟩,
    hreleases.kept, hothers⟩
  · -- The released address occurs once among the used ones.
    have hnodup := layout.nodup_used
    rw [(hreleases.used.map Prod.fst).nodup_iff, List.map_cons,
      List.nodup_cons] at hnodup
    have hperm := (htracks.live.trans (hreleases.used.map fun used => used.1 + 8)).filter
      (fun ptr => decide (ptr ≠ block.ptr))
    have hlive : (state.live.filter fun other => other.ptr ≠ block.ptr).map Block.ptr =
        (state.live.map Block.ptr).filter fun ptr => ptr ≠ block.ptr := by
      rw [List.filter_map]
      rfl
    rw [hlive]
    apply hperm.trans
    rw [List.map_cons, List.filter_cons_of_neg (by simp [hptr])]
    apply List.Perm.of_eq
    rw [List.filter_eq_self]
    intro ptr hptr'
    obtain ⟨used, hmem, rfl⟩ := List.mem_map.mp hptr'
    have hne : used.1 ≠ address :=
      ne_of_mem_of_not_mem (List.mem_map_of_mem hmem) hnodup.1
    simp [hptr, hne]
  · intro other hother
    obtain ⟨hother, hne⟩ := List.mem_filter.mp hother
    obtain ⟨used, hmem, hfits⟩ := htracks.fits other hother
    exact ⟨used, hothers used hmem (by simpa [hfits.1] using hne), hfits⟩

/-- Writes inside the payload of a live block change nothing of the heap. -/
theorem write (htracks : state.Tracks layout) {block : Block} {memory' : Memory}
    (hblock : block ∈ state.live)
    (hagree : AgreeOutside block.ptr (block.ptr + block.sz) state.heap.memory memory') :
    HeapState.Tracks { state with heap := { state.heap with memory := memory' } }
      layout := by
  obtain ⟨⟨start, size⟩, hused, hptr, hsz⟩ := htracks.fits block hblock
  obtain ⟨chunk, hchunk, hfree, rfl⟩ := mem_usedBlocks.mp hused
  simp only at hptr hsz
  have hother : ∀ target, target < start + 8 ∨ start + chunk.size ≤ target →
      memory' target = state.heap.memory target := by
    intro target htarget
    exact hagree target (by omega)
  have hholds : state.heap.Holds layout.chunks layout.freelist := htracks.represents
  refine ⟨⟨?_, ?_⟩, htracks.live, htracks.fits⟩
  · intro entry hentry
    have hsize := (layout.tiling.size_of_mem hentry).2
    apply (hholds.written entry hentry).congr (by omega)
    · intro target _ _
      rcases eq_or_apart hchunk hentry with rfl | hleft | hright
      · exact hother target (by simp only at *; omega)
      · exact hother target (by simp only at *; omega)
      · exact hother target (by simp only at *; omega)
    · intro hentryFree target _ _
      rcases eq_or_apart hchunk hentry with rfl | hleft | hright
      · exact absurd (hfree.symm.trans hentryFree) (by simp)
      · exact hother target (by simp only at *; omega)
      · exact hother target (by simp only at *; omega)
  · apply hholds.linked.congr
    intro node hnode target htarget
    by_contra hchanged
    have hinside : start + 8 ≤ target ∧ target < start + chunk.size := by
      by_contra houtside
      exact hchanged (hother target (by omega))
    exact htarget (layout.tiling.outside_of_used hchunk hfree (layout.mem_free hnode)
      (by omega) hinside.2)

/-- Two live blocks are isolated from each other. -/
theorem isolated (htracks : state.Tracks layout) {block other : Block}
    (hblock : block ∈ state.live) (hother : other ∈ state.live)
    (hne : block.ptr ≠ other.ptr) : Isolated block other := by
  obtain ⟨used, hused, hptr, hsz⟩ := htracks.fits block hblock
  obtain ⟨used', hused', hptr', hsz'⟩ := htracks.fits other hother
  have hapart := layout.used_apart hused hused'
  unfold Isolated wordSize
  omega

theorem bounds (htracks : state.Tracks layout) {block : Block}
    (hblock : block ∈ state.live) :
    block.ptr % 8 = 0 ∧ heapStart ≤ block.ptr ∧ block.ptr + block.sz ≤ heapEnd := by
  obtain ⟨used, hused, hptr, hsz⟩ := htracks.fits block hblock
  have hbounds := layout.used_bounds hused
  omega

theorem nodup (htracks : state.Tracks layout) : (state.live.map Block.ptr).Nodup := by
  have hmap := layout.nodup_used.map (add_left_injective 8)
  rw [List.map_map] at hmap
  exact htracks.live.nodup_iff.mpr hmap

end HeapState.Tracks

/-! ### Whole runs -/

theorem tracks_step {state next : HeapState} {layout : Layout} {call : HeapCall}
    (htracks : state.Tracks layout) (hallowed : call.Allowed state)
    (hrun : call.run state = some next) : ∃ layout', next.Tracks layout' := by
  cases call with
  | kmalloc sz =>
      simp only [HeapCall.run, Option.bind_eq_bind, Option.bind_eq_some_iff] at hrun
      obtain ⟨⟨heap', ptr⟩, hkmalloc, hnext⟩ := hrun
      obtain ⟨layout', htracks', -⟩ := htracks.kmalloc hallowed hkmalloc
      exact ⟨layout', (Option.some.inj hnext) ▸ htracks'⟩
  | kfree ptr =>
      obtain ⟨block, hblock, rfl⟩ := hallowed
      obtain ⟨heap', layout', hkfree, htracks', -⟩ := htracks.kfree hblock
      simp only [HeapCall.run, hkfree] at hrun
      exact ⟨layout', (Option.some.inj hrun) ▸ htracks'⟩
  | write address byte =>
      obtain ⟨block, hblock, hlower, hupper⟩ := hallowed
      refine ⟨layout, (Option.some.inj hrun) ▸ htracks.write hblock ?_⟩
      intro target htarget
      exact Function.update_of_ne (by omega) ..

theorem HeapReachable.tracks {memory : Memory} {state : HeapState}
    (hreachable : HeapReachable memory state) : ∃ layout, state.Tracks layout := by
  induction hreachable with
  | init =>
      exact ⟨initialLayout, kmallocInit_represents memory, List.Perm.refl _, by simp⟩
  | step _ hallowed hrun ih =>
      obtain ⟨layout, htracks⟩ := ih
      exact tracks_step htracks hallowed hrun

/-- In every state the heap read from its bytes is well formed. -/
theorem heap_wellFormed_of_reachable {memory : Memory} {state : HeapState}
    (hreachable : HeapReachable memory state) :
    ∃ chunks nodes, WellFormed state.heap chunks nodes := by
  obtain ⟨layout, htracks⟩ := hreachable.tracks
  exact ⟨_, _, htracks.represents.wellFormed⟩

/-- A first chunk of the freelist with room for the block and another chunk is taken. -/
theorem kmalloc_from_head {heap : Heap} {layout : Layout} {sz address : ℕ}
    {nodes : List ℕ} {chunk : Chunk} (hrepresents : heap.Represents layout)
    (hsz : sz ≤ heapSize) (hfreelist : layout.freelist = address :: nodes)
    (hchunk : (address, chunk) ∈ place Chunk.size heapStart layout.chunks)
    (hroom : allocSize sz + 32 ≤ chunk.size) :
    ∃ heap' layout', kmalloc heap sz = some (heap', address + 8) ∧
      Takes (address, allocSize sz) heap heap' layout layout' := by
  have hfits : Kmalloc.fits heap (allocSize sz) address = true := by
    rw [fits_eq (hrepresents.metadata hchunk) (allocSize_spec hsz).2.2.2]
    exact decide_eq_true (Or.inr hroom)
  apply kmalloc_eq_some hrepresents hsz
  rw [hfreelist]
  exact List.find?_cons_of_pos hfits

/-- A run that takes a block of 100 bytes from a fresh heap. -/
theorem reachable_after_kmalloc (memory : Memory) :
    ∃ heap, HeapReachable memory ⟨heap, [⟨heapStart + 8, 100⟩]⟩ := by
  obtain ⟨heap, layout', hrun, -⟩ := kmalloc_from_head (kmallocInit_represents memory)
    (show 100 ≤ heapSize by decide) rfl List.mem_cons_self (by decide)
  refine ⟨heap, HeapReachable.init.step (show (HeapCall.kmalloc 100).Allowed _ from
    show 100 ≤ heapSize by decide) ?_⟩
  simp [HeapCall.run, hrun]

theorem heap_wellFormed_after_kmalloc :
    ∃ heap, HeapReachable (fun _ => 0) ⟨heap, [⟨heapStart + 8, 100⟩]⟩ ∧
      ∃ chunks nodes, WellFormed heap chunks nodes := by
  obtain ⟨heap, hreachable⟩ := reachable_after_kmalloc fun _ => 0
  exact ⟨heap, hreachable, heap_wellFormed_of_reachable hreachable⟩

/-- The payload of a block has the same bytes in both heaps. -/
def PayloadKept (block : Block) (heap heap' : Heap) : Prop :=
  ∀ target, block.ptr ≤ target → target < block.ptr + block.sz →
    heap'.memory target = heap.memory target

theorem HeapState.Tracks.payloadKept {state : HeapState} {layout : Layout}
    {blocks : List (ℕ × ℕ)} {heap' : Heap} {block : Block} (htracks : state.Tracks layout)
    (hkept : PayloadsKept blocks state.heap heap') (hblock : block ∈ state.live)
    (hblocks : ∀ used ∈ usedBlocks heapStart layout.chunks, used.1 + 8 = block.ptr →
      used ∈ blocks) :
    PayloadKept block state.heap heap' := by
  obtain ⟨used, hused, hptr, hsz⟩ := htracks.fits block hblock
  intro target hlower hupper
  exact hkept used (hblocks used hused hptr.symm) target (by omega) (by omega)

/-- In every state the live blocks are aligned, inside the heap and isolated from
each other, and no call of the allocator touches a block that stays live. -/
theorem live_blocks_isolated {memory : Memory} {state : HeapState}
    (hreachable : HeapReachable memory state) :
    (state.live.map Block.ptr).Nodup ∧
    (∀ block ∈ state.live, block.ptr % 8 = 0 ∧ heapStart ≤ block.ptr ∧
      block.ptr + block.sz ≤ heapEnd) ∧
    (∀ block ∈ state.live, ∀ other ∈ state.live, block.ptr ≠ other.ptr →
      Isolated block other) ∧
    (∀ sz heap' ptr, sz ≤ heapSize → kmalloc state.heap sz = some (heap', ptr) →
      ∀ block ∈ state.live, PayloadKept block state.heap heap') ∧
    (∀ freed ∈ state.live, ∀ heap', kfree state.heap freed.ptr = some heap' →
      ∀ block ∈ state.live, block.ptr ≠ freed.ptr →
        PayloadKept block state.heap heap') := by
  obtain ⟨layout, htracks⟩ := hreachable.tracks
  refine ⟨htracks.nodup, fun block hblock => htracks.bounds hblock,
    fun block hblock other hother hne => htracks.isolated hblock hother hne, ?_, ?_⟩
  · intro sz heap' ptr hsz hrun block hblock
    obtain ⟨layout', -, hkept⟩ := htracks.kmalloc hsz hrun
    exact htracks.payloadKept hkept hblock fun used hused _ => hused
  · intro freed hfreed heap' hrun block hblock hne
    obtain ⟨heap'', layout', hrun', -, hkept, hothers⟩ := htracks.kfree hfreed
    obtain rfl : heap'' = heap' := Option.some.inj (hrun'.symm.trans hrun)
    apply htracks.payloadKept hkept hblock
    intro used hused hptr
    exact hothers used hused (by omega)

theorem live_blocks_isolated_after_kmalloc :
    ∃ heap, HeapReachable (fun _ => 0) ⟨heap, [⟨heapStart + 8, 100⟩]⟩ ∧
      ∀ sz heap' ptr, sz ≤ heapSize → kmalloc heap sz = some (heap', ptr) →
        PayloadKept ⟨heapStart + 8, 100⟩ heap heap' := by
  obtain ⟨heap, hreachable⟩ := reachable_after_kmalloc fun _ => 0
  refine ⟨heap, hreachable, ?_⟩
  intro sz heap' ptr hsz hrun
  exact (live_blocks_isolated hreachable).2.2.2.1 sz heap' ptr hsz hrun _ (by simp)

end Flurry.Kmalloc
