import Flurry.Memory.KmallocRequests
import Flurry.Memory.KmallocRuns

/-!
# Code that uses the heap

A client of the heap reads and writes words in its blocks.  An access outside the live
blocks and the release of something that is not a live block are undefined; the
out-of-memory panic is the only other way not to return.  The rules below say what a
client that knows which blocks are live may rely on.
-/

namespace Flurry.Kmalloc

open ByteMemory

/-- Why a call does not return. -/
inductive Stop where
  /-- `kpanic("Kheap out of memory")` -/
  | outOfMemory
  /-- use of memory that is not the caller's -/
  | undefined
  deriving DecidableEq, Repr

/-! ## Calls -/

namespace HeapState

def kmalloc (state : HeapState) (sz : ℕ) : Except Stop (HeapState × ℕ) :=
  match kmallocOutcome state.heap sz with
  | some (.block heap ptr) => .ok ({ heap := heap, live := ⟨ptr, sz⟩ :: state.live }, ptr)
  | some (.outOfMemory _) => .error .outOfMemory
  | none => .error .undefined

def kfree (state : HeapState) (ptr : ℕ) : Except Stop HeapState :=
  if ∃ block ∈ state.live, block.ptr = ptr then
    match Kmalloc.kfree state.heap ptr with
    | some heap =>
        .ok { heap := heap, live := state.live.filter fun block => block.ptr ≠ ptr }
    | none => .error .undefined
  else .error .undefined

/-- The bytes lie in a live block. -/
def Accessible (state : HeapState) (address width : ℕ) : Prop :=
  ∃ block ∈ state.live, block.ptr ≤ address ∧ address + width ≤ block.ptr + block.sz

instance (state : HeapState) (address width : ℕ) : Decidable (state.Accessible address width) :=
  inferInstanceAs (Decidable (∃ block ∈ state.live, _))

def loadWord (state : HeapState) (address : ℕ) : Except Stop ℕ :=
  if state.Accessible address 8 then .ok (state.heap.load address) else .error .undefined

/-- The state with other bytes in memory. -/
def withMemory (state : HeapState) (memory : Memory) : HeapState :=
  { state with heap := { state.heap with memory := memory } }

def storeBytes (state : HeapState) (width address value : ℕ) : Except Stop HeapState :=
  if state.Accessible address width then
    .ok (state.withMemory (store state.heap.memory width address value))
  else .error .undefined

def storeWord (state : HeapState) (address value : ℕ) : Except Stop HeapState :=
  state.storeBytes 8 address value

end HeapState

/-! ## Results -/

/-- The call returns with the given property, or it ends in the out-of-memory panic. -/
def Returns {Result : Type} (call : Except Stop Result) (post : Result → Prop) : Prop :=
  match call with
  | .ok result => post result
  | .error stop => stop = .outOfMemory

namespace Returns

variable {Result Next : Type} {call : Except Stop Result} {post : Result → Prop}

theorem ok {result : Result} (hpost : post result) : Returns (.ok result) post := hpost

theorem bind {rest : Result → Except Stop Next} {post' : Next → Prop}
    (hcall : Returns call post) (hrest : ∀ result, post result → Returns (rest result) post') :
    Returns (call >>= rest) post' := by
  cases call with
  | ok result => exact hrest result hcall
  | error stop => exact hcall

theorem mono {post' : Result → Prop} (hcall : Returns call post)
    (himp : ∀ result, post result → post' result) : Returns call post' := by
  cases call with
  | ok result => exact himp result hcall
  | error stop => exact hcall

end Returns

@[simp]
theorem ok_bind {Result Next : Type} (result : Result) (rest : Result → Except Stop Next) :
    (Except.ok result >>= rest) = rest result := rfl

/-! ## Rules -/

/-- The blocks do not meet. -/
def Block.Apart (block other : Block) : Prop :=
  block.ptr + block.sz ≤ other.ptr ∨ other.ptr + other.sz ≤ block.ptr

instance : Std.Symm Block.Apart := ⟨fun _ _ hapart => hapart.symm⟩

theorem PayloadKept.trans {block : Block} {heap heap' heap'' : Heap}
    (hfirst : PayloadKept block heap heap') (hsecond : PayloadKept block heap' heap'') :
    PayloadKept block heap heap'' :=
  fun target hlower hupper =>
    (hsecond target hlower hupper).trans (hfirst target hlower hupper)

theorem PayloadKept.load_eq {block : Block} {heap heap' : Heap} {address : ℕ}
    (hkept : PayloadKept block heap heap') (hlower : block.ptr ≤ address)
    (hupper : address + 8 ≤ block.ptr + block.sz) : heap'.load address = heap.load address :=
  load64_congr fun target hstart hend => hkept target (by omega) (by omega)

/-- What a write of a word to a block does to the aligned words, and to other blocks. -/
structure WordStored (block : Block) (address value : ℕ) (heap heap' : Heap) : Prop where
  words : ∀ other, other % 8 = 0 →
    heap'.load other = Function.update heap.load address value other
  kept : ∀ other : Block, block.Apart other → PayloadKept other heap heap'

/-- The heap is well formed and the live blocks are these. -/
structure HeapState.Owns (state : HeapState) (blocks : List Block) : Prop where
  tracks : ∃ layout, state.Tracks layout
  live : state.live.Perm blocks

namespace HeapState.Owns

variable {state : HeapState} {blocks : List Block} {block : Block}

theorem perm {blocks' : List Block} (howns : state.Owns blocks) (hperm : blocks.Perm blocks') :
    state.Owns blocks' :=
  ⟨howns.tracks, howns.live.trans hperm⟩

theorem init (memory : Memory) : HeapState.Owns ⟨kmallocInit memory, []⟩ [] :=
  ⟨HeapReachable.init.tracks, List.Perm.refl []⟩

theorem bounds (howns : state.Owns blocks) (hblock : block ∈ blocks) :
    block.ptr % 8 = 0 ∧ heapStart ≤ block.ptr ∧ block.ptr + block.sz ≤ heapEnd := by
  obtain ⟨layout, htracks⟩ := howns.tracks
  exact htracks.bounds (howns.live.mem_iff.mpr hblock)

theorem nodup (howns : state.Owns blocks) : (blocks.map Block.ptr).Nodup := by
  obtain ⟨layout, htracks⟩ := howns.tracks
  exact (howns.live.map Block.ptr).nodup_iff.mp htracks.nodup

theorem apart (howns : state.Owns blocks) : blocks.Pairwise Block.Apart := by
  obtain ⟨layout, htracks⟩ := howns.tracks
  have hne : blocks.Pairwise fun block other => block.ptr ≠ other.ptr :=
    List.pairwise_map.mp howns.nodup
  apply hne.imp_of_mem
  intro block other hblock hother hptr
  have hisolated := htracks.isolated (howns.live.mem_iff.mpr hblock)
    (howns.live.mem_iff.mpr hother) hptr
  unfold Isolated at hisolated
  unfold Block.Apart
  omega

theorem accessible (howns : state.Owns blocks) (hblock : block ∈ blocks) {address width : ℕ}
    (hlower : block.ptr ≤ address) (hupper : address + width ≤ block.ptr + block.sz) :
    state.Accessible address width :=
  ⟨block, howns.live.mem_iff.mpr hblock, hlower, hupper⟩

theorem loadWord (howns : state.Owns blocks) (hblock : block ∈ blocks) {address : ℕ}
    (hlower : block.ptr ≤ address) (hupper : address + 8 ≤ block.ptr + block.sz) :
    state.loadWord address = .ok (state.heap.load address) :=
  if_pos (howns.accessible hblock hlower hupper)

/-- A write into a live block. -/
theorem storeBytes (howns : state.Owns blocks) (hblock : block ∈ blocks)
    {width address : ℕ} (value : ℕ) (hlower : block.ptr ≤ address)
    (hupper : address + width ≤ block.ptr + block.sz) :
    ∃ state', state.storeBytes width address value = .ok state' ∧ state'.Owns blocks ∧
      state'.heap.memory = store state.heap.memory width address value := by
  obtain ⟨layout, htracks⟩ := howns.tracks
  refine ⟨_, if_pos (howns.accessible hblock hlower hupper), ⟨⟨layout, ?_⟩, howns.live⟩, rfl⟩
  exact htracks.write (howns.live.mem_iff.mpr hblock)
    ((AgreeOutside.refl _).store hlower hupper)

theorem storeWord (howns : state.Owns blocks) (hblock : block ∈ blocks) (address value : ℕ)
    (hlower : block.ptr ≤ address) (hupper : address + 8 ≤ block.ptr + block.sz)
    (haligned : address % 8 = 0) (hvalue : value < 2 ^ 64) :
    ∃ state', state.storeWord address value = .ok state' ∧ state'.Owns blocks ∧
      WordStored block address value state.heap state'.heap := by
  obtain ⟨state', hrun, howns', hmemory⟩ := howns.storeBytes hblock value hlower hupper
  refine ⟨state', hrun, howns', ?_, ?_⟩
  · intro other hother
    unfold Heap.load
    rw [hmemory]
    by_cases heq : other = address
    · rw [heq, Function.update_self]
      exact load64_store64_same hvalue
    · rw [Function.update_of_ne heq]
      exact load64_store64_of_disjoint (by omega)
  · intro other hapart target hstart hend
    rw [hmemory]
    unfold Block.Apart at hapart
    exact store_of_not_mem (by omega)

/-- A new block is added, and the others keep their bytes. -/
theorem kmalloc (howns : state.Owns blocks) {sz : ℕ} (hsz : sz ≤ heapSize) :
    Returns (state.kmalloc sz) fun result => result.1.Owns (⟨result.2, sz⟩ :: blocks) ∧
      ∀ block ∈ blocks, PayloadKept block state.heap result.1.heap := by
  obtain ⟨layout, htracks⟩ := howns.tracks
  cases hfind : layout.freelist.find? (Kmalloc.fits state.heap (allocSize sz)) with
  | none =>
      rw [HeapState.kmalloc, kmallocOutcome_of_none htracks.represents hfind]
      exact rfl
  | some address =>
      obtain ⟨heap, layout', hrun, -⟩ := kmalloc_eq_some htracks.represents hsz hfind
      obtain ⟨layout', htracks', hkept⟩ := htracks.kmalloc hsz hrun
      rw [HeapState.kmalloc, kmallocOutcome_of_some htracks.represents hfind, hrun]
      refine Returns.ok ⟨⟨⟨layout', htracks'⟩, howns.live.cons _⟩, ?_⟩
      intro block hblock
      exact htracks.payloadKept hkept (howns.live.mem_iff.mpr hblock) fun used hused _ => hused

/-- A block is given back, and the others keep their bytes. -/
theorem kfree (howns : state.Owns (block :: blocks)) :
    ∃ state', state.kfree block.ptr = .ok state' ∧ state'.Owns blocks ∧
      ∀ other ∈ blocks, PayloadKept other state.heap state'.heap := by
  obtain ⟨layout, htracks⟩ := howns.tracks
  have hlive : ∀ {other}, other ∈ block :: blocks → other ∈ state.live :=
    fun hother => howns.live.mem_iff.mpr hother
  have hne : ∀ other ∈ blocks, other.ptr ≠ block.ptr := by
    intro other hother
    have hnodup := (List.nodup_cons.mp howns.nodup).1
    exact ne_of_mem_of_not_mem (List.mem_map_of_mem hother) hnodup
  obtain ⟨heap, layout', hrun, htracks', hkept, hothers⟩ := htracks.kfree
    (hlive List.mem_cons_self)
  refine ⟨⟨heap, state.live.filter fun other => other.ptr ≠ block.ptr⟩, ?_,
    ⟨⟨layout', htracks'⟩, ?_⟩, ?_⟩
  · rw [HeapState.kfree, if_pos ⟨block, hlive List.mem_cons_self, rfl⟩, hrun]
  · apply (howns.live.filter _).trans
    rw [List.filter_cons_of_neg (by simp)]
    apply List.Perm.of_eq
    rw [List.filter_eq_self]
    intro other hother
    exact decide_eq_true (hne other hother)
  · intro other hother
    apply htracks.payloadKept hkept (hlive (List.mem_cons_of_mem block hother))
    intro used hused hptr
    exact hothers used hused (by
      have := hne other hother
      omega)

end HeapState.Owns

end Flurry.Kmalloc
