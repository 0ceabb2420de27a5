import Flurry.Core.LinkedQueue
import Flurry.Memory.KmallocClients

/-!
# The thread lists of `sched.c`

A `ThreadList` is a block with the first and the last node, and every node is a block
with a thread and the next node.  All of them are taken from the heap of `kmalloc.c`,
whose other clients use it at the same time.
-/

namespace Flurry.ThreadList

open ByteMemory Kmalloc LinkedQueue

/-- `sizeof(ThreadList)` and `sizeof(ThreadListNode)`. -/
def blockSize : ℕ := 16

def threadListNew (state : HeapState) : Except Stop (HeapState × ℕ) := do
  let (state, list) ← state.kmalloc blockSize
  let state ← state.storeWord list 0
  let state ← state.storeWord (list + 8) 0
  return (state, list)

/-- The part of `thread_list_add` that follows the initialisation of the node. -/
def linkNode (state : HeapState) (list node : ℕ) : Except Stop HeapState := do
  let head ← state.loadWord list
  if head = 0 then
    let state ← state.storeWord list node
    state.storeWord (list + 8) node
  else
    let tail ← state.loadWord (list + 8)
    let state ← state.storeWord (tail + 8) node
    state.storeWord (list + 8) node

def threadListAdd (state : HeapState) (list t : ℕ) : Except Stop HeapState := do
  let (state, node) ← state.kmalloc blockSize
  let state ← state.storeWord node t
  let state ← state.storeWord (node + 8) 0
  linkNode state list node

/-- `if (list->head == NULL) list->tail = NULL;` -/
def clearTail (state : HeapState) (list : ℕ) : Except Stop HeapState := do
  let head ← state.loadWord list
  if head = 0 then state.storeWord (list + 8) 0 else return state

def threadListGetNext (state : HeapState) (list : ℕ) : Except Stop (HeapState × ℕ) := do
  let head ← state.loadWord list
  if head = 0 then return (state, 0)
  else
    let next ← state.loadWord (head + 8)
    let state ← state.storeWord list next
    let state ← clearTail state list
    let t ← state.loadWord head
    let state ← state.kfree head
    return (state, t)

/-- The thread in the node that `thread_list_get_next` would take. -/
def threadListHead (state : HeapState) (list : ℕ) : Except Stop ℕ := do
  let head ← state.loadWord list
  if head = 0 then return 0 else state.loadWord head

/-! ## One list -/

/-- A thread, by the address of its structure. -/
structure Thread where
  address : ℕ
  ne_null : address ≠ 0
  address_lt : address < 2 ^ 64
  deriving DecidableEq, Repr

/-- The pointer that stands for a thread or for none. -/
def pointer : Option Thread → ℕ
  | none => 0
  | some thread => thread.address

/-- A list in the heap: its block, and its nodes with their threads. -/
structure View where
  list : ℕ
  cells : List (ℕ × Thread)

namespace View

def nodes (view : View) : List ℕ := view.cells.map Prod.fst

def queue (view : View) : List Thread := view.cells.map Prod.snd

/-- The heap blocks of the list. -/
def blocks (view : View) : List Block :=
  ⟨view.list, blockSize⟩ :: view.nodes.map fun node => ⟨node, blockSize⟩

/-- The bytes of the heap are this list. -/
structure Holds (view : View) (heap : Heap) : Prop where
  ends : Delimits 0 (fun node => heap.load (node + 8)) (heap.load view.list)
    (heap.load (view.list + 8)) view.nodes
  threads : ∀ cell ∈ view.cells, heap.load cell.1 = cell.2.address

def push (view : View) (node : ℕ) (thread : Thread) : View :=
  { view with cells := view.cells ++ [(node, thread)] }

def pop (view : View) : View := { view with cells := view.cells.tail }

end View

section View

variable {view : View} {heap heap' : Heap} {node : ℕ} {thread : Thread}

theorem View.mem_blocks {block : Block} :
    block ∈ view.blocks ↔
      block = ⟨view.list, blockSize⟩ ∨ ∃ node ∈ view.nodes, ⟨node, blockSize⟩ = block := by
  simp [View.blocks]

theorem View.Holds.congr (hholds : view.Holds heap)
    (hlist : heap'.load view.list = heap.load view.list ∧
      heap'.load (view.list + 8) = heap.load (view.list + 8))
    (hnodes : ∀ node ∈ view.nodes, heap'.load node = heap.load node ∧
      heap'.load (node + 8) = heap.load (node + 8)) :
    view.Holds heap' := by
  constructor
  · rw [hlist.1, hlist.2]
    exact hholds.ends.congr fun node hnode => (hnodes node hnode).2
  · intro cell hcell
    rw [(hnodes cell.1 (List.mem_map_of_mem hcell)).1]
    exact hholds.threads cell hcell

/-- Only the blocks of the list matter. -/
theorem View.Holds.kept (hholds : view.Holds heap)
    (hkept : ∀ block ∈ view.blocks, PayloadKept block heap heap') : view.Holds heap' := by
  have hwords : ∀ ptr, ⟨ptr, blockSize⟩ ∈ view.blocks → heap'.load ptr = heap.load ptr ∧
      heap'.load (ptr + 8) = heap.load (ptr + 8) := by
    intro ptr hblock
    exact ⟨(hkept _ hblock).load_eq (by simp) (by simp [blockSize]),
      (hkept _ hblock).load_eq (by simp) (by simp [blockSize])⟩
  apply hholds.congr
  · exact hwords view.list (View.mem_blocks.mpr (Or.inl rfl))
  · intro node hnode
    exact hwords node (View.mem_blocks.mpr (Or.inr ⟨node, hnode, rfl⟩))

end View

/-- The heap holds the list, and its other live blocks are the given ones. -/
structure Owned (state : HeapState) (view : View) (rest : List Block) : Prop where
  owns : state.Owns (view.blocks ++ rest)
  holds : view.Holds state.heap

/-- Where the blocks of a list lie. -/
structure View.Placed (view : View) : Prop where
  list_aligned : view.list % 8 = 0
  aligned : ∀ node ∈ view.nodes, node % 8 = 0
  bounds : ∀ node ∈ view.nodes, 0 < node ∧ node < 2 ^ 64
  apart : ∀ node ∈ view.nodes, view.list + 16 ≤ node ∨ node + 16 ≤ view.list
  separate : ∀ node ∈ view.nodes, ∀ other ∈ view.nodes, node ≠ other + 8
  nodup : view.nodes.Nodup

/-- A word of one of the list's blocks. -/
def View.IsField (view : View) (address : ℕ) : Prop :=
  ∃ ptr, (ptr = view.list ∨ ptr ∈ view.nodes) ∧ (address = ptr ∨ address = ptr + 8)

section Lists

variable {state : HeapState} {view : View} {rest : List Block} {node : ℕ} {thread : Thread}

theorem placed (howns : state.Owns (view.blocks ++ rest)) : view.Placed := by
  have hmem : ∀ node ∈ view.nodes, (⟨node, blockSize⟩ : Block) ∈ view.blocks ++ rest :=
    fun node hnode => List.mem_append_left rest
      (View.mem_blocks.mpr (Or.inr ⟨node, hnode, rfl⟩))
  have hbounds := fun node hnode => howns.bounds (hmem node hnode)
  have hblocks := List.pairwise_cons.mp (List.pairwise_append.mp howns.apart).1
  refine ⟨(howns.bounds List.mem_cons_self).1, fun node hnode => (hbounds node hnode).1,
    ?_, ?_, ?_, ?_⟩
  · intro node hnode
    have hnode := hbounds node hnode
    simp only [heapStart, heapEnd, heapSize, blockSize] at hnode
    omega
  · intro node hnode
    exact hblocks.1 _ (List.mem_map_of_mem hnode)
  · intro node hnode other hother
    by_cases heq : node = other
    · omega
    · have hapart := hblocks.2.forall (List.mem_map_of_mem hnode) (List.mem_map_of_mem hother)
        (fun hblock => heq (congrArg Block.ptr hblock))
      simp only [Block.Apart, blockSize] at hapart
      omega
  · have hnodup := howns.nodup
    rw [List.map_append, View.blocks, List.map_cons, List.map_map] at hnodup
    have hptr : Block.ptr ∘ (fun node => ⟨node, blockSize⟩) = id := rfl
    rw [hptr, List.map_id] at hnodup
    exact (List.nodup_cons.mp (List.nodup_append.mp hnodup).1).2

theorem exists_block_of_isField {address : ℕ} (hfield : view.IsField address) :
    ∃ block ∈ view.blocks, block.ptr ≤ address ∧ address + 8 ≤ block.ptr + block.sz := by
  obtain ⟨ptr, hptr, haddress⟩ := hfield
  refine ⟨⟨ptr, blockSize⟩, View.mem_blocks.mpr ?_, ?_⟩
  · rcases hptr with rfl | hnode
    · exact Or.inl rfl
    · exact Or.inr ⟨ptr, hnode, rfl⟩
  · simp only [blockSize]
    omega

theorem View.Placed.isField_aligned (hplaced : view.Placed) {address : ℕ}
    (hfield : view.IsField address) : address % 8 = 0 := by
  obtain ⟨ptr, hptr, haddress⟩ := hfield
  have haligned : ptr % 8 = 0 := by
    rcases hptr with rfl | hnode
    · exact hplaced.list_aligned
    · exact hplaced.aligned ptr hnode
  omega

theorem loadField (howns : state.Owns (view.blocks ++ rest)) {address : ℕ}
    (hfield : view.IsField address) :
    state.loadWord address = .ok (state.heap.load address) := by
  obtain ⟨block, hblock, hlower, hupper⟩ := exists_block_of_isField hfield
  exact howns.loadWord (List.mem_append_left rest hblock) hlower hupper

/-- A write to a word of the list changes no other word and no other block. -/
theorem storeField (howns : state.Owns (view.blocks ++ rest)) {address value : ℕ}
    (hfield : view.IsField address) (hvalue : value < 2 ^ 64) :
    ∃ state', state.storeWord address value = .ok state' ∧
      state'.Owns (view.blocks ++ rest) ∧
      (∀ other, other % 8 = 0 → state'.heap.load other =
        if other = address then value else state.heap.load other) ∧
      ∀ block ∈ rest, PayloadKept block state.heap state'.heap := by
  obtain ⟨block, hblock, hlower, hupper⟩ := exists_block_of_isField hfield
  obtain ⟨state', hrun, howns', hstored⟩ := howns.storeWord (List.mem_append_left rest hblock)
    address value hlower hupper ((placed howns).isField_aligned hfield) hvalue
  refine ⟨state', hrun, howns', ?_, ?_⟩
  · intro other hother
    rw [hstored.words other hother, Function.update_apply]
  · intro other hother
    exact hstored.kept other ((List.pairwise_append.mp howns.apart).2.2 block hblock other hother)

/-- The two words of a block are filled in. -/
theorem fillBlock {ptr first second : ℕ} (howns : state.Owns (⟨ptr, blockSize⟩ :: rest))
    (hfirst : first < 2 ^ 64) (hsecond : second < 2 ^ 64) :
    ∃ state₁ state₂, state.storeWord ptr first = .ok state₁ ∧
      state₁.storeWord (ptr + 8) second = .ok state₂ ∧
      state₂.Owns (⟨ptr, blockSize⟩ :: rest) ∧
      state₂.heap.load ptr = first ∧ state₂.heap.load (ptr + 8) = second ∧
      ∀ block ∈ rest, PayloadKept block state.heap state₂.heap := by
  have hmem : (⟨ptr, blockSize⟩ : Block) ∈ ⟨ptr, blockSize⟩ :: rest := List.mem_cons_self
  have haligned : ptr % 8 = 0 := (howns.bounds hmem).1
  have hapart : ∀ block ∈ rest, Block.Apart ⟨ptr, blockSize⟩ block :=
    (List.pairwise_cons.mp howns.apart).1
  obtain ⟨state₁, hrun₁, howns₁, hstored₁⟩ := howns.storeWord hmem ptr first
    (by simp) (by simp [blockSize]) haligned hfirst
  obtain ⟨state₂, hrun₂, howns₂, hstored₂⟩ := howns₁.storeWord hmem (ptr + 8) second
    (by simp) (by simp [blockSize]) (by omega) hsecond
  refine ⟨state₁, state₂, hrun₁, hrun₂, howns₂, ?_, ?_, ?_⟩
  · rw [hstored₂.words ptr haligned, Function.update_of_ne (by omega),
      hstored₁.words ptr haligned, Function.update_self]
  · rw [hstored₂.words (ptr + 8) (by omega), Function.update_self]
  · intro block hblock
    exact (hstored₁.kept block (hapart block hblock)).trans
      (hstored₂.kept block (hapart block hblock))

theorem threadListNew_spec (howns : state.Owns rest) :
    Returns (threadListNew state) fun result =>
      Owned result.1 ⟨result.2, []⟩ rest ∧
        ∀ block ∈ rest, PayloadKept block state.heap result.1.heap := by
  apply (howns.kmalloc (show blockSize ≤ heapSize by decide)).bind
  rintro ⟨state₀, list⟩ ⟨howns₀, hkept₀⟩
  dsimp only at howns₀ hkept₀ ⊢
  obtain ⟨state₁, state₂, hrun₁, hrun₂, howns₂, hhead, htail, hkept⟩ :=
    fillBlock howns₀ (show 0 < 2 ^ 64 by decide) (show 0 < 2 ^ 64 by decide)
  simp only [hrun₁, hrun₂, ok_bind]
  refine Returns.ok ⟨⟨howns₂, ?_, nofun⟩, fun block hblock =>
    (hkept₀ block hblock).trans (hkept block hblock)⟩
  change Delimits 0 _ (state₂.heap.load list) (state₂.heap.load (list + 8)) []
  rw [hhead, htail]
  exact Delimits.nil

theorem View.nodes_push : (view.push node thread).nodes = view.nodes ++ [node] := by
  simp [View.push, View.nodes]

theorem View.mem_nodes_push {other : ℕ} :
    other ∈ (view.push node thread).nodes ↔ other ∈ view.nodes ∨ other = node := by
  rw [View.nodes_push, List.mem_append, List.mem_singleton]

theorem View.blocks_push :
    (view.push node thread).blocks = view.blocks ++ [⟨node, blockSize⟩] := by
  rw [View.blocks, View.nodes_push, List.map_append]
  rfl

/-- The word that has to point to a node behind the last one. -/
def View.link (view : View) (heap : Heap) : ℕ :=
  if view.nodes = [] then view.list else heap.load (view.list + 8) + 8

/-- The aligned words after a node was put behind the last one. -/
def NodeLinked (view : View) (node : ℕ) (heap heap' : Heap) : Prop :=
  ∀ other, other % 8 = 0 → heap'.load other =
    if other = view.list + 8 then node
    else if other = view.link heap then node else heap.load other

theorem View.Placed.null_not_mem (hplaced : view.Placed) : 0 ∉ view.nodes :=
  fun hzero => absurd (hplaced.bounds 0 hzero).1 (Nat.lt_irrefl 0)

section Push

variable {heap heap' : Heap}

theorem View.link_of_empty (hempty : view.nodes = []) : view.link heap = view.list :=
  if_pos hempty

theorem View.link_of_ne (hnodes : view.nodes ≠ []) :
    view.link heap = heap.load (view.list + 8) + 8 :=
  if_neg hnodes

theorem NodeLinked.head (hlinked : NodeLinked view node heap heap')
    (haligned : view.list % 8 = 0) :
    heap'.load view.list =
      if view.list = view.link heap then node else heap.load view.list := by
  rw [hlinked _ haligned, if_neg (by omega)]

theorem NodeLinked.tail (hlinked : NodeLinked view node heap heap')
    (haligned : view.list % 8 = 0) : heap'.load (view.list + 8) = node := by
  rw [hlinked _ (by omega), if_pos rfl]

theorem NodeLinked.next (hlinked : NodeLinked view node heap heap')
    (hplaced : (view.push node thread).Placed) {other : ℕ}
    (hother : other ∈ (view.push node thread).nodes) :
    heap'.load (other + 8) =
      if other + 8 = view.link heap then node else heap.load (other + 8) := by
  have haligned := hplaced.aligned other hother
  have hapart : view.list + 16 ≤ other ∨ other + 16 ≤ view.list := hplaced.apart other hother
  rw [hlinked _ (by omega), if_neg (by omega)]

/-- The new node is the only one, or the last one now points to it. -/
theorem NodeLinked.ends (hlinked : NodeLinked view node heap heap') (hholds : view.Holds heap)
    (hplaced : (view.push node thread).Placed) (hnext : heap.load (node + 8) = 0) :
    Delimits 0 (fun other => heap'.load (other + 8)) (heap'.load view.list)
      (heap'.load (view.list + 8)) (view.nodes ++ [node]) := by
  rw [hlinked.head hplaced.list_aligned, hlinked.tail hplaced.list_aligned]
  by_cases hempty : view.nodes = []
  · have hnew : node ∈ (view.push node thread).nodes := View.mem_nodes_push.mpr (Or.inr rfl)
    have hapart : view.list + 16 ≤ node ∨ node + 16 ≤ view.list := hplaced.apart node hnew
    rw [View.link_of_empty hempty, if_pos rfl, hempty]
    apply Delimits.singleton
    rw [hlinked.next hplaced hnew, View.link_of_empty hempty, if_neg (by omega), hnext]
  · have hlast : heap.load (view.list + 8) ∈ (view.push node thread).nodes :=
      View.mem_nodes_push.mpr (Or.inl (hholds.ends.tail_mem hempty))
    have hapart : view.list + 16 ≤ heap.load (view.list + 8) ∨
        heap.load (view.list + 8) + 16 ≤ view.list := hplaced.apart _ hlast
    have hnodup : (view.nodes ++ [node]).Nodup := View.nodes_push ▸ hplaced.nodup
    rw [View.link_of_ne hempty, if_neg (by omega)]
    apply (hholds.ends.push hempty hnodup hnext).congr
    intro other hother
    rw [← @View.nodes_push view node thread] at hother
    rw [hlinked.next hplaced hother, View.link_of_ne hempty, Function.update_apply]
    simp only [Nat.add_right_cancel_iff]

theorem NodeLinked.threads (hlinked : NodeLinked view node heap heap') (hholds : view.Holds heap)
    (hplaced : (view.push node thread).Placed) (hthread : heap.load node = thread.address) :
    ∀ cell ∈ (view.push node thread).cells, heap'.load cell.1 = cell.2.address := by
  have hsame : ∀ other ∈ (view.push node thread).nodes,
      heap'.load other = heap.load other := by
    intro other hother
    have hapart : view.list + 16 ≤ other ∨ other + 16 ≤ view.list := hplaced.apart other hother
    have hlink : other ≠ view.link heap := by
      by_cases hempty : view.nodes = []
      · rw [View.link_of_empty hempty]
        omega
      · rw [View.link_of_ne hempty]
        exact hplaced.separate other hother _
          (View.mem_nodes_push.mpr (Or.inl (hholds.ends.tail_mem hempty)))
    rw [hlinked _ (hplaced.aligned other hother), if_neg (by omega), if_neg hlink]
  intro cell hcell
  rw [hsame cell.1 (List.mem_map_of_mem hcell)]
  rcases List.mem_append.mp hcell with hcell | hcell
  · exact hholds.threads cell hcell
  · obtain rfl := List.mem_singleton.mp hcell
    exact hthread

theorem View.Holds.isField_link (hholds : view.Holds heap) :
    (view.push node thread).IsField (view.link heap) := by
  by_cases hempty : view.nodes = []
  · rw [View.link_of_empty hempty]
    exact ⟨view.list, Or.inl rfl, Or.inl rfl⟩
  · rw [View.link_of_ne hempty]
    exact ⟨_, Or.inr (View.mem_nodes_push.mpr (Or.inl (hholds.ends.tail_mem hempty))),
      Or.inr rfl⟩

end Push

/-- The two branches write the same words, up to which one points to the node. -/
theorem linkNode_eq (howns : state.Owns ((view.push node thread).blocks ++ rest))
    (hholds : view.Holds state.heap) :
    linkNode state view.list node =
      (state.storeWord (view.link state.heap) node >>= fun state =>
        state.storeWord (view.list + 8) node) := by
  have hnull : 0 ∉ view.nodes := fun hzero =>
    (placed howns).null_not_mem (View.mem_nodes_push.mpr (Or.inl hzero))
  have hhead := hholds.ends.head_eq_null_iff hnull
  have hload := loadField howns ⟨view.list, Or.inl rfl, Or.inl rfl⟩
  by_cases hempty : view.nodes = []
  · simp only [linkNode, hload, ok_bind, if_pos (hhead.mpr hempty), View.link_of_empty hempty]
  · simp only [linkNode, hload, ok_bind, if_neg (mt hhead.mp hempty),
      loadField howns ⟨view.list, Or.inl rfl, Or.inr rfl⟩, View.link_of_ne hempty]

/-- A node that has been filled in is put behind the last one. -/
theorem linkNode_spec (howns : state.Owns ((view.push node thread).blocks ++ rest))
    (hholds : view.Holds state.heap) (hthread : state.heap.load node = thread.address)
    (hnext : state.heap.load (node + 8) = 0) :
    ∃ state', linkNode state view.list node = .ok state' ∧
      Owned state' (view.push node thread) rest ∧
        ∀ block ∈ rest, PayloadKept block state.heap state'.heap := by
  have hplaced := placed howns
  have hvalue : node < 2 ^ 64 := (hplaced.bounds node (View.mem_nodes_push.mpr (Or.inr rfl))).2
  obtain ⟨state₁, hrun₁, howns₁, hwords₁, hkept₁⟩ := storeField howns hholds.isField_link hvalue
  obtain ⟨state₂, hrun₂, howns₂, hwords₂, hkept₂⟩ := storeField howns₁
    ⟨view.list, Or.inl rfl, Or.inr rfl⟩ hvalue
  have hlinked : NodeLinked view node state.heap state₂.heap := by
    intro other hother
    rw [hwords₂ other hother, hwords₁ other hother]
  refine ⟨state₂, ?_, ⟨howns₂, ?_, hlinked.threads hholds hplaced hthread⟩, fun block hblock =>
    (hkept₁ block hblock).trans (hkept₂ block hblock)⟩
  · rw [linkNode_eq howns hholds, hrun₁, ok_bind, hrun₂]
  · rw [View.nodes_push]
    exact hlinked.ends hholds hplaced hnext

theorem threadListAdd_spec (howned : Owned state view rest) :
    Returns (threadListAdd state view.list thread.address) fun state' =>
      ∃ node, Owned state' (view.push node thread) rest ∧
        ∀ block ∈ rest, PayloadKept block state.heap state'.heap := by
  apply (howned.owns.kmalloc (show blockSize ≤ heapSize by decide)).bind
  rintro ⟨state₀, node⟩ ⟨howns₀, hkept₀⟩
  dsimp only at howns₀ hkept₀ ⊢
  obtain ⟨state₁, state₂, hrun₁, hrun₂, howns₂, hthread, hnext, hkept₂⟩ :=
    fillBlock howns₀ thread.address_lt (show 0 < 2 ^ 64 by decide)
  have hkept : ∀ block ∈ view.blocks ++ rest, PayloadKept block state.heap state₂.heap :=
    fun block hblock => (hkept₀ block hblock).trans (hkept₂ block hblock)
  have hpush : (⟨node, blockSize⟩ :: (view.blocks ++ rest)).Perm
      ((view.push node thread).blocks ++ rest) := by
    rw [View.blocks_push, List.append_assoc]
    exact List.perm_middle.symm
  have hholds₂ := howned.holds.kept fun block hblock =>
    hkept block (List.mem_append_left rest hblock)
  obtain ⟨state', hrun, howned', hkept'⟩ :=
    linkNode_spec (howns₂.perm hpush) hholds₂ hthread hnext
  simp only [hrun₁, hrun₂, ok_bind, hrun]
  exact Returns.ok ⟨node, howned', fun block hblock =>
    (hkept block (List.mem_append_right _ hblock)).trans (hkept' block hblock)⟩

/-- The tail is cleared if the head is null. -/
theorem clearTail_spec (howns : state.Owns (view.blocks ++ rest)) :
    ∃ state', clearTail state view.list = .ok state' ∧
      state'.Owns (view.blocks ++ rest) ∧
      (∀ other, other % 8 = 0 → state'.heap.load other =
        if other = view.list + 8 ∧ state.heap.load view.list = 0 then 0
        else state.heap.load other) ∧
      ∀ block ∈ rest, PayloadKept block state.heap state'.heap := by
  have hlist : view.IsField view.list := ⟨_, Or.inl rfl, Or.inl rfl⟩
  by_cases hhead : state.heap.load view.list = 0
  · obtain ⟨state', hrun, howns', hwords, hkept⟩ := storeField howns
      ⟨view.list, Or.inl rfl, Or.inr rfl⟩ (show 0 < 2 ^ 64 by decide)
    refine ⟨state', ?_, howns', ?_, hkept⟩
    · simp only [clearTail, loadField howns hlist, ok_bind, if_pos hhead, hrun]
    · simpa only [hhead, and_true] using hwords
  · refine ⟨state, ?_, howns, ?_, fun block _ => fun _ _ _ => rfl⟩
    · simp only [clearTail, loadField howns hlist, ok_bind, if_neg hhead]
      rfl
    · intro other _
      rw [if_neg fun hboth => hhead hboth.2]

/-- The list after its head was moved to the second node. -/
theorem holds_of_headMoved {heap heap' : Heap} {list : ℕ} {cells : List (ℕ × Thread)}
    (hholds : View.Holds ⟨list, (node, thread) :: cells⟩ heap)
    (hplaced : View.Placed ⟨list, (node, thread) :: cells⟩)
    (hwords : ∀ other, other % 8 = 0 → heap'.load other =
      if other = list then heap.load (node + 8)
      else if other = list + 8 ∧ heap.load (node + 8) = 0 then 0 else heap.load other) :
    View.Holds ⟨list, cells⟩ heap' := by
  have hlist8 : list % 8 = 0 := hplaced.list_aligned
  have hsame : ∀ other ∈ cells.map Prod.fst, heap'.load other = heap.load other ∧
      heap'.load (other + 8) = heap.load (other + 8) := by
    intro other hother
    have hmem : other ∈ View.nodes ⟨list, (node, thread) :: cells⟩ :=
      List.mem_cons_of_mem node hother
    have haligned := hplaced.aligned other hmem
    have hapart : list + 16 ≤ other ∨ other + 16 ≤ list := hplaced.apart other hmem
    rw [hwords other haligned, if_neg (by omega), if_neg (by omega),
      hwords (other + 8) (by omega), if_neg (by omega), if_neg (by omega)]
    exact ⟨rfl, rfl⟩
  have htail : heap'.load (list + 8) =
      if heap.load (node + 8) = 0 then 0 else heap.load (list + 8) := by
    rw [hwords (list + 8) (by omega), if_neg (by omega)]
    simp only [true_and]
  have hnull : 0 ∉ cells.map Prod.fst := fun hzero =>
    hplaced.null_not_mem (List.mem_cons_of_mem node hzero)
  constructor
  · change Delimits 0 _ (heap'.load list) (heap'.load (list + 8)) (cells.map Prod.fst)
    rw [hwords list hlist8, if_pos rfl, htail]
    exact (hholds.ends.pop hnull).congr fun other hother => (hsame other hother).2
  · intro cell hcell
    rw [(hsame cell.1 (List.mem_map_of_mem hcell)).1]
    exact hholds.threads cell (List.mem_cons_of_mem _ hcell)

/-- The head is moved to the second node. -/
theorem moveHead_spec {list : ℕ} {cells : List (ℕ × Thread)}
    (howned : Owned state ⟨list, (node, thread) :: cells⟩ rest) :
    ∃ state₁ state₂, state.storeWord list (state.heap.load (node + 8)) = .ok state₁ ∧
      clearTail state₁ list = .ok state₂ ∧
      state₂.Owns (View.blocks ⟨list, (node, thread) :: cells⟩ ++ rest) ∧
      View.Holds ⟨list, cells⟩ state₂.heap ∧ state₂.heap.load node = thread.address ∧
      ∀ block ∈ rest, PayloadKept block state.heap state₂.heap := by
  obtain ⟨howns, hholds⟩ := howned
  have hplaced := placed howns
  have hmem : node ∈ View.nodes ⟨list, (node, thread) :: cells⟩ := List.mem_cons_self
  have hlist8 : list % 8 = 0 := hplaced.list_aligned
  have hapart : list + 16 ≤ node ∨ node + 16 ≤ list := hplaced.apart node hmem
  obtain ⟨state₁, hrun₁, howns₁, hwords₁, hkept₁⟩ := storeField howns
    ⟨list, Or.inl rfl, Or.inl rfl⟩ (load64_lt state.heap.memory (node + 8))
  obtain ⟨state₂, hrun₂, howns₂, hwords₂, hkept₂⟩ := clearTail_spec howns₁
  have hmoved : state₁.heap.load list = state.heap.load (node + 8) := by
    rw [hwords₁ list hlist8, if_pos rfl]
    rfl
  have hwords : ∀ other, other % 8 = 0 → state₂.heap.load other =
      if other = list then state.heap.load (node + 8)
      else if other = list + 8 ∧ state.heap.load (node + 8) = 0 then 0
      else state.heap.load other := by
    intro other hother
    by_cases heq : other = list
    · have htail : ¬(other = list + 8 ∧ state₁.heap.load list = 0) := by omega
      rw [if_pos heq, hwords₂ other hother, if_neg htail, heq, hmoved]
    · rw [if_neg heq, hwords₂ other hother, hmoved, hwords₁ other hother, if_neg heq]
  refine ⟨state₁, state₂, hrun₁, hrun₂, howns₂, holds_of_headMoved hholds hplaced hwords, ?_,
    fun block hblock => (hkept₁ block hblock).trans (hkept₂ block hblock)⟩
  rw [hwords node (hplaced.aligned node hmem), if_neg (by omega), if_neg (by omega)]
  exact hholds.threads (node, thread) List.mem_cons_self

theorem threadListHead_spec (howned : Owned state view rest) :
    threadListHead state view.list = .ok (pointer view.queue.head?) := by
  have hplaced := placed howned.owns
  have hlist : view.IsField view.list := ⟨_, Or.inl rfl, Or.inl rfl⟩
  have hhead := howned.holds.ends.head_eq_null_iff hplaced.null_not_mem
  rw [threadListHead, loadField howned.owns hlist, ok_bind]
  obtain ⟨list, cells⟩ := view
  cases cells with
  | nil =>
      rw [if_pos (hhead.mpr rfl)]
      rfl
  | cons cell cells =>
      have hmem : cell.1 ∈ View.nodes ⟨list, cell :: cells⟩ := List.mem_cons_self
      have hfirst : state.heap.load list = cell.1 := howned.holds.ends.head_eq
      rw [hfirst, if_neg (hplaced.bounds cell.1 hmem).1.ne',
        loadField howned.owns ⟨cell.1, Or.inr hmem, Or.inl rfl⟩,
        howned.holds.threads cell List.mem_cons_self]
      rfl

/-- The first thread of the queue is returned and its node given back. -/
theorem threadListGetNext_spec (howned : Owned state view rest) :
    ∃ state', threadListGetNext state view.list = .ok (state', pointer view.queue.head?) ∧
      Owned state' view.pop rest ∧
        ∀ block ∈ rest, PayloadKept block state.heap state'.heap := by
  have howns := howned.owns
  have hplaced := placed howns
  have hlist : view.IsField view.list := ⟨_, Or.inl rfl, Or.inl rfl⟩
  have hhead := howned.holds.ends.head_eq_null_iff hplaced.null_not_mem
  obtain ⟨list, cells⟩ := view
  cases cells with
  | nil =>
      refine ⟨state, ?_, howned, fun block _ => fun _ _ _ => rfl⟩
      simp only [threadListGetNext, loadField howns hlist, ok_bind, if_pos (hhead.mpr rfl)]
      rfl
  | cons cell cells =>
      obtain ⟨node, thread⟩ := cell
      have hmem : node ∈ View.nodes ⟨list, (node, thread) :: cells⟩ := List.mem_cons_self
      have hnode : node ≠ 0 := (hplaced.bounds node hmem).1.ne'
      have hfirst : state.heap.load list = node := howned.holds.ends.head_eq
      have hfield : View.IsField ⟨list, (node, thread) :: cells⟩ node :=
        ⟨node, Or.inr hmem, Or.inl rfl⟩
      have hnext : View.IsField ⟨list, (node, thread) :: cells⟩ (node + 8) :=
        ⟨node, Or.inr hmem, Or.inr rfl⟩
      obtain ⟨state₁, state₂, hrun₁, hrun₂, howns₂, hholds₂, hthread, hkept₂⟩ :=
        moveHead_spec howned
      have hperm : (View.blocks ⟨list, (node, thread) :: cells⟩ ++ rest).Perm
          (⟨node, blockSize⟩ :: (View.blocks ⟨list, cells⟩ ++ rest)) :=
        List.Perm.swap _ _ _
      obtain ⟨state₃, hrun₃, howns₃, hkept₃⟩ := HeapState.Owns.kfree (howns₂.perm hperm)
      refine ⟨state₃, ?_, ⟨howns₃, ?_⟩, ?_⟩
      · simp only [threadListGetNext, loadField howns hlist, ok_bind, hfirst, if_neg hnode,
          loadField howns hnext, hrun₁, hrun₂, loadField howns₂ hfield, hthread, hrun₃]
        rfl
      · exact hholds₂.kept fun block hblock => hkept₃ block (List.mem_append_left rest hblock)
      · intro block hblock
        exact (hkept₂ block hblock).trans (hkept₃ block (List.mem_append_right _ hblock))

end Lists

end Flurry.ThreadList
