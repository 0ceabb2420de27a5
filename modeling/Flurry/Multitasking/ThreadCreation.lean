import Flurry.Memory.KmallocClients
import Flurry.Multitasking.SwitchRefinement

/-!
# The threads that `sched_init` creates

A thread that can be switched to needs a stack and a `Thread` that no one else
writes.  `thread_kcreate` takes them from the heap that everyone uses.  Whatever
else is allocated, released and written while threads are created, their stacks and
structures lie apart, and each of them is ready for its first `switch_context`.
-/

namespace Flurry.ThreadCreation

open ByteMemory Kmalloc KernelThread Processor ContextSwitch

/-! ## The heap while blocks are kept -/

/-- Calls and writes lead from `state` to `state'`, and these blocks are untouched. -/
structure Grows (memory : Memory) (kept : List Block) (state state' : HeapState) : Prop where
  reachable : HeapReachable memory state'
  live : ∀ block ∈ kept, block ∈ state'.live
  kept : ∀ block ∈ kept, PayloadKept block state.heap state'.heap

section Grows

variable {memory memory' : Memory} {kept live : List Block} {state : HeapState}
variable {heap heap' : Heap} {block : Block} {sz ptr : ℕ}

/-- The bytes of `memory'` below `limit`. -/
def patched (memory memory' : Memory) (limit : ℕ) : Memory :=
  fun target => if target < limit then memory' target else memory target

theorem patched_succ (memory memory' : Memory) (limit : ℕ) :
    patched memory memory' (limit + 1) =
      Function.update (patched memory memory' limit) limit (memory' limit) := by
  funext target
  rw [Function.update_apply]
  by_cases htarget : target = limit
  · rw [if_pos htarget, htarget, patched, if_pos (Nat.lt_succ_self limit)]
  · rw [if_neg htarget, patched, patched]
    by_cases hlt : target < limit
    · rw [if_pos hlt, if_pos (Nat.lt_succ_of_lt hlt)]
    · rw [if_neg hlt, if_neg (by omega)]

/-- Any bytes can be written to a live block, one after another. -/
theorem reachable_write (hreachable : HeapReachable memory ⟨heap, live⟩)
    (hblock : block ∈ live)
    (hagree : AgreeOutside block.ptr (block.ptr + block.sz) heap.memory memory') :
    HeapReachable memory ⟨{ heap with memory := memory' }, live⟩ := by
  have hbytes : ∀ count ≤ block.sz, HeapReachable memory
      ⟨{ heap with memory := patched heap.memory memory' (block.ptr + count) }, live⟩ := by
    intro count hcount
    induction count with
    | zero =>
        have hsame : patched heap.memory memory' (block.ptr + 0) = heap.memory := by
          funext target
          by_cases htarget : target < block.ptr
          · exact (if_pos htarget).trans (hagree target (Or.inl htarget))
          · exact if_neg htarget
        rw [hsame]
        exact hreachable
    | succ count ih =>
        refine @HeapReachable.step memory _ _ (.write (block.ptr + count)
          (memory' (block.ptr + count))) (ih (by omega))
            ⟨block, hblock, by omega, by omega⟩ ?_
        rw [← Nat.add_assoc, patched_succ]
        rfl
  have hall : patched heap.memory memory' (block.ptr + block.sz) = memory' := by
    funext target
    by_cases htarget : target < block.ptr + block.sz
    · exact if_pos htarget
    · exact (if_neg htarget).trans (hagree target (Or.inr (not_lt.mp htarget))).symm
  rw [← hall]
  exact hbytes block.sz le_rfl

theorem Grows.refl (hreachable : HeapReachable memory state) :
    Grows memory state.live state state :=
  ⟨hreachable, fun _ hblock => hblock, fun _ _ _ _ _ => rfl⟩

theorem Grows.kmalloc (hgrows : Grows memory kept state ⟨heap, live⟩) (hsz : sz ≤ heapSize)
    (hrun : Kmalloc.kmalloc heap sz = some (heap', ptr)) :
    Grows memory kept state ⟨heap', ⟨ptr, sz⟩ :: live⟩ := by
  obtain ⟨layout, htracks⟩ := hgrows.reachable.tracks
  obtain ⟨layout', -, hkept⟩ := htracks.kmalloc hsz hrun
  constructor
  · refine @HeapReachable.step memory _ _ (.kmalloc sz) hgrows.reachable hsz ?_
    simp [HeapCall.run, hrun]
  · exact fun block hblock => List.mem_cons_of_mem _ (hgrows.live block hblock)
  · intro block hblock
    exact (hgrows.kept block hblock).trans
      (htracks.payloadKept hkept (hgrows.live block hblock) fun _ hused _ => hused)

/-- A write to a block that is not among those that are kept. -/
theorem Grows.write (hgrows : Grows memory kept state ⟨heap, live⟩) (hblock : block ∈ live)
    (hnew : ∀ other ∈ kept, other.ptr ≠ block.ptr)
    (hagree : AgreeOutside block.ptr (block.ptr + block.sz) heap.memory memory') :
    Grows memory kept state ⟨{ heap with memory := memory' }, live⟩ := by
  obtain ⟨layout, htracks⟩ := hgrows.reachable.tracks
  refine ⟨reachable_write hgrows.reachable hblock hagree, hgrows.live, ?_⟩
  intro other hother
  apply (hgrows.kept other hother).trans
  intro target hlower hupper
  have hisolated := htracks.isolated (hgrows.live other hother) hblock (hnew other hother)
  simp only [Isolated, wordSize] at hisolated
  exact hagree target (by omega)

theorem Grows.store {width address value : ℕ}
    (hgrows : Grows memory kept state ⟨heap, live⟩) (hblock : ⟨ptr, sz⟩ ∈ live)
    (hnew : ∀ other ∈ kept, other.ptr ≠ ptr) (hlower : ptr ≤ address)
    (hupper : address + width ≤ ptr + sz) :
    Grows memory kept state
      ⟨{ heap with memory := store heap.memory width address value }, live⟩ :=
  hgrows.write hblock hnew ((AgreeOutside.refl _).store hlower hupper)

/-- The pointer that `kmalloc` returns is a new one. -/
theorem Grows.ptr_ne (hgrows : Grows memory kept state ⟨heap, block :: live⟩)
    (hkept : ∀ other ∈ kept, other ∈ live) : ∀ other ∈ kept, other.ptr ≠ block.ptr := by
  obtain ⟨layout, htracks⟩ := hgrows.reachable.tracks
  intro other hother
  exact ne_of_mem_of_not_mem (List.mem_map_of_mem (hkept other hother))
    (List.nodup_cons.mp htracks.nodup).1

end Grows

/-! ## One thread -/

section Create

variable {symbols : Symbols} {memory : Memory} {live : List Block} {heap heap' : Heap}
variable {t rspBase event entry tid proc : ℕ} {name : List Byte}

theorem grows_writeStack {kept : List Block} {state : HeapState}
    (hgrows : Grows memory kept state ⟨heap, live⟩) (hthread : ⟨t, sizeofThread⟩ ∈ live)
    (hstack : ⟨rspBase, stackSize⟩ ∈ live)
    (hthreadNew : ∀ other ∈ kept, other.ptr ≠ t)
    (hstackNew : ∀ other ∈ kept, other.ptr ≠ rspBase) :
    Grows memory kept state ⟨writeStack symbols heap t rspBase entry, live⟩ := by
  have hsizeThread : sizeofThread = 136 := rfl
  have hsize : stackSize = 16384 := rfl
  obtain ⟨layout, htracks⟩ := hgrows.reachable.tracks
  have hbounds := (htracks.bounds hstack).2.2
  have hend := heapEnd_lt
  simp only at hbounds
  rw [writeStack_eq (by omega)]
  apply Grows.store _ hthread hthreadNew (by omega) (by omega)
  apply Grows.store _ hstack hstackNew (by omega) (by omega)
  apply Grows.store _ hstack hstackNew (by omega) (by omega)
  apply Grows.store _ hstack hstackNew (by omega) (by omega)
  exact hgrows.store hthread hthreadNew (by omega) (by omega)

theorem grows_writeOwner {kept : List Block} {state : HeapState}
    (hgrows : Grows memory kept state ⟨heap, live⟩) (hthread : ⟨t, sizeofThread⟩ ∈ live)
    (hevent : ⟨event, sizeofEvent⟩ ∈ live)
    (hthreadNew : ∀ other ∈ kept, other.ptr ≠ t)
    (heventNew : ∀ other ∈ kept, other.ptr ≠ event) :
    Grows memory kept state ⟨writeOwner heap t event, live⟩ := by
  have hsizeThread : sizeofThread = 136 := rfl
  have hsizeEvent : sizeofEvent = 72 := rfl
  obtain ⟨layout, htracks⟩ := hgrows.reachable.tracks
  have hbounds := (htracks.bounds hevent).2.2
  have hend := heapEnd_lt
  simp only at hbounds
  rw [writeOwner_eq (by omega)]
  have hfirst : Grows memory kept state ⟨heap.store (t + 112) event, live⟩ :=
    hgrows.store hthread hthreadNew (by omega) (by omega)
  have hsecond : Grows memory kept state ⟨(heap.store (t + 112) event).store event t, live⟩ :=
    hfirst.store hevent heventNew le_rfl (by omega)
  exact hsecond.store hthread hthreadNew (by omega) (by omega)

/-- The fields that say where the stack and the event are. -/
theorem load_writeOwner (hthread : t + sizeofThread ≤ event ∨ event + sizeofEvent ≤ t)
    (hevent : event < 2 ^ 64) :
    (writeOwner heap t event).load (t + threadEvent) = event ∧
      (writeOwner heap t event).load (t + threadRspBase) = heap.load (t + threadRspBase) := by
  simp only [sizeofThread, sizeofEvent] at hthread
  rw [writeOwner_eq hevent]
  simp only [Heap.load, threadEvent, threadRspBase]
  have hstatus : ∀ memory : Memory, ∀ address, address + 8 ≤ t + 104 ∨ t + 108 ≤ address →
      load64 (store memory 4 (t + 104) 0) address = load64 memory address :=
    fun memory address houtside =>
      load64_congr fun target hlower hupper => store_of_not_mem (by omega)
  constructor
  · rw [hstatus _ _ (by omega), load64_store64_of_disjoint (by omega),
      load64_store64_same hevent]
  · rw [hstatus _ _ (by omega), load64_store64_of_disjoint (by omega),
      load64_store64_of_disjoint (by omega)]

/-- `thread_kcreate` takes three new blocks and touches no other. -/
theorem threadKcreate_grows (hreachable : HeapReachable memory ⟨heap, live⟩)
    (hname : name.length < threadMaxNameLength) (hentry : entry < 2 ^ 64)
    (hcreate : threadKcreate symbols heap tid name entry proc = some (heap', t)) :
    Grows memory live ⟨heap, live⟩ ⟨heap', ⟨heap'.load (t + threadEvent), sizeofEvent⟩ ::
      ⟨heap'.load (t + threadRspBase), stackSize⟩ :: ⟨t, sizeofThread⟩ :: live⟩ := by
  simp only [threadKcreate, eventCreate, Option.bind_eq_bind, Option.bind_eq_some_iff,
    Option.some.injEq, Prod.exists, Prod.mk.injEq] at hcreate
  obtain ⟨heap₁, t, hthread, heap₂, rspBase, hstack, heap₃, event,
    ⟨heap₄, event, hevent, rfl, rfl⟩, rfl, rfl⟩ := hcreate
  have hgrows₁ := (Grows.refl hreachable).kmalloc (by decide) hthread
  have hthreadNew := hgrows₁.ptr_ne fun _ hother => hother
  have hgrows₂ : Grows memory live ⟨heap, live⟩
      ⟨heap₂, ⟨rspBase, stackSize⟩ :: ⟨t, sizeofThread⟩ :: live⟩ :=
    (hgrows₁.write List.mem_cons_self hthreadNew
      (agreeOutside_writeIdentity hname)).kmalloc (by decide) hstack
  have hstackNew := hgrows₂.ptr_ne fun other hother => List.mem_cons_of_mem _ hother
  have hwritten : Grows memory live ⟨heap, live⟩ ⟨writeStack symbols heap₂ t rspBase entry,
      ⟨rspBase, stackSize⟩ :: ⟨t, sizeofThread⟩ :: live⟩ :=
    grows_writeStack hgrows₂ (by simp) (by simp) hthreadNew hstackNew
  have hgrows₃ := hwritten.kmalloc (by decide) hevent
  have heventNew := hgrows₃.ptr_ne fun other hother =>
    List.mem_cons_of_mem _ (List.mem_cons_of_mem _ hother)
  have hempty : Grows memory live ⟨heap, live⟩ ⟨{ heap₄ with
      memory := storeFields heap₄.memory event (emptyEvent symbols.none) },
      ⟨event, sizeofEvent⟩ :: ⟨rspBase, stackSize⟩ :: ⟨t, sizeofThread⟩ :: live⟩ :=
    hgrows₃.write List.mem_cons_self heventNew agreeOutside_emptyEvent
  have hgrows := grows_writeOwner hempty (by simp) (by simp) hthreadNew heventNew
  -- the pointers that were returned are still in the fields of the thread
  obtain ⟨layout, htracks⟩ := hempty.reachable.tracks
  have hdistinct := htracks.nodup
  simp only [List.map_cons, List.nodup_cons, List.mem_cons, not_or] at hdistinct
  have hthreadEvent := htracks.isolated (by simp : ⟨t, sizeofThread⟩ ∈ _)
    (by simp : ⟨event, sizeofEvent⟩ ∈ _) (Ne.symm hdistinct.1.2.1)
  have hthreadStack := htracks.isolated (by simp : ⟨t, sizeofThread⟩ ∈ _)
    (by simp : ⟨rspBase, stackSize⟩ ∈ _) (Ne.symm hdistinct.2.1.1)
  have heventBounds := (htracks.bounds (by simp : ⟨event, sizeofEvent⟩ ∈ _)).2.2
  have hstackBounds := (htracks.bounds (by simp : ⟨rspBase, stackSize⟩ ∈ _)).2.2
  have hend := heapEnd_lt
  simp only [Isolated, wordSize] at hthreadEvent hthreadStack heventBounds hstackBounds
  have hbase : heap₄.load (t + threadRspBase) = rspBase := by
    have hkept := ((Grows.refl hwritten.reachable).kmalloc (by decide) hevent).kept
      ⟨t, sizeofThread⟩ (by simp)
    rw [hkept.load_eq (Nat.le_add_right _ _) (by simp [threadRspBase, sizeofThread])]
    exact (prepared_writeStack (by omega) (by omega) hentry).rspBase
  have hbaseEmpty : Heap.load { heap₄ with
      memory := storeFields heap₄.memory event (emptyEvent symbols.none) }
        (t + threadRspBase) = rspBase := by
    rw [← hbase]
    refine load64_congr fun target hlower hupper => agreeOutside_emptyEvent target ?_
    simp only [threadRspBase, sizeofThread] at hlower hupper hthreadEvent
    omega
  obtain ⟨hloadEvent, hloadBase⟩ := @load_writeOwner { heap₄ with
    memory := storeFields heap₄.memory event (emptyEvent symbols.none) } t event
      (by omega) (by omega)
  rw [hloadEvent, hloadBase, hbaseEmpty]
  exact hgrows

end Create

/-! ## Runs -/

/-- A thread that `thread_kcreate` has returned. -/
structure Made where
  t : ℕ
  rspBase : ℕ
  entry : Word

/-- The blocks that belong to the thread alone; its event belongs to the event queue. -/
def Made.blocks (made : Made) : List Block :=
  [⟨made.t, sizeofThread⟩, ⟨made.rspBase, stackSize⟩]

/-- The heap, the threads created so far, the blocks of the others and `tid_counter`. -/
structure CreationState where
  heap : HeapState
  made : List Made
  others : List Block
  tidCounter : ℕ

namespace CreationState

def init (memory : Memory) : CreationState where
  heap := ⟨kmallocInit memory, []⟩
  made := []
  others := []
  tidCounter := 0

/-- The state when `thread_kcreate` has returned `t`. -/
def create (state : CreationState) (heap : Heap) (t : ℕ) (entry : Word) : CreationState :=
  let event : Block := ⟨heap.load (t + threadEvent), sizeofEvent⟩
  let made : Made := ⟨t, heap.load (t + threadRspBase), entry⟩
  { heap := ⟨heap, event :: ⟨made.rspBase, stackSize⟩ :: ⟨t, sizeofThread⟩ :: state.heap.live⟩
    made := state.made ++ [made]
    others := event :: state.others
    tidCounter := wrap64 (state.tidCounter + 1) }

end CreationState

/-- A call of `thread_kcreate`, or what others do with the heap and their own blocks. -/
inductive Step (symbols : Symbols) : CreationState → CreationState → Prop
  | create {state : CreationState} {heap : Heap} {t : ℕ} (name : List Byte) (entry : Word)
      (proc : ℕ) : name.length < threadMaxNameLength →
      threadKcreate symbols state.heap.heap state.tidCounter name entry.toNat proc =
        some (heap, t) →
      Step symbols state (state.create heap t entry)
  | kmalloc {state : CreationState} {heap : Heap} {ptr : ℕ} (sz : ℕ) : sz ≤ heapSize →
      Kmalloc.kmalloc state.heap.heap sz = some (heap, ptr) →
      Step symbols state { state with
        heap := ⟨heap, ⟨ptr, sz⟩ :: state.heap.live⟩
        others := ⟨ptr, sz⟩ :: state.others }
  | kfree {state : CreationState} {heap : Heap} (block : Block) : block ∈ state.others →
      Kmalloc.kfree state.heap.heap block.ptr = some heap →
      Step symbols state { state with
        heap := ⟨heap, state.heap.live.filter fun other => other.ptr ≠ block.ptr⟩
        others := state.others.erase block }
  | write {state : CreationState} (block : Block) (address : ℕ) (byte : Byte) :
      block ∈ state.others → block.ptr ≤ address → address < block.ptr + block.sz →
      Step symbols state { state with
        heap := ⟨{ state.heap.heap with
          memory := Function.update state.heap.heap.memory address byte }, state.heap.live⟩ }

def Reaches (symbols : Symbols) (memory : Memory) (state : CreationState) : Prop :=
  Relation.ReflTransGen (Step symbols) (CreationState.init memory) state

/-- The live blocks are those of the threads and those of the others. -/
structure Holds (memory : Memory) (state : CreationState) : Prop where
  reachable : HeapReachable memory state.heap
  live : state.heap.live.Perm (state.made.flatMap Made.blocks ++ state.others)

section Runs

variable {symbols : Symbols} {memory : Memory} {state after : CreationState}

theorem Holds.owns (hholds : Holds memory state) :
    state.heap.Owns (state.made.flatMap Made.blocks ++ state.others) :=
  ⟨hholds.reachable.tracks, hholds.live⟩

theorem Holds.mem_live (hholds : Holds memory state) {block : Block}
    (hblock : block ∈ state.made.flatMap Made.blocks ++ state.others) :
    block ∈ state.heap.live :=
  hholds.live.mem_iff.mpr hblock

theorem Holds.step (hholds : Holds memory state) (hstep : Step symbols state after) :
    Holds memory after ∧ ∀ block ∈ state.made.flatMap Made.blocks,
      PayloadKept block state.heap.heap after.heap.heap := by
  have hgrows := Grows.refl hholds.reachable
  have hkept : ∀ {state' : HeapState},
      Grows memory state.heap.live state.heap state' →
      ∀ block ∈ state.made.flatMap Made.blocks,
        PayloadKept block state.heap.heap state'.heap := fun hgrows block hblock =>
    hgrows.kept block (hholds.mem_live (List.mem_append_left _ hblock))
  cases hstep with
  | create name entry proc hname hcreate =>
      have hgrows := threadKcreate_grows hholds.reachable hname entry.isLt hcreate
      refine ⟨⟨hgrows.reachable, ?_⟩, hkept hgrows⟩
      apply (((hholds.live.cons _).cons _).cons _).trans
      rw [List.perm_iff_count]
      intro block
      simp only [CreationState.create, Made.blocks, List.flatMap_append,
        List.flatMap_singleton, List.count_append, List.count_cons, List.count_nil]
      omega
  | kmalloc sz hsz hrun =>
      have hgrows := hgrows.kmalloc hsz hrun
      exact ⟨⟨hgrows.reachable, (hholds.live.cons _).trans List.perm_middle.symm⟩, hkept hgrows⟩
  | kfree block hblock hrun =>
      have hlive := hholds.mem_live (List.mem_append_right _ hblock)
      have hperm : (state.made.flatMap Made.blocks ++ state.others).Perm
          (block :: (state.made.flatMap Made.blocks ++ state.others.erase block)) :=
        ((List.perm_cons_erase hblock).append_left _).trans List.perm_middle
      obtain ⟨freed, hfree, howns, hfreed⟩ := (hholds.owns.perm hperm).kfree
      rw [HeapState.kfree, if_pos ⟨block, hlive, rfl⟩, hrun] at hfree
      obtain rfl := Except.ok.inj hfree
      refine ⟨⟨?_, howns.live⟩, fun other hother =>
        hfreed other (List.mem_append_left _ hother)⟩
      refine @HeapReachable.step memory _ _ (.kfree block.ptr) hholds.reachable
        ⟨block, hlive, rfl⟩ ?_
      simp [HeapCall.run, hrun]
  | write block address byte hblock hlower hupper =>
      refine ⟨⟨?_, hholds.live⟩, ?_⟩
      · exact @HeapReachable.step memory _ _ (.write address byte) hholds.reachable
          ⟨block, hholds.mem_live (List.mem_append_right _ hblock), hlower, hupper⟩ rfl
      · intro other hother target hfrom hto
        have hapart := (List.pairwise_append.mp hholds.owns.apart).2.2 other hother block
          hblock
        unfold Block.Apart at hapart
        exact Function.update_of_ne (by omega) ..

theorem Holds.reaches (hreaches : Reaches symbols memory state) : Holds memory state := by
  induction hreaches with
  | refl => exact ⟨HeapReachable.init, List.Perm.refl []⟩
  | tail _ hstep ih => exact (ih.step hstep).1

end Runs

/-! ## Where the threads are -/

/-- The structure and the stack of a thread. -/
structure Region where
  ptr : ℕ
  low : ℕ
  high : ℕ

def Made.region (made : Made) : Region where
  ptr := made.t
  low := made.rspBase
  high := made.rspBase + stackSize

/-- The thread that runs `sched_init` has a `Thread` from the heap, too, but it runs on the
stack that the boot loader gave it. -/
structure IsInit (init : Region) (state : CreationState) : Prop where
  thread : ⟨init.ptr, sizeofThread⟩ ∈ state.others
  stack : init.high ≤ heapStart ∨ heapEnd ≤ init.low
  high_lt : init.high < 2 ^ 64

/-- `none` is the thread that runs `sched_init`. -/
def region (init : Region) (made : List Made) : Option (Fin made.length) → Region
  | none => init
  | some index => (made.get index).region

structure Region.Apart (region other : Region) : Prop where
  stack : region.high ≤ other.low ∨ other.high ≤ region.low
  thread : region.ptr + sizeofThread ≤ other.ptr ∨ other.ptr + sizeofThread ≤ region.ptr

/-- The structure of one thread and the stack of another. -/
def Region.OffStack (region other : Region) : Prop :=
  region.ptr + sizeofThread ≤ other.low ∨ other.high ≤ region.ptr

section Regions

variable {memory : Memory} {state : CreationState} {init : Region}

theorem Region.Apart.symm {region other : Region} (hapart : region.Apart other) :
    other.Apart region :=
  ⟨hapart.stack.symm, hapart.thread.symm⟩

theorem Holds.bounds (hholds : Holds memory state) {made : Made} (hmade : made ∈ state.made) :
    heapStart ≤ made.t ∧ made.t + sizeofThread ≤ heapEnd ∧ heapStart ≤ made.rspBase ∧
      made.rspBase + stackSize ≤ heapEnd := by
  have hblock : ∀ block ∈ made.blocks, _ := fun block hblock => hholds.owns.bounds
    (List.mem_append_left state.others (List.mem_flatMap.mpr ⟨made, hmade, hblock⟩))
  have hthread := hblock ⟨made.t, sizeofThread⟩ (by simp [Made.blocks])
  have hstack := hblock ⟨made.rspBase, stackSize⟩ (by simp [Made.blocks])
  exact ⟨hthread.2.1, hthread.2.2, hstack.2.1, hstack.2.2⟩

theorem region_made_apart (hholds : Holds memory state) :
    state.made.Pairwise fun made other =>
      made.region.Apart other.region ∧ made.region.OffStack other.region ∧
        other.region.OffStack made.region := by
  have hpairwise := (List.pairwise_flatMap.mp
    (List.pairwise_append.mp hholds.owns.apart).1).2
  refine hpairwise.imp fun {made other} hblocks => ?_
  have hmem : ∀ made : Made, ⟨made.t, sizeofThread⟩ ∈ made.blocks ∧
      ⟨made.rspBase, stackSize⟩ ∈ made.blocks := by simp [Made.blocks]
  exact ⟨⟨hblocks _ (hmem made).2 _ (hmem other).2, hblocks _ (hmem made).1 _ (hmem other).1⟩,
    hblocks _ (hmem made).1 _ (hmem other).2, (hblocks _ (hmem made).2 _ (hmem other).1).symm⟩

/-- A created thread's own structure is not on its stack. -/
theorem region_made_offStack (hholds : Holds memory state) {made : Made}
    (hmade : made ∈ state.made) : made.region.OffStack made.region := by
  have hown := (List.pairwise_flatMap.mp
    (List.pairwise_append.mp hholds.owns.apart).1).1 made hmade
  exact (List.pairwise_cons.mp hown).1 _ List.mem_cons_self

theorem IsInit.apart (hinit : IsInit init state) (hholds : Holds memory state) {made : Made}
    (hmade : made ∈ state.made) :
    init.Apart made.region ∧ init.OffStack made.region ∧ made.region.OffStack init := by
  have hbounds := hholds.bounds hmade
  have hstack := hinit.stack
  have happend := (List.pairwise_append.mp hholds.owns.apart).2.2
  have hthread := happend ⟨made.t, sizeofThread⟩
    (List.mem_flatMap.mpr ⟨made, hmade, by simp [Made.blocks]⟩) _ hinit.thread
  have hstackThread := happend ⟨made.rspBase, stackSize⟩
    (List.mem_flatMap.mpr ⟨made, hmade, by simp [Made.blocks]⟩) _ hinit.thread
  unfold Block.Apart at hthread hstackThread
  refine ⟨⟨?_, hthread.symm⟩, hstackThread.symm, ?_⟩
  · simp only [Made.region]
    omega
  · simp only [Region.OffStack, Made.region]
    omega

theorem IsInit.offStack (hinit : IsInit init state) (hholds : Holds memory state) :
    init.OffStack init := by
  have hbounds := hholds.owns.bounds (List.mem_append_right _ hinit.thread)
  have hstack := hinit.stack
  simp only at hbounds
  unfold Region.OffStack
  omega

theorem region_apart (hinit : IsInit init state) (hholds : Holds memory state)
    {thread other : Option (Fin state.made.length)} (hne : thread ≠ other) :
    (region init state.made thread).Apart (region init state.made other) := by
  cases thread with
  | none =>
      cases other with
      | none => exact absurd rfl hne
      | some index => exact (hinit.apart hholds (List.get_mem ..)).1
  | some index =>
      cases other with
      | none => exact (hinit.apart hholds (List.get_mem ..)).1.symm
      | some index' =>
          have hpairs := List.pairwise_iff_get.mp (region_made_apart hholds)
          rcases lt_or_gt_of_ne (fun heq => hne (congrArg some heq) : index ≠ index') with
            hlt | hgt
          · exact (hpairs index index' hlt).1
          · exact (hpairs index' index hgt).1.symm

theorem region_offStack (hinit : IsInit init state) (hholds : Holds memory state)
    (thread other : Option (Fin state.made.length)) :
    (region init state.made thread).OffStack (region init state.made other) := by
  cases thread with
  | none =>
      cases other with
      | none => exact hinit.offStack hholds
      | some index => exact (hinit.apart hholds (List.get_mem ..)).2.1
  | some index =>
      cases other with
      | none => exact (hinit.apart hholds (List.get_mem ..)).2.2
      | some index' =>
          have hpairs := List.pairwise_iff_get.mp (region_made_apart hholds)
          rcases lt_trichotomy index index' with hlt | rfl | hgt
          · exact (hpairs index index' hlt).2.1
          · exact region_made_offStack hholds (List.get_mem ..)
          · exact (hpairs index' index hgt).2.2

theorem region_bounds (hinit : IsInit init state) (hholds : Holds memory state)
    (thread : Option (Fin state.made.length)) :
    (region init state.made thread).ptr < 2 ^ 64 ∧
      (region init state.made thread).high < 2 ^ 64 := by
  have hend := heapEnd_lt
  have hsize : sizeofThread = 136 := rfl
  cases thread with
  | none =>
      have hbounds := hholds.owns.bounds (List.mem_append_right _ hinit.thread)
      simp only at hbounds
      exact ⟨show init.ptr < 2 ^ 64 by omega, hinit.high_lt⟩
  | some index =>
      have hbounds := hholds.bounds (List.get_mem state.made index)
      simp only [region, Made.region]
      omega

end Regions

/-- The threads' structures and stacks, as the heap has laid them out. -/
def space (symbols : Symbols) {memory : Memory} {state : CreationState} {init : Region}
    (hinit : IsInit init state) (hholds : Holds memory state) :
    ThreadSpace (Option (Fin state.made.length)) where
  symbols := symbols
  ptr thread := (region init state.made thread).ptr
  low thread := (region init state.made thread).low
  high thread := (region init state.made thread).high
  ptr_lt thread := (region_bounds hinit hholds thread).1
  high_lt thread := (region_bounds hinit hholds thread).2
  stacks_apart _ _ hne := (region_apart hinit hholds hne).stack
  threads_apart _ _ hne := (region_apart hinit hholds hne).thread
  stack_apart thread other := region_offStack hinit hholds thread other

/-! ## The run of the thread that creates them -/

/-- The threads that exist after the first `count` have been created. -/
def phases (made : List Made) (count : ℕ) : Option (Fin made.length) → Phase
  | none => .running .started
  | some index => if index < count then .fresh (made.get index).entry else .absent

/-- The machine while `sched_init` runs, with the bytes of the heap. -/
def record (cpu : Cpu) (made : List Made) (count : ℕ) (heap : Heap) :
    SwitchState (Option (Fin made.length)) where
  machine := { cpu with memory := heap.memory }
  running := none
  phase := phases made count

section Record

variable {symbols : Symbols} {memory : Memory} {state before after : CreationState}
variable {init : Region}

theorem boots_record (cpu : Cpu) (made : List Made) (heap : Heap) :
    (record cpu made 0 heap).Boots := by
  refine ⟨rfl, ?_⟩
  intro thread hthread
  cases thread with
  | none => exact absurd rfl hthread
  | some index => simp [record, phases]

theorem phases_succ {made : List Made} {count : ℕ} (hcount : count < made.length) :
    phases made (count + 1) = Function.update (phases made count) (some ⟨count, hcount⟩)
      (.fresh (made.get ⟨count, hcount⟩).entry) := by
  funext thread
  cases thread with
  | none => rfl
  | some index =>
      by_cases hindex : index = ⟨count, hcount⟩
      · subst hindex
        rw [Function.update_self]
        exact if_pos (Nat.lt_succ_self count)
      · rw [Function.update_of_ne (fun heq => hindex (Option.some.inj heq))]
        have hne : (index : ℕ) ≠ count := fun heq => hindex (Fin.ext heq)
        simp only [phases]
        by_cases hlt : (index : ℕ) < count
        · rw [if_pos hlt, if_pos (by omega)]
        · rw [if_neg hlt, if_neg (by omega)]

theorem Step.made_begins (hstep : Step symbols before after) : before.made <+: after.made := by
  cases hstep with
  | create name entry proc _ _ => exact List.prefix_append ..
  | kmalloc _ _ _ | kfree _ _ _ | write _ _ _ _ _ _ => exact List.prefix_rfl

/-- Whoever runs, the threads that exist already keep their stacks. -/
theorem keeps_record (cpu : Cpu) (hinit : IsInit init state) (hholds : Holds memory state)
    (hbegins : before.made <+: state.made)
    (hkept : ∀ block ∈ before.made.flatMap Made.blocks,
      PayloadKept block before.heap.heap after.heap.heap) :
    (record cpu state.made before.made.length before.heap.heap).Keeps
      (space symbols hinit hholds) after.heap.heap.memory := by
  refine ⟨?_, ?_⟩
  · intro thread hthread hexists
    cases thread with
    | none => exact absurd rfl hthread
    | some index =>
        have hindex : (index : ℕ) < before.made.length := by
          by_contra hge
          exact hexists (if_neg hge)
        have hget : state.made.get index = before.made[index] :=
          (List.IsPrefix.getElem hbegins hindex).symm
        have hblock : ∀ block ∈ (state.made.get index).blocks,
            PayloadKept block before.heap.heap after.heap.heap := by
          intro block hblock
          rw [hget] at hblock
          exact hkept block (List.mem_flatMap.mpr ⟨_, List.getElem_mem hindex, hblock⟩)
        have hthreadKept := hblock ⟨(state.made.get index).t, sizeofThread⟩
          List.mem_cons_self
        have hstackKept := hblock ⟨(state.made.get index).rspBase, stackSize⟩
          (List.mem_cons_of_mem _ List.mem_cons_self)
        refine ⟨hstackKept, ?_⟩
        intro target hlower hupper
        exact hthreadKept target hlower
          (hupper.trans_le (Nat.add_le_add_left (show 8 ≤ sizeofThread by decide) _))
  · intro target hlower hupper
    exact absurd hupper (not_lt.mpr hlower)

/-- `thread_kcreate` makes the next thread a fresh one. -/
theorem create_record {heap : Heap} {t proc : ℕ} {name : List Byte} {entry : Word} (cpu : Cpu)
    (hinit : IsInit init state) (hholds : Holds memory state)
    (hbefore : Holds memory before) (hname : name.length < threadMaxNameLength)
    (hcreate : threadKcreate symbols before.heap.heap before.tidCounter name entry.toNat proc =
      some (heap, t))
    (hbegins : (before.create heap t entry).made <+: state.made)
    (hkeeps : (record cpu state.made before.made.length before.heap.heap).Keeps
      (space symbols hinit hholds) heap.memory) :
    SwitchState.Step (space symbols hinit hholds)
      (record cpu state.made before.made.length before.heap.heap)
      (record cpu state.made (before.made.length + 1) heap) := by
  have hnew : before.made.length < (before.create heap t entry).made.length := by
    simp [CreationState.create]
  have hcount := hnew.trans_le hbegins.length_le
  have hget : state.made.get ⟨before.made.length, hcount⟩ =
      ⟨t, heap.load (t + threadRspBase), entry⟩ := by
    have hlast := List.IsPrefix.getElem hbegins hnew
    simpa [CreationState.create] using hlast.symm
  have hregion : region init state.made (some ⟨before.made.length, hcount⟩) =
      Made.region ⟨t, heap.load (t + threadRspBase), entry⟩ := congrArg Made.region hget
  have hptr : (space symbols hinit hholds).ptr (some ⟨before.made.length, hcount⟩) = t :=
    congrArg Region.ptr hregion
  have hlow : (space symbols hinit hholds).low (some ⟨before.made.length, hcount⟩) =
      heap.load (t + threadRspBase) := congrArg Region.low hregion
  have hcreated : Created (space symbols hinit hholds) heap.memory
      (some ⟨before.made.length, hcount⟩) entry := by
    refine ⟨memory, before.heap, before.tidCounter, name, proc, heap, hbefore.reachable,
      hname, ?_, ?_, rfl, ⟨fun _ _ _ => rfl, fun _ _ _ => rfl⟩⟩
    · rw [hptr]
      exact hcreate
    · rw [hptr, hlow]
      rfl
  have hphases := phases_succ hcount
  rw [hget] at hphases
  rw [record, record, hphases]
  exact .create _ _ entry (if_neg (Nat.lt_irrefl _)) hkeeps hcreated

theorem reaches_record (cpu : Cpu) (hinit : IsInit init state) (hholds : Holds memory state)
    (hreaches : Reaches symbols memory before) (hbegins : before.made <+: state.made) :
    SwitchState.Reaches (space symbols hinit hholds)
      (record cpu state.made 0 (kmallocInit memory))
      (record cpu state.made before.made.length before.heap.heap) := by
  induction hreaches with
  | refl => exact .refl
  | @tail before after hbefore hstep ih =>
      have hholdsBefore := Holds.reaches hbefore
      have hbeginsBefore := hstep.made_begins.trans hbegins
      have hkeeps := @keeps_record symbols memory state before after init cpu hinit hholds
        hbeginsBefore (hholdsBefore.step hstep).2
      refine (ih hbeginsBefore).tail ?_
      cases hstep with
      | kmalloc _ _ _ | kfree _ _ _ | write _ _ _ _ _ _ => exact .compute _ hkeeps
      | @create heap t name entry proc hname hcreate =>
          have hlength : (before.create heap t entry).made.length = before.made.length + 1 :=
            List.length_append
          rw [hlength]
          exact create_record cpu hinit hholds hholdsBefore hname hcreate hbegins hkeeps

end Record

/-- In every run in which threads with names that fit are created, next to whatever else
uses the heap, their structures and stacks lie apart from each other and from those of the
thread that creates them, and the run is one at whose end every created thread is fresh:
the scheduler can start from it. -/
theorem created_threads_start {symbols : Symbols} {memory : Memory} {state : CreationState}
    (hreaches : Reaches symbols memory state) {init : Region} (hinit : IsInit init state)
    {cpu : Cpu} (hflag : cpu.rflags.interrupts = true) :
    ∃ (space : ThreadSpace (Option (Fin state.made.length)))
      (boot start : SwitchState (Option (Fin state.made.length))),
      space.symbols = symbols ∧
      (∀ thread, (⟨space.ptr thread, space.low thread, space.high thread⟩ : Region) =
        region init state.made thread) ∧
      boot.Boots ∧ SwitchState.Reaches space boot start ∧
      SwitchRefinement.Starts (finSuccEquiv state.made.length).symm start ∧
      start.machine = { cpu with memory := state.heap.heap.memory } ∧
      ∀ index, start.phase (some index) = .fresh (state.made.get index).entry := by
  have hholds := Holds.reaches hreaches
  have hfresh : ∀ index, phases state.made state.made.length (some index) =
      .fresh (state.made.get index).entry := fun index => if_pos index.isLt
  refine ⟨space symbols hinit hholds, record cpu state.made 0 (kmallocInit memory),
    record cpu state.made state.made.length state.heap.heap, rfl, fun _ => rfl,
    boots_record cpu state.made _, reaches_record cpu hinit hholds hreaches List.prefix_rfl,
    ⟨?_, ?_, hflag⟩, rfl, hfresh⟩
  · simp [record, Sched.State.initThread]
  · intro thread hthread
    cases thread with
    | none => exact absurd rfl hthread
    | some index => exact ⟨_, hfresh index⟩

/-- `sched_init` allocates its own `Thread` and creates one thread. -/
theorem created_threads_start_one :
    ∃ (state : CreationState) (init : Region), Reaches sampleSymbols (fun _ => 0) state ∧
      IsInit init state ∧ state.made.map Made.entry = [0x7000] ∧
      ∃ (space : ThreadSpace (Option (Fin state.made.length)))
        (boot start : SwitchState (Option (Fin state.made.length))),
        boot.Boots ∧ SwitchState.Reaches space boot start ∧
        ∀ index, start.phase (some index) = .fresh (state.made.get index).entry := by
  have hrun : ((Kmalloc.kmalloc (kmallocInit fun _ => 0) sizeofThread).bind fun own =>
      threadKcreate sampleSymbols own.1 0 [0x6f, 0x6e, 0x65] 0x7000 0).isSome = true := by
    decide +kernel
  obtain ⟨⟨heap, t⟩, hcreated⟩ := Option.isSome_iff_exists.mp hrun
  obtain ⟨⟨own, ptr⟩, hkmalloc, hcreate⟩ := Option.bind_eq_some_iff.mp hcreated
  obtain ⟨state, hothers, hmade, hreaches⟩ : ∃ state : CreationState,
      ⟨ptr, sizeofThread⟩ ∈ state.others ∧ state.made.map Made.entry = [0x7000] ∧
        Reaches sampleSymbols (fun _ => 0) state :=
    ⟨_, List.mem_cons_of_mem _ List.mem_cons_self, rfl,
      (Relation.ReflTransGen.refl.tail (.kmalloc sizeofThread (by decide) hkmalloc)).tail
        (.create [0x6f, 0x6e, 0x65] 0x7000 0 (by decide) hcreate)⟩
  have hinit : IsInit ⟨ptr, 0x2000, 0x4000⟩ state :=
    ⟨hothers, Or.inl (show 0x4000 ≤ heapStart by decide), show 0x4000 < 2 ^ 64 by decide⟩
  obtain ⟨space, boot, start, -, -, hboots, hstart, -, -, hfresh⟩ :=
    created_threads_start hreaches hinit
      (show bootThread.machine.rflags.interrupts = true by decide)
  exact ⟨state, _, hreaches, hinit, hmade, space, boot, start, hboots, hstart, hfresh⟩

end Flurry.ThreadCreation
