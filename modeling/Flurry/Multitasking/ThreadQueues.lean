import Flurry.Multitasking.ThreadList

/-!
# Thread lists are queues

Any number of lists share the heap with other clients.  Whatever they all do, every
list is a first-in first-out queue of threads, and the live blocks are those of the
lists, with one node for each queued thread, and those of the other clients.
-/

namespace Flurry.ThreadList

open ByteMemory Kmalloc LinkedQueue

/-! ## Calls -/

/-- A call to a list, by the number of the list, or by another client of the heap, which
numbers its blocks. -/
inductive Call where
  | new
  | add (list : ℕ) (thread : Thread)
  | getNext (list : ℕ)
  | kmalloc (sz : ℕ)
  | kfree (block : ℕ)
  | write (block offset : ℕ) (byte : Byte)

/-- The heap, the pointers that `thread_list_new` returned, and the blocks that other
clients hold. -/
structure ListsState where
  heap : HeapState
  lists : List ℕ
  others : List Block

def ListsState.init (memory : Memory) : ListsState where
  heap := ⟨kmallocInit memory, []⟩
  lists := []
  others := []

/-- The state after a call, and what `thread_list_get_next` returned. -/
def Call.run (state : ListsState) : Call → Except Stop (ListsState × Option ℕ)
  | new => do
      let (heap, list) ← threadListNew state.heap
      return ({ state with heap := heap, lists := state.lists ++ [list] }, none)
  | add list thread => do
      let heap ← threadListAdd state.heap (state.lists.getD list 0) thread.address
      return ({ state with heap := heap }, none)
  | getNext list => do
      let (heap, t) ← threadListGetNext state.heap (state.lists.getD list 0)
      return ({ state with heap := heap }, some t)
  | kmalloc sz => do
      let (heap, ptr) ← state.heap.kmalloc sz
      return ({ state with heap := heap, others := ⟨ptr, sz⟩ :: state.others }, none)
  | kfree block => do
      let heap ← state.heap.kfree (state.others.getD block ⟨0, 0⟩).ptr
      return ({ state with heap := heap, others := state.others.eraseIdx block }, none)
  | write block offset byte => do
      let heap ← state.heap.storeBytes 1 ((state.others.getD block ⟨0, 0⟩).ptr + offset) byte
      return ({ state with heap := heap }, none)

/-- Calls one after another, with everything `thread_list_get_next` returned. -/
def runCalls : ListsState → List Call → Except Stop (ListsState × List ℕ)
  | state, [] => return (state, [])
  | state, call :: calls => do
      let (state, answer) ← call.run state
      let (state, answers) ← runCalls state calls
      return (state, answer.toList ++ answers)

/-! ## Queues -/

/-- The queues, and the sizes of the blocks of other clients. -/
structure Queues where
  lists : List (List Thread)
  sizes : List ℕ

/-- The list or block exists, and the other clients keep to the heap's rules. -/
def Call.Valid (queues : Queues) : Call → Prop
  | new => True
  | add list _ => list < queues.lists.length
  | getNext list => list < queues.lists.length
  | kmalloc sz => sz ≤ heapSize
  | kfree block => block < queues.sizes.length
  | write block offset _ => offset < queues.sizes.getD block 0

def Queues.next (queues : Queues) : Call → Queues
  | .new => { queues with lists := queues.lists ++ [[]] }
  | .add list thread => { queues with lists := queues.lists.modify list (· ++ [thread]) }
  | .getNext list => { queues with lists := queues.lists.modify list List.tail }
  | .kmalloc sz => { queues with sizes := sz :: queues.sizes }
  | .kfree block => { queues with sizes := queues.sizes.eraseIdx block }
  | .write _ _ _ => queues

/-- What is taken from a queue, `none` if it is empty. -/
def Queues.answer (queues : Queues) : Call → Option (Option Thread)
  | .getNext list => some (queues.lists.getD list []).head?
  | _ => none

def Queues.run : Queues → List Call → Queues × List (Option Thread)
  | queues, [] => (queues, [])
  | queues, call :: calls =>
      let (last, answers) := (queues.next call).run calls
      (last, (queues.answer call).toList ++ answers)

def Queues.Valid : Queues → List Call → Prop
  | _, [] => True
  | queues, call :: calls => call.Valid queues ∧ (queues.next call).Valid calls

/-! ## Representation -/

/-- The lists are in the heap, and the live blocks are theirs and those of the other
clients. -/
structure ListsState.Shows (state : ListsState) (views : List View) (queues : Queues) :
    Prop where
  owns : state.heap.Owns (views.flatMap View.blocks ++ state.others)
  holds : ∀ view ∈ views, view.Holds state.heap.heap
  lists : state.lists = views.map View.list
  contents : queues.lists = views.map View.queue
  sizes : queues.sizes = state.others.map Block.sz

def ListsState.Represents (state : ListsState) (queues : Queues) : Prop :=
  ∃ views, state.Shows views queues

theorem represents_init (memory : Memory) :
    (ListsState.init memory).Represents ⟨[], []⟩ :=
  ⟨[], HeapState.Owns.init memory, nofun, rfl, rfl, rfl⟩

section Steps

variable {state : ListsState} {views : List View} {queues : Queues}

/-- The lists stay as they are if their blocks do. -/
theorem holds_of_kept {heap heap' : Heap} (hholds : ∀ view ∈ views, view.Holds heap)
    (hkept : ∀ block ∈ views.flatMap View.blocks, PayloadKept block heap heap') :
    ∀ view ∈ views, view.Holds heap' :=
  fun view hview => (hholds view hview).kept fun block hblock =>
    hkept block (List.mem_flatMap.mpr ⟨view, hview, hblock⟩)

/-- The blocks of one list first, then those of the other lists and clients. -/
theorem blocks_perm (before after : List View) (view : View) (others : List Block) :
    ((before ++ view :: after).flatMap View.blocks ++ others).Perm
      (view.blocks ++ ((before ++ after).flatMap View.blocks ++ others)) := by
  rw [← List.append_assoc]
  apply List.Perm.append_right
  simp only [List.flatMap_append, List.flatMap_cons]
  rw [← List.append_assoc, ← List.append_assoc]
  exact List.Perm.append_right _ List.perm_append_comm

/-- One list can be taken out of the others and changed on its own. -/
theorem ListsState.Shows.focus (hshows : state.Shows views queues) {list : ℕ}
    (hlist : list < queues.lists.length) :
    ∃ view rest, Owned state.heap view rest ∧ state.lists.getD list 0 = view.list ∧
      queues.lists.getD list [] = view.queue ∧
      ∀ heap view' change, Owned heap view' rest →
        (∀ block ∈ rest, PayloadKept block state.heap.heap heap.heap) →
        view'.list = view.list → view'.queue = change view.queue →
          ({ state with heap := heap } : ListsState).Represents
            { queues with lists := queues.lists.modify list change } := by
  obtain ⟨howns, hholds, hlists, hcontents, hsizes⟩ := hshows
  rw [hcontents, List.length_map] at hlist
  obtain ⟨before, view, after, rfl, rfl, -⟩ := List.exists_of_modify id hlist
  refine ⟨view, (before ++ after).flatMap View.blocks ++ state.others,
    ⟨howns.perm (blocks_perm before after view state.others), hholds view (by simp)⟩, ?_, ?_, ?_⟩
  · simp [hlists]
  · simp [hcontents]
  · intro heap view' change howned hkept hsame hchange
    have hothers : ∀ other ∈ before ++ after, other.Holds heap.heap := by
      apply holds_of_kept (fun other hother => hholds other ?_) fun block hblock =>
        hkept block (List.mem_append_left _ hblock)
      exact List.mem_append.mpr ((List.mem_append.mp hother).imp_right
        (List.mem_cons_of_mem view))
    refine ⟨before ++ view' :: after,
      howned.owns.perm (blocks_perm before after view' state.others).symm, ?_, ?_, ?_, hsizes⟩
    · intro other hother
      rcases List.mem_append.mp hother with hbefore | hafter
      · exact hothers other (List.mem_append_left after hbefore)
      · rcases List.mem_cons.mp hafter with rfl | hafter
        · exact howned.holds
        · exact hothers other (List.mem_append_right before hafter)
    · simp [hlists, hsame]
    · simp [hcontents, hchange, List.modify_eq_take_cons_drop, List.drop_append]

theorem run_new (hshows : state.Shows views queues) :
    Returns (Call.new.run state) fun result =>
      result.1.Represents (queues.next .new) ∧ result.2 = none := by
  apply (threadListNew_spec hshows.owns).bind
  rintro ⟨heap, list⟩ ⟨howned, hkept⟩
  have hperm : (View.blocks ⟨list, []⟩ ++ (views.flatMap View.blocks ++ state.others)).Perm
      ((views ++ [(⟨list, []⟩ : View)]).flatMap View.blocks ++ state.others) := by
    rw [List.flatMap_append, ← List.append_assoc, List.flatMap_singleton]
    exact List.Perm.append_right _ List.perm_append_comm
  refine Returns.ok ⟨⟨views ++ [⟨list, []⟩], howned.owns.perm hperm, ?_, ?_, ?_,
    hshows.sizes⟩, rfl⟩
  · intro view hview
    rcases List.mem_append.mp hview with hview | hview
    · exact holds_of_kept hshows.holds (fun block hblock =>
        hkept block (List.mem_append_left _ hblock)) view hview
    · obtain rfl := List.mem_singleton.mp hview
      exact howned.holds
  · simp [hshows.lists]
  · simp [Queues.next, hshows.contents, View.queue]

theorem run_add (hshows : state.Shows views queues) {list : ℕ} {thread : Thread}
    (hlist : list < queues.lists.length) :
    Returns ((Call.add list thread).run state) fun result =>
      result.1.Represents (queues.next (.add list thread)) ∧ result.2 = none := by
  obtain ⟨view, rest, howned, hptr, -, hback⟩ := hshows.focus hlist
  rw [Call.run, hptr]
  apply (threadListAdd_spec howned).bind
  rintro heap ⟨node, howned', hkept⟩
  refine Returns.ok ⟨hback heap _ (· ++ [thread]) howned' hkept rfl ?_, rfl⟩
  simp [View.push, View.queue]

/-- The thread that the next `thread_list_get_next` will return. -/
theorem threadListHead_eq (hrepresents : state.Represents queues) {list : ℕ}
    (hlist : list < queues.lists.length) :
    threadListHead state.heap (state.lists.getD list 0) =
      .ok (pointer (queues.lists.getD list []).head?) := by
  obtain ⟨views, hshows⟩ := hrepresents
  obtain ⟨view, rest, howned, hptr, hqueue, -⟩ := hshows.focus hlist
  rw [hptr, hqueue]
  exact threadListHead_spec howned

theorem run_getNext (hshows : state.Shows views queues) {list : ℕ}
    (hlist : list < queues.lists.length) :
    ∃ next, (Call.getNext list).run state =
        .ok (next, some (pointer (queues.lists.getD list []).head?)) ∧
      next.Represents (queues.next (.getNext list)) := by
  obtain ⟨view, rest, howned, hptr, hqueue, hback⟩ := hshows.focus hlist
  obtain ⟨heap, hrun, howned', hkept⟩ := threadListGetNext_spec howned
  refine ⟨{ state with heap := heap }, ?_, hback heap _ List.tail howned' hkept rfl ?_⟩
  · simp only [Call.run, hptr, hqueue, hrun, ok_bind]
    rfl
  · simp [View.pop, View.queue]

theorem run_kmalloc (hshows : state.Shows views queues) {sz : ℕ} (hsz : sz ≤ heapSize) :
    Returns ((Call.kmalloc sz).run state) fun result =>
      result.1.Represents (queues.next (.kmalloc sz)) ∧ result.2 = none := by
  apply (hshows.owns.kmalloc hsz).bind
  rintro ⟨heap, ptr⟩ ⟨howns, hkept⟩
  refine Returns.ok ⟨⟨views, howns.perm List.perm_middle.symm, ?_, hshows.lists,
    hshows.contents, ?_⟩, rfl⟩
  · exact holds_of_kept hshows.holds fun block hblock =>
      hkept block (List.mem_append_left _ hblock)
  · simp [Queues.next, hshows.sizes]

theorem run_kfree (hshows : state.Shows views queues) {index : ℕ}
    (hindex : index < queues.sizes.length) :
    Returns ((Call.kfree index).run state) fun result =>
      result.1.Represents (queues.next (.kfree index)) ∧ result.2 = none := by
  have hothers : index < state.others.length := by simpa [hshows.sizes] using hindex
  have hperm : (views.flatMap View.blocks ++ state.others).Perm
      (state.others[index] ::
        (views.flatMap View.blocks ++ state.others.eraseIdx index)) :=
    ((List.getElem_cons_eraseIdx_perm hothers).symm.append_left _).trans List.perm_middle
  obtain ⟨heap, hrun, howns, hkept⟩ := (hshows.owns.perm hperm).kfree
  have hblock : state.others.getD index ⟨0, 0⟩ = state.others[index] := by
    rw [List.getD_eq_getElem _ _ hothers]
  rw [Call.run, hblock, hrun, ok_bind]
  refine Returns.ok ⟨⟨views, howns, ?_, hshows.lists, hshows.contents, ?_⟩, rfl⟩
  · exact holds_of_kept hshows.holds fun block hblock =>
      hkept block (List.mem_append_left _ hblock)
  · simp [Queues.next, hshows.sizes, List.eraseIdx_map]

theorem run_write (hshows : state.Shows views queues) {index offset : ℕ} {byte : Byte}
    (hoffset : offset < queues.sizes.getD index 0) :
    Returns ((Call.write index offset byte).run state) fun result =>
      result.1.Represents (queues.next (.write index offset byte)) ∧ result.2 = none := by
  have hindex : index < state.others.length := by
    by_contra hlarge
    have hzero : queues.sizes.getD index 0 = 0 := by
      apply List.getD_eq_default
      simpa [hshows.sizes] using hlarge
    omega
  have hsz : offset < state.others[index].sz := by
    simpa [hshows.sizes, hindex] using hoffset
  have hmem : state.others[index] ∈ views.flatMap View.blocks ++ state.others :=
    List.mem_append_right _ (List.getElem_mem hindex)
  obtain ⟨heap, hrun, howns, hmemory⟩ := hshows.owns.storeBytes hmem byte.val
    (show state.others[index].ptr ≤ state.others[index].ptr + offset by omega)
    (show state.others[index].ptr + offset + 1 ≤ _ by omega)
  rw [Call.run, List.getD_eq_getElem _ _ hindex, hrun, ok_bind]
  refine Returns.ok ⟨⟨views, howns, ?_, hshows.lists, hshows.contents, hshows.sizes⟩, rfl⟩
  apply holds_of_kept hshows.holds
  intro block hblock target hlower hupper
  have hapart := (List.pairwise_append.mp hshows.owns.apart).2.2 block hblock _
    (List.getElem_mem hindex)
  unfold Block.Apart at hapart
  rw [hmemory]
  exact store_of_not_mem (by omega)

/-- One call leaves the lists in step with the queues. -/
theorem run_represents (hrepresents : state.Represents queues) {call : Call}
    (hvalid : call.Valid queues) :
    Returns (call.run state) fun result =>
      result.1.Represents (queues.next call) ∧
        result.2 = (queues.answer call).map pointer := by
  obtain ⟨views, hshows⟩ := hrepresents
  cases call with
  | new => exact run_new hshows
  | add list thread => exact run_add hshows hvalid
  | getNext list =>
      obtain ⟨next, hrun, hnext⟩ := run_getNext hshows hvalid
      rw [hrun]
      exact Returns.ok ⟨hnext, rfl⟩
  | kmalloc sz => exact run_kmalloc hshows hvalid
  | kfree block => exact run_kfree hshows hvalid
  | write block offset byte => exact run_write hshows hvalid

/-- So do any number of calls. -/
theorem runCalls_represents (hrepresents : state.Represents queues) {calls : List Call}
    (hvalid : queues.Valid calls) :
    Returns (runCalls state calls) fun result =>
      result.1.Represents (queues.run calls).1 ∧
        result.2 = (queues.run calls).2.map pointer := by
  induction calls generalizing state queues with
  | nil => exact Returns.ok ⟨hrepresents, rfl⟩
  | cons call calls ih =>
      apply (run_represents hrepresents hvalid.1).bind
      rintro ⟨next, answer⟩ ⟨hnext, hanswer⟩
      apply (ih hnext hvalid.2).bind
      rintro ⟨last, answers⟩ ⟨hlast, hanswers⟩
      refine Returns.ok ⟨hlast, ?_⟩
      dsimp only at hanswer hanswers ⊢
      rw [hanswer, hanswers, Queues.run, List.map_append]
      cases queues.answer call <;> rfl

end Steps

theorem pointer_eq_zero_iff (thread : Option Thread) : pointer thread = 0 ↔ thread = none := by
  cases thread with
  | none => exact ⟨fun _ => rfl, fun _ => rfl⟩
  | some thread => exact ⟨fun hnull => absurd hnull thread.ne_null, nofun⟩

/-- Whatever is called on a fresh heap, either the heap runs out of memory or everything
that was taken from the lists is what queues give, the heap holds the lists with exactly
one node for each queued thread, and `thread_list_get_next` returns `NULL` for the empty
ones only. -/
theorem thread_lists_are_queues (memory : Memory) (calls : List Call)
    (hvalid : Queues.Valid ⟨[], []⟩ calls) :
    Returns (runCalls (ListsState.init memory) calls) fun result =>
      result.1.Represents (Queues.run ⟨[], []⟩ calls).1 ∧
      result.2 = (Queues.run ⟨[], []⟩ calls).2.map pointer ∧
      ∀ list queue, (Queues.run ⟨[], []⟩ calls).1.lists[list]? = some queue →
        ∃ next thread, (Call.getNext list).run result.1 = .ok (next, some thread) ∧
          (thread = 0 ↔ queue = []) := by
  apply (runCalls_represents (represents_init memory) hvalid).mono
  rintro ⟨state, answers⟩ ⟨hrepresents, hanswers⟩
  refine ⟨hrepresents, hanswers, ?_⟩
  intro list queue hqueue
  obtain ⟨views, hshows⟩ := hrepresents
  obtain ⟨hlist, hget⟩ := List.getElem?_eq_some_iff.mp hqueue
  obtain ⟨next, hrun, -⟩ := run_getNext hshows hlist
  refine ⟨next, _, hrun, ?_⟩
  rw [pointer_eq_zero_iff, List.getD_eq_getElem _ _ hlist, hget, List.head?_eq_none_iff]

def threadOne : Thread := ⟨0x1000, by decide, by decide⟩

def threadTwo : Thread := ⟨0x2000, by decide, by decide⟩

/-- Two lists, used in turn; the first one is emptied. -/
def twoLists : List Call :=
  [.new, .new, .add 0 threadOne, .add 1 threadTwo, .add 0 threadTwo, .getNext 0,
    .add 1 threadOne, .getNext 0, .getNext 0, .getNext 1]

theorem thread_lists_are_queues_two :
    (runCalls (ListsState.init fun _ => 0) twoLists).toOption.map Prod.snd =
        some [0x1000, 0x2000, 0, 0x2000] ∧
      Returns (runCalls (ListsState.init fun _ => 0) twoLists) fun result =>
        result.1.Represents ⟨[[], [threadOne]], []⟩ := by
  refine ⟨by decide +kernel, ?_⟩
  have hvalid : Queues.Valid ⟨[], []⟩ twoLists := by
    simp [twoLists, Queues.Valid, Call.Valid, Queues.next]
  exact (thread_lists_are_queues (fun _ => 0) twoLists hvalid).mono
    fun _ hqueues => hqueues.1

end Flurry.ThreadList
