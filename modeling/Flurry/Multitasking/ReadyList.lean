import Flurry.Multitasking.RoundRobin
import Flurry.Multitasking.Runner
import Flurry.Multitasking.ThreadQueues

/-!
# The scheduler with its list in the heap

In the scheduler's model `ready_threads` is a list of numbers.  In the code it is a
`ThreadList`, whose nodes are blocks of the heap that everyone else uses, too.  Here
the scheduler is run with the list in the heap, next to other clients: unless the heap
runs out of memory it does what the model does, so all that holds of the model's runs
holds of it.
-/

namespace Flurry.Sched

open ByteMemory Events

/-! ## The steps that use the list -/

def State.withReady (state : State) (ready : List ThreadPtr) : State :=
  { state with ready := ready }

def Frame.usesReady : Frame → Bool
  | switchPick | switchTake _ | rescheduleRequeue _ | wakeAdd _ => true
  | _ => false

section WithReady

variable {state after : State} {frame : Frame} {callers : List Frame} {now : ℕ}
variable (ready : List ThreadPtr)

@[simp]
theorem queue_withReady : (state.withReady ready).queue = state.queue := rfl

@[simp]
theorem threads_withReady : (state.withReady ready).threads = state.threads := rfl

theorem enqueueEvent_withReady (frames : List Frame) :
    (state.withReady ready).enqueueEvent frames =
      (state.enqueueEvent frames).withReady ready := by
  have hsame : eventEnqueue (state.withReady ready).queue (some (state.withReady ready).current) =
    eventEnqueue state.queue (some state.current) := rfl
  rw [State.enqueueEvent, State.enqueueEvent, hsame]
  cases eventEnqueue state.queue (some state.current) <;> rfl

/-- No other control point looks at the list. -/
theorem exec_withReady (hframe : frame.usesReady = false)
    (hexec : frame.exec callers state now = some after) :
    frame.exec callers (state.withReady ready) now = some (after.withReady ready) := by
  cases frame with
  | switchPick | switchTake head | rescheduleRequeue thread | wakeAdd thread =>
      exact Bool.noConfusion hframe
  | handlePeek | handleNext | handleRemove event | handleCallback event | wakeStatus thread =>
      simp only [Frame.exec, queue_withReady, threads_withReady] at hexec ⊢
      split at hexec <;> obtain rfl := Option.some.inj hexec <;> simp_all <;> rfl
  | handleTest event =>
      obtain ⟨hnow, ⟨hlater, rfl⟩ | ⟨hdue, rfl⟩⟩ := exec_handleTest_iff.mp hexec
      · exact exec_handleTest_iff.mpr ⟨hnow, Or.inl ⟨hlater, rfl⟩⟩
      · exact exec_handleTest_iff.mpr ⟨hnow, Or.inr ⟨hdue, rfl⟩⟩
  | handleArm next =>
      obtain ⟨hnow, rfl⟩ := exec_handleArm_iff.mp hexec
      exact exec_handleArm_iff.mpr ⟨hnow, rfl⟩
  | switchRearm =>
      obtain ⟨hnow, rfl⟩ := exec_switchRearm_iff.mp hexec
      exact exec_switchRearm_iff.mpr ⟨hnow, rfl⟩
  | switchEnqueue =>
      obtain rfl := Option.some.inj hexec
      exact congrArg some (enqueueEvent_withReady ready callers)
  | rescheduleEnqueue =>
      obtain ⟨hnow, rfl⟩ := exec_rescheduleEnqueue_iff.mp hexec
      refine exec_rescheduleEnqueue_iff.mpr ⟨hnow, ?_⟩
      rw [← enqueueEvent_withReady]
      rfl
  | sleepEnqueue time =>
      obtain ⟨hnow, rfl⟩ := exec_sleepEnqueue_iff.mp hexec
      refine exec_sleepEnqueue_iff.mpr ⟨hnow, ?_⟩
      rw [← enqueueEvent_withReady]
      rfl
  | _ =>
      obtain rfl := Option.some.inj hexec
      rfl

end WithReady

end Flurry.Sched

namespace Flurry.ReadyList

open ByteMemory Events Kmalloc ThreadList

/-! ## The list in the heap -/

/-- The scheduler, whose field `ready` is not used, and the heap.  `ready_threads` is the
first of the thread lists in it. -/
structure HeapSched where
  sched : Sched.State
  lists : ListsState

/-- The addresses of the `Thread` structures and the numbers they stand for. -/
structure Names where
  address : ThreadPtr → ThreadList.Thread
  number : ℕ → ThreadPtr

/-- The first `limit` threads have names of their own. -/
def Names.Tell (names : Names) (limit : ℕ) : Prop :=
  ∀ thread < limit, names.number (names.address thread).address = thread

section Code

variable (names : Names)

/-- `thread_list_add(ready_threads, thread)`. -/
def addReady (system : HeapSched) (thread : ThreadPtr) : Except Stop HeapSched := do
  let (lists, _) ← (Call.add 0 (names.address thread)).run system.lists
  return { system with lists := lists }

/-- The head of `ready_threads`. -/
def readyHead (system : HeapSched) : Except Stop (Option ThreadPtr) := do
  let t ← threadListHead system.lists.heap (system.lists.lists.getD 0 0)
  return if t ≠ 0 then some (names.number t) else none

/-- `get_next_thread`, once the head has been read.  Nobody else changes the list
meanwhile, so that `thread_list_get_next` finds it there. -/
def getNextThread (system : HeapSched) :
    Option ThreadPtr → Except Stop (HeapSched × ThreadPtr)
  | none => return (system, system.sched.idle)
  | some _ => do
      let (lists, readyT) ← (Call.getNext 0).run system.lists
      return ({ system with lists := lists }, names.number (readyT.getD 0))

/-- The `if` of `maybe_reschedule_thread`. -/
def requeue (system : HeapSched) (thread : ThreadPtr) : Except Stop HeapSched :=
  if thread = system.sched.idle then .ok system
  else match (system.sched.threads thread).status with
  | .ready | .running =>
      addReady names { system with sched := system.sched.setStatus thread .ready } thread
  | _ => .ok system

def HeapSched.withStack (system : HeapSched) (stack : List Sched.Frame) : HeapSched :=
  { system with sched := { system.sched with stack := stack } }

/-- Execute a control point; the result is `none` where the clock shows something it
cannot show. -/
def exec (callers : List Sched.Frame) (system : HeapSched) (now : ℕ) :
    Sched.Frame → Except Stop (Option HeapSched)
  | .switchPick => do
      let head ← readyHead names system
      return some (system.withStack (.switchTake head :: callers))
  | .switchTake head => do
      let (picked, next) ← getNextThread names system head
      if next = system.sched.current then return some (picked.withStack (.switchRearm :: callers))
      else return some (picked.withStack (.switchCurrent system.sched.current next :: callers))
  | .rescheduleRequeue thread => do
      let requeued ← requeue names system thread
      return some (requeued.withStack (.rescheduleEnqueue :: callers))
  | .wakeAdd thread => do
      let added ← addReady names system thread
      return some (added.withStack callers)
  | frame => return (frame.exec callers system.sched now).map fun sched =>
      { system with sched := sched }

/-- An input of the scheduler, or a call of another client of the heap, which has thread
lists of its own. -/
inductive Event where
  | sched (input : Sched.Input)
  | client (call : Call)

/-- The lists of the other clients come after `ready_threads`. -/
def shift : Call → Call
  | .add list thread => .add (list + 1) thread
  | .getNext list => .getNext (list + 1)
  | call => call

def step (system : HeapSched) : Event → Except Stop (Option HeapSched)
  | .sched (.run now) =>
      match system.sched.stack with
      | [] => .ok none
      | frame :: callers => exec names callers system now frame
  | .sched input => return (system.sched.step input).map fun sched =>
      { system with sched := sched }
  | .client call => do
      let (lists, _) ← (shift call).run system.lists
      return some { system with lists := lists }

def runEvents (system : HeapSched) : List Event → Except Stop (Option HeapSched)
  | [] => return some system
  | event :: events => do
      match ← step names system event with
      | none => return none
      | some system => runEvents system events

end Code

def Event.input : Event → Option Sched.Input
  | sched input => some input
  | client _ => none

def Event.call : Event → Option Call
  | sched _ => none
  | client call => some call

/-! ## Refinement -/

/-- The heap holds the model's list. -/
structure Refines (names : Names) (state : Sched.State) (others : Queues)
    (system : HeapSched) : Prop where
  sched : system.sched = state.withReady []
  lists : system.lists.Represents
    ⟨state.ready.map names.address :: others.lists, others.sizes⟩

section Refines

variable {names : Names} {state after : Sched.State} {others : Queues} {system : HeapSched}
variable {frame : Sched.Frame} {callers : List Sched.Frame} {now : ℕ} {thread : ThreadPtr}

theorem addReady_refines (hrefines : Refines names state others system) :
    Returns (addReady names system thread) fun system' =>
      Refines names (state.threadListAdd thread) others system' := by
  apply (run_represents hrefines.lists (show (Call.add 0 _).Valid _ by
    simp [Call.Valid])).bind
  rintro ⟨lists, answer⟩ ⟨hlists, -⟩
  refine Returns.ok ⟨hrefines.sched, ?_⟩
  simpa [Queues.next, Sched.State.threadListAdd] using hlists

theorem readyHead_refines (hrefines : Refines names state others system)
    (hnames : ∀ thread ∈ state.ready, names.number (names.address thread).address = thread) :
    readyHead names system = .ok state.ready.head? := by
  have hhead := @threadListHead_eq _ _ hrefines.lists 0 (by simp)
  rw [readyHead, hhead]
  cases hready : state.ready with
  | nil => rfl
  | cons first ready =>
      change Except.ok (if (names.address first).address ≠ 0 then
        some (names.number (names.address first).address) else none) = _
      rw [if_pos (names.address first).ne_null, hnames first (by simp [hready])]
      rfl

theorem getNextThread_refines (hrefines : Refines names state others system)
    (hnames : ∀ thread ∈ state.ready, names.number (names.address thread).address = thread) :
    Returns (getNextThread names system state.ready.head?) fun result =>
      Refines names (state.getNextThread state.ready.head?).1 others result.1 ∧
        result.2 = (state.getNextThread state.ready.head?).2 := by
  cases hready : state.ready with
  | nil =>
      refine Returns.ok ⟨hrefines, ?_⟩
      rw [hrefines.sched]
      rfl
  | cons first ready =>
      apply (run_represents hrefines.lists (show (Call.getNext 0).Valid _ by
        simp [Call.Valid])).bind
      rintro ⟨lists, answer⟩ ⟨hlists, hanswer⟩
      dsimp only at hlists hanswer ⊢
      subst hanswer
      refine Returns.ok ⟨⟨hrefines.sched, ?_⟩, ?_⟩
      · simpa [Queues.next, Sched.State.getNextThread, hready] using hlists
      · simp [Queues.answer, pointer, Sched.State.getNextThread, hready,
          hnames first (by simp [hready])]

theorem requeue_refines (hrefines : Refines names state others system) :
    Returns (requeue names system thread) fun system' =>
      Refines names (state.requeue thread) others system' := by
  have hidle : system.sched.idle = state.idle := by rw [hrefines.sched]; rfl
  have hthreads : system.sched.threads = state.threads := by rw [hrefines.sched]; rfl
  have hset : Refines names (state.setStatus thread .ready) others
      { system with sched := system.sched.setStatus thread .ready } :=
    ⟨by rw [hrefines.sched]; rfl, hrefines.lists⟩
  rw [requeue, hidle, hthreads, Sched.State.requeue]
  split
  · exact Returns.ok hrefines
  · cases (state.threads thread).status with
    | ready | running => exact addReady_refines hset
    | sleeping | blocked | done => exact Returns.ok hrefines

theorem Refines.withStack (hrefines : Refines names state others system)
    (stack : List Sched.Frame) :
    Refines names { state with stack := stack } others (system.withStack stack) :=
  ⟨by rw [HeapSched.withStack, hrefines.sched]; rfl, hrefines.lists⟩

/-- A thread on the list is one of the threads that `sched_init` created. -/
theorem tell_ready {limit : ℕ} (htell : names.Tell limit) (hinv : state.Invariant)
    (hcreated : state.queue.created = limit) (hstack : state.stack = frame :: callers) :
    ∀ thread ∈ state.ready, names.number (names.address thread).address = thread := by
  intro thread hthread
  obtain ⟨role, harranged⟩ := (hinv.control.expects hstack).1.arranged
  exact htell thread (hcreated ▸ (harranged.listed_once hthread).2.created)

theorem exec_other (hframe : frame.usesReady = false) :
    exec names callers system now frame =
      .ok ((frame.exec callers system.sched now).map fun sched =>
        { system with sched := sched }) := by
  cases frame <;> first
    | exact Bool.noConfusion hframe
    | rfl

/-- A control point that does not look at the list. -/
theorem exec_refines_other (hrefines : Refines names state others system)
    (hframe : frame.usesReady = false)
    (hexec : frame.exec callers state now = some after) :
    Returns (exec names callers system now frame) fun result =>
      ∃ system', result = some system' ∧ Refines names after others system' := by
  have hheap : frame.exec callers system.sched now = some (after.withReady []) := by
    rw [hrefines.sched]
    exact Sched.exec_withReady [] hframe hexec
  -- the model's list is what it was: put it back and execute once more
  have hready : after.ready = state.ready := by
    have hsame : frame.exec callers state now = some (after.withReady state.ready) :=
      Sched.exec_withReady state.ready hframe hexec
    rw [Option.some.inj (hexec.symm.trans hsame)]
    rfl
  rw [exec_other hframe, hheap]
  exact Returns.ok ⟨_, rfl, rfl, by rw [hready]; exact hrefines.lists⟩

theorem exec_refines {limit : ℕ} (hrefines : Refines names state others system)
    (htell : names.Tell limit) (hinv : state.Invariant)
    (hcreated : state.queue.created = limit) (hstack : state.stack = frame :: callers)
    (hexec : frame.exec callers state now = some after) :
    Returns (exec names callers system now frame) fun result =>
      ∃ system', result = some system' ∧ Refines names after others system' := by
  cases frame with
  | switchPick =>
      obtain rfl := Option.some.inj hexec
      rw [exec, readyHead_refines hrefines (tell_ready htell hinv hcreated hstack)]
      exact Returns.ok ⟨_, rfl, hrefines.withStack _⟩
  | switchTake head =>
      obtain ⟨rfl, -⟩ := hinv.switchTake hstack
      have hcurrent : system.sched.current = state.current := by rw [hrefines.sched]; rfl
      apply (getNextThread_refines hrefines (tell_ready htell hinv hcreated hstack)).bind
      rintro ⟨picked, next⟩ ⟨hpicked, rfl⟩
      simp only [Sched.Frame.exec] at hexec
      dsimp only
      rw [hcurrent]
      split at hexec <;> obtain rfl := Option.some.inj hexec
      · rename_i hsame
        rw [if_pos hsame]
        exact Returns.ok ⟨_, rfl, hpicked.withStack _⟩
      · rename_i hother
        rw [if_neg hother]
        exact Returns.ok ⟨_, rfl, hpicked.withStack _⟩
  | rescheduleRequeue thread =>
      obtain rfl := Option.some.inj hexec
      apply (requeue_refines hrefines).bind
      intro requeued hrequeued
      exact Returns.ok ⟨_, rfl, hrequeued.withStack _⟩
  | wakeAdd thread =>
      obtain rfl := Option.some.inj hexec
      apply (addReady_refines hrefines).bind
      intro added hadded
      exact Returns.ok ⟨_, rfl, hadded.withStack _⟩
  | _ => exact exec_refines_other hrefines rfl hexec

/-- Every input of the model is one of the code. -/
theorem step_refines {limit : ℕ} {input : Sched.Input}
    (hrefines : Refines names state others system) (htell : names.Tell limit)
    (hinv : state.Invariant) (hcreated : state.queue.created = limit)
    (hstep : state.step input = some after) :
    Returns (step names system (.sched input)) fun result =>
      ∃ system', result = some system' ∧ Refines names after others system' := by
  have hsched := hrefines.sched
  cases Sched.stepped_of_step hstep with
  | run hstack hexec =>
      have hstack' : system.sched.stack = _ := (congrArg Sched.State.stack hsched).trans hstack
      rw [step, hstack']
      exact exec_refines hrefines htell hinv hcreated hstack hexec
  | @sleep time callers hstack hidle =>
      have hstep' : system.sched.step (.sleep time) = some (Sched.State.withReady
          { state with stack := .sleepLock time :: state.stack } []) := by
        rw [hsched]
        exact if_pos ⟨by rw [← List.head?_cons, ← hstack]; rfl, hidle⟩
      rw [step, hstep']
      · exact Returns.ok ⟨_, rfl, rfl, hrefines.lists⟩
      · simp
  | interrupt hflag =>
      have hstep' : system.sched.step .interrupt = some (state.interrupt.withReady []) := by
        rw [hsched]
        exact if_pos hflag
      rw [step, hstep']
      · exact Returns.ok ⟨_, rfl, rfl, hrefines.lists⟩
      · simp

/-- Calls of the other clients leave `ready_threads` alone. -/
theorem next_shift (first : List ThreadList.Thread) (others : Queues) (call : Call) :
    Queues.next ⟨first :: others.lists, others.sizes⟩ (shift call) =
      ⟨first :: (others.next call).lists, (others.next call).sizes⟩ := by
  cases call <;> rfl

theorem valid_shift (first : List ThreadList.Thread) {others : Queues} {call : Call}
    (hvalid : call.Valid others) :
    (shift call).Valid ⟨first :: others.lists, others.sizes⟩ := by
  cases call with
  | add list thread => exact Nat.succ_lt_succ hvalid
  | getNext list => exact Nat.succ_lt_succ hvalid
  | new | kmalloc sz | kfree block | write block offset byte => exact hvalid

theorem client_refines {call : Call} (hrefines : Refines names state others system)
    (hvalid : call.Valid others) :
    Returns (step names system (.client call)) fun result =>
      ∃ system', result = some system' ∧ Refines names state (others.next call) system' := by
  apply (run_represents hrefines.lists (valid_shift _ hvalid)).bind
  rintro ⟨lists, answer⟩ ⟨hlists, -⟩
  rw [next_shift] at hlists
  exact Returns.ok ⟨_, rfl, hrefines.sched, hlists⟩

/-- The whole run. -/
theorem runEvents_refines {limit : ℕ} {events : List Event}
    (hrefines : Refines names state others system) (htell : names.Tell limit)
    (hinv : state.Invariant) (hcreated : state.queue.created = limit)
    (hclients : others.Valid (events.filterMap Event.call))
    (hrun : state.runInputs Sched.Uninterrupted (events.filterMap Event.input) =
      some after) :
    Returns (runEvents names system events) fun result =>
      ∃ system', result = some system' ∧
        Refines names after (others.run (events.filterMap Event.call)).1 system' := by
  induction events generalizing state others system with
  | nil =>
      obtain rfl := Option.some.inj hrun
      exact Returns.ok ⟨system, rfl, hrefines⟩
  | cons event events ih =>
      cases event with
      | sched input =>
          obtain ⟨middle, hallowed, hstep, hrest⟩ := (Sched.runInputs_cons _).mp hrun
          apply (step_refines hrefines htell hinv hcreated hstep).bind
          rintro _ ⟨system', rfl, hrefines'⟩
          exact ih hrefines' (Sched.step_invariant hinv hallowed hstep)
            ((Sched.step_created hinv hstep).trans hcreated) hclients hrest
      | client call =>
          apply (client_refines hrefines hclients.1).bind
          rintro _ ⟨system', rfl, hrefines'⟩
          exact ih hrefines' hinv hcreated hclients.2 hrun

end Refines

theorem schedInit_ready (count calibration : ℕ) :
    (Sched.State.schedInit count calibration).ready = List.range' 2 count := by
  have hready := (Sched.created_iterate count calibration).ready
  unfold Sched.State.schedInit
  rcases Sched.enqueueEvent_cases _ _ with heq | ⟨queue, heq⟩ <;> rw [heq] <;> exact hready

/-- However the scheduler's inputs, with interrupts in the threads' own code only, and the
calls of the other clients are interleaved, the heap runs out of memory or the scheduler
with its list in the heap is in the state of the model, and the heap holds the model's list
next to the lists of the others. -/
theorem heap_list_refines_ready {count calibration : ℕ} {names : Names}
    (htell : names.Tell (count + 2)) {others : Queues} {lists : ListsState}
    (hlists : lists.Represents
      ⟨(List.range' 2 count).map names.address :: others.lists, others.sizes⟩)
    {events : List Event} (hclients : others.Valid (events.filterMap Event.call))
    {state : Sched.State}
    (hrun : (Sched.State.schedInit count calibration).runInputs Sched.Uninterrupted
      (events.filterMap Event.input) = some state) :
    Returns (runEvents names
        ⟨(Sched.State.schedInit count calibration).withReady [], lists⟩ events)
      fun result => ∃ system, result = some system ∧
        system.sched = state.withReady [] ∧
        system.lists.Represents
          ⟨state.ready.map names.address ::
              (others.run (events.filterMap Event.call)).1.lists,
            (others.run (events.filterMap Event.call)).1.sizes⟩ := by
  have hinit : Refines names (Sched.State.schedInit count calibration) others
      ⟨(Sched.State.schedInit count calibration).withReady [], lists⟩ :=
    ⟨rfl, by rw [schedInit_ready]; exact hlists⟩
  apply (runEvents_refines hinit htell (Sched.schedInit_invariant count calibration)
    (Sched.schedInit_kept count calibration).2.1 hclients hrun).mono
  rintro _ ⟨system, rfl, hrefines⟩
  exact ⟨system, rfl, hrefines.sched, hrefines.lists⟩

/-- Sixteen `Thread` structures, one after another. -/
def sampleNames : Names where
  address thread := ⟨0x100000 + 136 * (thread % 16), by omega, by omega⟩
  number address := (address - 0x100000) / 136

/-- The calls of `sched_init` on its lists. -/
def sampleCalls : List Call :=
  [.new, .new, .add 0 (sampleNames.address 2), .add 0 (sampleNames.address 3)]

/-- The scheduler until thread 2 runs, with an allocation in between. -/
def sampleEvents : List Event :=
  List.replicate 10 (.sched (.run 10)) ++
    .client (.kmalloc 64) :: List.replicate 10 (.sched (.run 10))

theorem heap_list_refines_ready_two :
    ∃ lists answers, runCalls (ListsState.init fun _ => 0) sampleCalls = .ok (lists, answers) ∧
      ((runEvents sampleNames ⟨(Sched.State.schedInit 2 100000).withReady [], lists⟩
        sampleEvents).toOption.bind id).map
          (fun system => (system.sched.current, system.sched.stack)) =
            some (2, [.threadCode]) ∧
      Returns (runEvents sampleNames
          ⟨(Sched.State.schedInit 2 100000).withReady [], lists⟩ sampleEvents)
        fun result => ∃ system, result = some system ∧
          system.lists.Represents ⟨[[sampleNames.address 3], []], [64]⟩ := by
  have hcompute : ((runCalls (ListsState.init fun _ => 0) sampleCalls).toOption.map
      fun result => ((runEvents sampleNames
        ⟨(Sched.State.schedInit 2 100000).withReady [], result.1⟩
          sampleEvents).toOption.bind id).map
            (fun system => (system.sched.current, system.sched.stack))) =
      some (some (2, [.threadCode])) := by
    decide +kernel
  have hvalid : Queues.Valid ⟨[], []⟩ sampleCalls := by
    simp [sampleCalls, Queues.Valid, Call.Valid, Queues.next]
  have hinit := runCalls_represents (represents_init fun _ => 0) hvalid
  cases hcalls : runCalls (ListsState.init fun _ => 0) sampleCalls with
  | error stop =>
      rw [hcalls] at hcompute
      exact absurd hcompute (by simp [Except.toOption])
  | ok result =>
      rw [hcalls] at hcompute hinit
      refine ⟨result.1, result.2, rfl, Option.some.inj hcompute, ?_⟩
      have htell : sampleNames.Tell 4 := by
        intro thread hthread
        change (0x100000 + 136 * (thread % 16) - 0x100000) / 136 = thread
        omega
      have hinputs : ((Sched.State.schedInit 2 100000).runInputs Sched.Uninterrupted
          (sampleEvents.filterMap Event.input)).map Sched.State.ready = some [3] := by
        decide +kernel
      obtain ⟨state, hstate, hready⟩ := Option.map_eq_some_iff.mp hinputs
      have hrefines := @heap_list_refines_ready 2 100000 sampleNames htell ⟨[[]], []⟩
        result.1 hinit.1 sampleEvents ⟨by simp [Call.Valid, heapSize], trivial⟩ state hstate
      apply hrefines.mono
      rintro _ ⟨system, rfl, -, hlists⟩
      rw [hready] at hlists
      exact ⟨system, rfl, hlists⟩

end Flurry.ReadyList
