import Flurry.Hardware.Lapic
import Flurry.Multitasking.Events

/-!
# The scheduler of `sched.c`

The scheduler is one machine.  Every thread has a stack of control points, one
for each function that is being executed on it, and one step executes the control
point on top of the running stack.  `switch_context` puts the running stack away
and goes on with the stack of another thread.  A timer interrupt may arrive at
every step at which the interrupt flag is set.

Control points stand where the code reads the clock or the head of
`ready_threads` and where it changes shared state, and interrupts arrive between
them.  Inside a pair of `lock_scheduler` and `unlock_scheduler` nothing can
interrupt, so the statements there are one step.  `event_remove`, `event_enqueue`,
`thread_list_add`, `thread_list_get_next` once it has read the head, and
`switch_context` are one step each too, also where the interrupt flag is set: what
an interrupt in the middle of one of them would do is left open.
-/

namespace Flurry.Sched

open ByteMemory Events Lapic

/-- `SCHED_THREAD_QUANTUM`, 3 ms. -/
def schedThreadQuantum : ℕ := 3000000

/-- The vector `timer_fire_at` asks for. -/
def timerVector : ℕ := 32

inductive ThreadStatus where
  | ready
  | running
  | sleeping
  | blocked
  | done
  deriving DecidableEq, Repr

/-- A control point: the function and the statement in it that comes next, with
the local variables that are still needed. -/
inductive Frame where
  /-- the thread's own code -/
  | threadCode
  /-- `kinit` after `sched_init` -/
  | kinit
  /-- `iretq` with the flag that was saved -/
  | interruptReturn (flag : Bool)
  /-- `init_thread` before it calls `handle_next_event` -/
  | initThread
  -- `handle_next_event`
  | handleEoi
  | handlePeek
  | handleTest (event : EventPtr)
  | handleRemove (event : EventPtr)
  | handleCallback (event : EventPtr)
  | handleNext
  | handleArm (next : EventPtr)
  -- `switch_thread`
  | switchPick
  /-- `thread_list_get_next` has read the head, `none` for `NULL` -/
  | switchTake (head : Option ThreadPtr)
  | switchRearm
  | switchEnqueue
  | switchCurrent (this next : ThreadPtr)
  | switchStatus (this next : ThreadPtr)
  | switchContext (this next : ThreadPtr)
  -- `maybe_reschedule_thread`
  | rescheduleLock (thread : ThreadPtr)
  | rescheduleRequeue (thread : ThreadPtr)
  | rescheduleEnqueue
  | rescheduleUnlock
  -- `thread_wake`
  | wakeStatus (thread : ThreadPtr)
  | wakeAdd (thread : ThreadPtr)
  -- `thread_sleep`
  | sleepLock (time : ℕ)
  | sleepEnqueue (time : ℕ)
  | sleepUnlock
  /-- `kpanic` -/
  | panic
  deriving DecidableEq, Repr

/-- Where a stack that was put away goes on: after `switch_context` in
`switch_thread`, or in `init_thread` if it has never run. -/
inductive ResumePoint where
  | switchThread
  | initThread
  deriving DecidableEq, Repr

/-- A stack that was put away with the flags on top of it. -/
structure SavedStack where
  resume : ResumePoint
  callers : List Frame
  interruptFlag : Bool
  deriving DecidableEq, Repr

/-- The stack that `thread_kcreate` prepares: `init_thread`, then the entry
point, with flags `0x202`. -/
def SavedStack.initial : SavedStack where
  resume := .initThread
  callers := [.threadCode]
  interruptFlag := true

/-- `switch_context` hands the old thread to the point where it returns. -/
def SavedStack.frames (saved : SavedStack) (old : ThreadPtr) : List Frame :=
  match saved.resume with
  | .switchThread => .rescheduleLock old :: saved.callers
  | .initThread => .rescheduleLock old :: .initThread :: saved.callers

structure Thread where
  status : ThreadStatus
  saved : SavedStack

/-- The scheduler, the processor it runs on and the timer.  A thread and the
event made for it have the same number. -/
@[ext]
structure State where
  threads : ThreadPtr → Thread
  queue : EventQueue
  /-- `ready_threads`, first to last -/
  ready : List ThreadPtr
  current : ThreadPtr
  idle : ThreadPtr
  /-- `IRQ_disable_counter` -/
  disableCounter : ℤ
  stack : List Frame
  interruptFlag : Bool
  oneShot : Option OneShot
  /-- `lapic_calibration_ticks` -/
  calibration : ℕ
  /-- the latest result of `tsc_read_ns` -/
  clock : ℕ

namespace State

def setStatus (state : State) (thread : ThreadPtr) (status : ThreadStatus) : State :=
  { state with
    threads := Function.update state.threads thread
      { state.threads thread with status := status } }

def threadListAdd (state : State) (thread : ThreadPtr) : State :=
  { state with ready := state.ready ++ [thread] }

/-- `get_next_thread`, once the head of `ready_threads` has been read.  Until its node is
taken off, the list can only grow at the end. -/
def getNextThread (state : State) (head : Option ThreadPtr) : State × ThreadPtr :=
  match head with
  | some thread => ({ state with ready := state.ready.tail }, thread)
  | none => (state, state.idle)

/-- `kpanic` disables interrupts and halts. -/
def kpanic (state : State) : State :=
  { state with stack := [.panic], interruptFlag := false }

/-- A clock reading is never less than the one before. -/
def tscReadNs (state : State) (now : ℕ) : Option State :=
  if state.clock ≤ now ∧ now < 2 ^ 64 then some { state with clock := now } else none

def lockScheduler (state : State) : State :=
  { state with interruptFlag := false, disableCounter := state.disableCounter + 1 }

def unlockScheduler (state : State) : State :=
  { state with
    disableCounter := state.disableCounter - 1
    interruptFlag := if state.disableCounter - 1 = 0 then true else state.interruptFlag }

/-- The fields of an event that the scheduler stores. -/
def alarmFields (time : ℕ) (callback : EventCallback) (arg : Option ThreadPtr)
    (kind : String) (fields : Event) : Event :=
  { fields with
    time := time
    callback := some callback
    callbackArg := arg
    kind := kind }

/-- Store to the event of the current thread. -/
def setEvent (state : State) (time : ℕ) (callback : EventCallback)
    (arg : Option ThreadPtr) (kind : String) : State :=
  { state with
    queue := state.queue.modify state.current (alarmFields time callback arg kind) }

/-- `event_enqueue(current_thread->event)`, which returns to `frames`. -/
def enqueueEvent (state : State) (frames : List Frame) : State :=
  match eventEnqueue state.queue (some state.current) with
  | none => state.kpanic
  | some queue => { state with queue := queue, stack := frames }

/-- `maybe_reschedule_thread` leaves the idle thread alone. -/
def requeue (state : State) (thread : ThreadPtr) : State :=
  if thread = state.idle then state
  else match (state.threads thread).status with
  | .ready | .running => (state.setStatus thread .ready).threadListAdd thread
  | _ => state

/-- `timer_fire_at` with a clock reading. -/
def timerFireAt (state : State) (now time : ℕ) : State :=
  { state with
    oneShot := some
      { armedAt := now
        timer := lapicTimerOneShot state.calibration (sub64 time now) timerVector } }

/-- Put the running stack away and go on with that of `next`. -/
def switchContext (state : State) (callers : List Frame) (this next : ThreadPtr) :
    State :=
  let saved := (state.threads next).saved
  { state with
    threads := Function.update state.threads this
      { state.threads this with
        saved := ⟨.switchThread, callers, state.interruptFlag⟩ }
    stack := saved.frames this
    interruptFlag := saved.interruptFlag }

end State

/-! ## Steps -/

/-- Execute the control point on top of the stack; `callers` is the rest of the
stack, and `now` is what the clock shows if the control point reads it. -/
def Frame.exec (callers : List Frame) (state : State) (now : ℕ) : Frame → Option State
  | threadCode | kinit | panic => some state
  | interruptReturn flag =>
      some { state with stack := callers, interruptFlag := flag }
  | initThread => some { state with stack := handleEoi :: callers }
  | handleEoi => some { state with stack := handlePeek :: callers }
  | handlePeek =>
      match eventPeekNext state.queue with
      | none => some state.kpanic
      | some none => some { state with stack := handleNext :: callers }
      | some (some event) => some { state with stack := handleTest event :: callers }
  | handleTest event => do
      let state ← state.tscReadNs now
      if (state.queue.events event).time > now then
        some { state with stack := handleNext :: callers }
      else some { state with stack := handleRemove event :: callers }
  | handleRemove event =>
      match eventRemove state.queue (some event) with
      | none => some state.kpanic
      | some queue =>
          some { state with queue := queue, stack := handleCallback event :: callers }
  | handleCallback event =>
      match (state.queue.events event).callback,
          (state.queue.events event).callbackArg with
      | some .switchThread, _ =>
          some { state with stack := switchPick :: handlePeek :: callers }
      | some .threadWake, some thread =>
          some { state with stack := wakeStatus thread :: handlePeek :: callers }
      | _, _ => some state.kpanic
  | handleNext =>
      match eventPeekNext state.queue with
      | none => some state.kpanic
      | some none => some { state with stack := callers }
      | some (some next) => some { state with stack := handleArm next :: callers }
  | handleArm next => do
      let state ← state.tscReadNs now
      some { state.timerFireAt now (state.queue.events next).time with stack := callers }
  | switchPick => some { state with stack := switchTake state.ready.head? :: callers }
  | switchTake head =>
      let (picked, next) := state.getNextThread head
      if next = state.current then some { picked with stack := switchRearm :: callers }
      else some { picked with stack := switchCurrent state.current next :: callers }
  | switchRearm => do
      let state ← state.tscReadNs now
      some { state.setEvent (wrap64 (now + schedThreadQuantum)) .switchThread none
        "switch same" with stack := switchEnqueue :: callers }
  | switchEnqueue => some (state.enqueueEvent callers)
  | switchCurrent this next =>
      some { state with current := next, stack := switchStatus this next :: callers }
  | switchStatus this next =>
      some { state.setStatus state.current .running with
        stack := switchContext this next :: callers }
  | switchContext this next => some (state.switchContext callers this next)
  | rescheduleLock thread =>
      some { state.lockScheduler with stack := rescheduleRequeue thread :: callers }
  | rescheduleRequeue thread =>
      some { state.requeue thread with stack := rescheduleEnqueue :: callers }
  | rescheduleEnqueue => do
      let state ← state.tscReadNs now
      let state := state.setEvent (wrap64 (now + schedThreadQuantum)) .switchThread none
        "switch"
      some (state.enqueueEvent (rescheduleUnlock :: callers))
  | rescheduleUnlock => some { state.unlockScheduler with stack := callers }
  | wakeStatus thread =>
      if (state.threads thread).status = .sleeping then
        some { state.setStatus thread .ready with stack := wakeAdd thread :: callers }
      else some state.kpanic
  | wakeAdd thread => some { state.threadListAdd thread with stack := callers }
  | sleepLock time =>
      some { state.lockScheduler with stack := sleepEnqueue time :: callers }
  | sleepEnqueue time => do
      let state ← state.tscReadNs now
      let state := state.setStatus state.current .sleeping
      let state := state.setEvent (wrap64 (now + time)) .threadWake (some state.current)
        "wake"
      some (state.enqueueEvent (sleepUnlock :: callers))
  | sleepUnlock =>
      -- `thread_yield` only calls `switch_thread`.
      some { state.unlockScheduler with stack := switchPick :: callers }

/-- What `switch_thread` does with the head that it has read. -/
theorem exec_switchTake_iff {callers : List Frame} {state after : State} {now : ℕ}
    {head : Option ThreadPtr} :
    Frame.exec callers state now (.switchTake head) = some after ↔
      { state with
        ready := head.elim state.ready fun _ => state.ready.tail
        stack := (if head.getD state.idle = state.current then .switchRearm
          else .switchCurrent state.current (head.getD state.idle)) :: callers } = after := by
  have htaken : state.getNextThread head =
      ({ state with ready := head.elim state.ready fun _ => state.ready.tail },
        head.getD state.idle) := by
    cases head <;> rfl
  simp only [Frame.exec, htaken]
  split <;> simp only [Option.some.injEq]

/-- What happens next. -/
inductive Input where
  /-- the running control point, with what the clock shows -/
  | run (now : ℕ)
  /-- the running thread's own code calls `thread_sleep` -/
  | sleep (time : ℕ)
  /-- the timer interrupt -/
  | interrupt
  deriving DecidableEq, Repr

namespace State

/-- The one-shot fires.  The interrupt gate clears the flag, and `iretq` will
restore it. -/
def interrupt (state : State) : State :=
  { state with
    stack := .handleEoi :: .interruptReturn state.interruptFlag :: state.stack
    interruptFlag := false
    oneShot := none }

/-- `none` if the input cannot occur: the idle thread never sleeps, and there are
no interrupts while the flag is clear. -/
def step (state : State) : Input → Option State
  | .run now =>
      match state.stack with
      | [] => none
      | frame :: callers => frame.exec callers state now
  | .sleep time =>
      if state.stack.head? = some .threadCode ∧ state.current ≠ state.idle then
        some { state with stack := .sleepLock time :: state.stack }
      else none
  | .interrupt => if state.interruptFlag then some state.interrupt else none

end State

/-- What an input does when it occurs. -/
inductive Stepped (state : State) : Input → State → Prop where
  | run {now : ℕ} {frame : Frame} {callers : List Frame} {after : State}
      (hstack : state.stack = frame :: callers)
      (hexec : frame.exec callers state now = some after) : Stepped state (.run now) after
  | sleep {time : ℕ} {callers : List Frame} (hstack : state.stack = .threadCode :: callers)
      (hidle : state.current ≠ state.idle) :
      Stepped state (.sleep time) { state with stack := .sleepLock time :: state.stack }
  | interrupt (hflag : state.interruptFlag = true) : Stepped state .interrupt state.interrupt

theorem stepped_of_step {state after : State} {input : Input}
    (hstep : state.step input = some after) : Stepped state input after := by
  cases input with
  | run now =>
      cases hstack : state.stack with
      | nil => simp [State.step, hstack] at hstep
      | cons frame callers =>
          simp only [State.step, hstack] at hstep
          exact .run hstack hstep
  | sleep time =>
      rw [State.step, Option.ite_none_right_eq_some] at hstep
      obtain ⟨⟨hhead, hidle⟩, hafter⟩ := hstep
      obtain ⟨callers, hstack⟩ := List.head?_eq_some_iff.mp hhead
      exact Option.some.inj hafter ▸ .sleep hstack hidle
  | interrupt =>
      rw [State.step, Option.ite_none_right_eq_some] at hstep
      exact Option.some.inj hstep.2 ▸ .interrupt hstep.1

/-- Runs whose inputs are all allowed in the state they arrive in. -/
inductive RunsTo (allowed : State → Input → Prop) (start : State) : State → Prop where
  | refl : RunsTo allowed start start
  | step {state after : State} {input : Input} :
      RunsTo allowed start state → allowed state input →
        state.step input = some after → RunsTo allowed start after

/-- What every allowed step keeps, a run keeps. -/
theorem RunsTo.keeps {allowed : State → Input → Prop} {start state : State}
    {property : State → Prop} (hrun : RunsTo allowed start state)
    (hstart : property start)
    (hstep : ∀ state input after, property state → allowed state input →
      State.step state input = some after → property after) : property state := by
  induction hrun with
  | refl => exact hstart
  | step _ hallowed hafter ih => exact hstep _ _ _ ih hallowed hafter

theorem RunsTo.trans {allowed : State → Input → Prop} {start state after : State}
    (hfirst : RunsTo allowed start state) (hsecond : RunsTo allowed state after) :
    RunsTo allowed start after := by
  induction hsecond with
  | refl => exact hfirst
  | step _ hallowed hafter ih => exact ih.step hallowed hafter

section Running

variable (allowed : State → Input → Prop)
variable [∀ state input, Decidable (allowed state input)]

/-- The state that a list of inputs leads to, if all of them are allowed. -/
def State.runInputs (state : State) (inputs : List Input) : Option State :=
  inputs.foldlM (fun state input => if allowed state input then state.step input else none)
    state

theorem runInputs_cons {state after : State} {input : Input} {inputs : List Input} :
    state.runInputs allowed (input :: inputs) = some after ↔
      ∃ middle, allowed state input ∧ state.step input = some middle ∧
        middle.runInputs allowed inputs = some after := by
  simp only [State.runInputs, List.foldlM_cons, Option.bind_eq_bind,
    Option.bind_eq_some_iff, Option.ite_none_right_eq_some, and_assoc]

theorem runsTo_of_runInputs {state after : State} {inputs : List Input}
    (hrun : state.runInputs allowed inputs = some after) :
    RunsTo allowed state after := by
  induction inputs generalizing state with
  | nil => exact Option.some.inj hrun ▸ RunsTo.refl
  | cons input inputs ih =>
      obtain ⟨middle, hallowed, hstep, hrest⟩ := (runInputs_cons allowed).mp hrun
      exact (RunsTo.refl.step hallowed hstep).trans (ih hrest)

end Running

/-! ## Initialisation -/

namespace State

/-- Before `sched_init`; interrupts have been on since `idt_init`. -/
def boot (calibration : ℕ) : State where
  threads := fun _ => ⟨.ready, SavedStack.initial⟩
  queue := EventQueue.empty
  ready := []
  current := 0
  idle := 0
  disableCounter := 0
  stack := [.handleEoi, .kinit]
  interruptFlag := true
  oneShot := none
  calibration := calibration
  clock := 0

/-- A thread that is ready to run `init_thread`. -/
def threadKcreate (state : State) : State × ThreadPtr :=
  let (queue, event) := eventCreate state.queue
  ({ state with
      queue := queue.modify event fun fields => { fields with owner := some event }
      threads := Function.update state.threads event ⟨.ready, SavedStack.initial⟩ },
    event)

/-- The thread that runs `sched_init`. -/
def initThread : ThreadPtr := 0

/-- `sched_init` before it creates threads for `ready_threads`. -/
def schedInitIdle (calibration : ℕ) : State :=
  let state := boot calibration
  let state := { state with queue := (eventCreate state.queue).1 }
  let state := state.setStatus initThread .done
  let (state, idle) := state.threadKcreate
  { state with idle := idle }

/-- Create one more thread and put it on the list. -/
def createReady (state : State) : State :=
  state.threadKcreate.1.threadListAdd state.threadKcreate.2

/-- The state in which `sched_init` calls `handle_next_event`, with `count` threads
in `ready_threads`. -/
def schedInit (count calibration : ℕ) : State :=
  let state := createReady^[count] (schedInitIdle calibration)
  let state := { state with
    current := initThread
    queue := state.queue.modify initThread fun fields =>
      { fields with callback := some .switchThread } }
  state.enqueueEvent state.stack

end State

end Flurry.Sched
