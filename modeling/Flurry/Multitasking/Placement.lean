import Flurry.Multitasking.Alarms
import Flurry.Multitasking.Sched

/-!
# Where the threads are

Between two steps of the scheduler most threads rest: they are ready, asleep, or
never taken up again.  The control point on top of the running stack says which
threads do not rest and what has been done to them so far.  When no interrupt
arrives inside the scheduler, every step keeps this.
-/

namespace Flurry.Sched

open ByteMemory Events

/-! ## Places -/

/-- What the scheduler's data says about one thread. -/
@[ext]
structure Place where
  status : ThreadStatus
  /-- how often it occurs in `ready_threads` -/
  listed : ℕ
  alarm : Option Alarm
  deriving DecidableEq, Repr

def State.place (state : State) (thread : ThreadPtr) : Place where
  status := (state.threads thread).status
  listed := state.ready.count thread
  alarm := state.queue.alarm thread

/-- The alarm that ends a quantum. -/
def Place.HasQuantum (place : Place) : Prop :=
  ∃ time, place.alarm = some ⟨time, some .switchThread, none⟩

/-- The alarm that ends a sleep. -/
def Place.HasWakeUp (thread : ThreadPtr) (place : Place) : Prop :=
  ∃ time, place.alarm = some ⟨time, some .threadWake, some thread⟩

/-- Running, or `sched_init` giving up the processor. -/
def Place.Active (thread : ThreadPtr) (place : Place) : Prop :=
  thread ≠ State.initThread ∧ place.status = .running ∨
    thread = State.initThread ∧ place.status = .done

/-- A thread made by `thread_kcreate` other than the idle thread. -/
structure Ordinary (limit idle thread : ThreadPtr) : Prop where
  created : thread < limit
  not_idle : thread ≠ idle
  not_init : thread ≠ State.initThread

/-- Places of the threads that no step in progress is about. -/
inductive Resting (limit idle thread : ThreadPtr) (place : Place) : Prop where
  | absent (hthread : limit ≤ thread) (hlisted : place.listed = 0)
      (halarm : place.alarm = none)
  | init (hthread : thread = State.initThread) (hlisted : place.listed = 0)
      (halarm : place.alarm = none) (hstatus : place.status = .done)
  | idle (hthread : thread = idle) (hlisted : place.listed = 0)
      (halarm : place.alarm = none)
  | ready (hthread : Ordinary limit idle thread) (hlisted : place.listed = 1)
      (halarm : place.alarm = none) (hstatus : place.status = .ready)
  | asleep (hthread : Ordinary limit idle thread) (hlisted : place.listed = 0)
      (halarm : place.HasWakeUp thread) (hstatus : place.status = .sleeping)

section Resting

variable {limit idle thread : ThreadPtr} {place : Place}

/-- A resting thread is on the list only if it is ready. -/
theorem Resting.of_listed (hrest : Resting limit idle thread place)
    (hlisted : place.listed ≠ 0) :
    Ordinary limit idle thread ∧ place.listed = 1 ∧ place.alarm = none ∧
      place.status = .ready := by
  cases hrest with
  | absent _ hzero _ => exact absurd hzero hlisted
  | init _ hzero _ _ => exact absurd hzero hlisted
  | idle _ hzero _ => exact absurd hzero hlisted
  | asleep _ hzero _ _ => exact absurd hzero hlisted
  | ready hordinary hone halarm hstatus => exact ⟨hordinary, hone, halarm, hstatus⟩

/-- A resting thread has an event in the queue only if it sleeps. -/
theorem Resting.of_alarm {alarm : Alarm} (hrest : Resting limit idle thread place)
    (halarm : place.alarm = some alarm) :
    Ordinary limit idle thread ∧ place.listed = 0 ∧ place.status = .sleeping ∧
      alarm.callback = some .threadWake ∧ alarm.arg = some thread := by
  cases hrest with
  | absent _ _ hnone => simp [halarm] at hnone
  | init _ _ hnone _ => simp [halarm] at hnone
  | idle _ _ hnone => simp [halarm] at hnone
  | ready _ _ hnone _ => simp [halarm] at hnone
  | asleep hordinary hlisted hwake hstatus =>
      obtain ⟨time, hwake⟩ := hwake
      obtain rfl := Option.some.inj (halarm.symm.trans hwake)
      exact ⟨hordinary, hlisted, hstatus, rfl, rfl⟩

theorem Resting.listed_le_one (hrest : Resting limit idle thread place) :
    place.listed ≤ 1 := by
  by_cases hlisted : place.listed = 0
  · rw [hlisted]
    exact Nat.zero_le 1
  · exact (hrest.of_listed hlisted).2.1.le

end Resting

/-- What a control point expects of a thread. -/
inductive Role where
  | resting
  /-- has the processor and a quantum -/
  | running
  /-- has the processor but no quantum -/
  | detached
  | asleep
  /-- its sleep is over but it is not listed yet -/
  | waking
  /-- taken off the list, or about to be put on it -/
  | picked
  deriving DecidableEq, Repr

def Role.Holds (limit idle thread : ThreadPtr) (place : Place) : Role → Prop
  | resting => Resting limit idle thread place
  | running => thread < limit ∧ place.listed = 0 ∧ place.Active thread ∧ place.HasQuantum
  | detached => thread < limit ∧ place.listed = 0 ∧ place.Active thread ∧
      place.alarm = none
  | asleep => Ordinary limit idle thread ∧ place.listed = 0 ∧
      place.status = .sleeping ∧ place.HasWakeUp thread
  | waking => Ordinary limit idle thread ∧ place.listed = 0 ∧
      place.status = .sleeping ∧ place.alarm = none
  | picked => thread < limit ∧ thread ≠ State.initThread ∧ place.listed = 0 ∧
      place.alarm = none ∧ (thread = idle ∨ place.status = .ready)

/-- Every thread is where its role says. -/
def State.Arranged (state : State) (role : ThreadPtr → Role) : Prop :=
  ∀ thread, (role thread).Holds state.queue.created state.idle thread (state.place thread)

/-- All threads but one rest. -/
def only (thread : ThreadPtr) (role : Role) (other : ThreadPtr) : Role :=
  if other = thread then role else .resting

/-- All threads but two rest. -/
def both (left : ThreadPtr) (leftRole : Role) (right : ThreadPtr) (rightRole : Role)
    (other : ThreadPtr) : Role :=
  if other = left then leftRole else if other = right then rightRole else .resting

@[simp]
theorem only_self (thread : ThreadPtr) (role : Role) : only thread role thread = role :=
  if_pos rfl

theorem only_of_ne {thread other : ThreadPtr} {role : Role} (hne : other ≠ thread) :
    only thread role other = .resting :=
  if_neg hne

@[simp]
theorem both_left (left right : ThreadPtr) (leftRole rightRole : Role) :
    both left leftRole right rightRole left = leftRole :=
  if_pos rfl

theorem both_right {left right : ThreadPtr} {leftRole rightRole : Role}
    (hne : right ≠ left) : both left leftRole right rightRole right = rightRole := by
  simp [both, hne]

section Roles

variable {state : State} {thread other left right : ThreadPtr}
variable {role leftRole rightRole : Role}

theorem State.Arranged.role_self (harranged : state.Arranged (only thread role)) :
    role.Holds state.queue.created state.idle thread (state.place thread) := by
  have hrole := harranged thread
  rwa [only_self] at hrole

theorem State.Arranged.resting (harranged : state.Arranged (only thread role))
    (hne : other ≠ thread) :
    Resting state.queue.created state.idle other (state.place other) := by
  have hrole := harranged other
  rwa [only_of_ne hne] at hrole

theorem State.Arranged.role_left
    (harranged : state.Arranged (both left leftRole right rightRole)) :
    leftRole.Holds state.queue.created state.idle left (state.place left) := by
  have hrole := harranged left
  rwa [both_left] at hrole

theorem State.Arranged.role_right
    (harranged : state.Arranged (both left leftRole right rightRole))
    (hne : right ≠ left) :
    rightRole.Holds state.queue.created state.idle right (state.place right) := by
  have hrole := harranged right
  rwa [both_right hne] at hrole

end Roles

/-! ### Operations on places -/

section Place

variable {state after : State} {role role' : ThreadPtr → Role} {thread : ThreadPtr}

/-- A step that changes the place and the role of one thread. -/
theorem State.Arranged.change {place : Place} (harranged : state.Arranged role)
    (hplace : after.place = Function.update state.place thread place)
    (hcreated : after.queue.created = state.queue.created)
    (hidle : after.idle = state.idle)
    (hthread : (role' thread).Holds state.queue.created state.idle thread place)
    (hothers : ∀ other, other ≠ thread → role' other = role other) :
    after.Arranged role' := by
  intro other
  rw [hcreated, hidle, hplace]
  by_cases hother : other = thread
  · subst hother
    rwa [Function.update_self]
  · rw [Function.update_of_ne hother, hothers other hother]
    exact harranged other

theorem place_setStatus (state : State) (thread : ThreadPtr) (status : ThreadStatus) :
    (state.setStatus thread status).place =
      Function.update state.place thread { state.place thread with status := status } := by
  funext other
  by_cases hother : other = thread
  · subst hother
    simp [State.place, State.setStatus]
  · simp [State.place, State.setStatus, Function.update_of_ne hother]

theorem place_threadListAdd (state : State) (thread : ThreadPtr) :
    (state.threadListAdd thread).place = Function.update state.place thread
      { state.place thread with listed := (state.place thread).listed + 1 } := by
  funext other
  by_cases hother : other = thread
  · subst hother
    simp [State.place, State.threadListAdd]
  · simp [State.place, State.threadListAdd, Function.update_of_ne hother, Ne.symm hother]

theorem place_tail {ready : List ThreadPtr} (hready : state.ready = thread :: ready) :
    ({ state with ready := ready } : State).place = Function.update state.place thread
      { state.place thread with listed := (state.place thread).listed - 1 } := by
  funext other
  by_cases hother : other = thread
  · subst hother
    simp [State.place, hready]
  · simp [State.place, hready, Function.update_of_ne hother, Ne.symm hother]

theorem place_queue {queue : EventQueue} {alarm : Option Alarm}
    (halarm : queue.alarm = Function.update state.queue.alarm thread alarm) :
    ({ state with queue := queue } : State).place = Function.update state.place thread
      { state.place thread with alarm := alarm } := by
  funext other
  by_cases hother : other = thread
  · subst hother
    simp [State.place, halarm]
  · simp [State.place, halarm, Function.update_of_ne hother]

theorem place_switchContext (state : State) (callers : List Frame)
    (this next : ThreadPtr) :
    (state.switchContext callers this next).place = state.place := by
  funext thread
  by_cases hthread : thread = this
  · subst hthread
    simp [State.place, State.switchContext]
  · simp [State.place, State.switchContext, Function.update_of_ne hthread]

end Place

/-! ## What control points expect -/

/-- No enqueued event is due before this one. -/
def State.IsNext (state : State) (event : EventPtr) : Prop :=
  ∃ alarm, state.queue.alarm event = some alarm ∧
    ∀ other otherAlarm, state.queue.alarm other = some otherAlarm →
      alarm.time ≤ otherAlarm.time

/-- A thread that gives the processor away keeps its place until it is requeued. -/
def Role.Outgoing (role : Role) : Prop := role = .detached ∨ role = .asleep

/-- The first caller of `switch_thread` tells an expired quantum from a call of
`thread_sleep`. -/
def Role.Leaves (callers : List Frame) (role : Role) : Prop :=
  role = .detached ∧ callers.head? = some .handlePeek ∨
    role = .asleep ∧ callers.head? = some .threadCode

theorem Role.Leaves.outgoing {callers : List Frame} {role : Role}
    (hleaves : role.Leaves callers) : role.Outgoing :=
  hleaves.imp And.left And.left

/-- What has been done to the threads when a control point is reached. -/
def Frame.Expects (callers : List Frame) (state : State) : Frame → Prop
  | threadCode | kinit | interruptReturn _ | initThread | handleEoi | handlePeek
  | handleNext | rescheduleUnlock => state.Arranged (only state.current .running)
  | handleTest event | handleArm event =>
      state.Arranged (only state.current .running) ∧ state.IsNext event
  | handleRemove event =>
      state.Arranged (only state.current .running) ∧
        ∃ alarm, state.queue.alarm event = some alarm ∧ alarm.time ≤ state.clock
  | handleCallback event =>
      (event = state.current ∧ state.Arranged (only state.current .detached) ∧
        (state.queue.events event).callback = some .switchThread) ∨
      (event ≠ state.current ∧
        state.Arranged (both state.current .running event .waking) ∧
          (state.queue.events event).callback = some .threadWake ∧
            (state.queue.events event).callbackArg = some event)
  | wakeStatus thread =>
      thread ≠ state.current ∧
        state.Arranged (both state.current .running thread .waking) ∧
          callers.head? = some handlePeek
  | wakeAdd thread =>
      thread ≠ state.current ∧ thread ≠ state.idle ∧
        state.Arranged (both state.current .running thread .picked) ∧
          callers.head? = some handlePeek
  | switchPick =>
      (state.Arranged (only state.current .detached) ∧
        callers.head? = some handlePeek) ∨
      (state.Arranged (only state.current .asleep) ∧ callers.head? = some threadCode)
  | switchTake head =>
      head = state.ready.head? ∧
        ((state.Arranged (only state.current .detached) ∧
          callers.head? = some handlePeek) ∨
        (state.Arranged (only state.current .asleep) ∧ callers.head? = some threadCode))
  | switchRearm =>
      state.Arranged (only state.current .detached) ∧ callers.head? = some handlePeek
  | switchEnqueue =>
      state.Arranged (only state.current .detached) ∧
        callers.head? = some handlePeek ∧
          (state.queue.events state.current).callback = some .switchThread ∧
            (state.queue.events state.current).callbackArg = none
  | switchCurrent this next =>
      this = state.current ∧ next ≠ this ∧
        ∃ role : Role, role.Leaves callers ∧ state.Arranged (both this role next .picked)
  | switchStatus this next =>
      state.current = next ∧ next ≠ this ∧
        ∃ role : Role, role.Outgoing ∧ state.Arranged (both this role next .picked)
  | switchContext this next =>
      state.current = next ∧ next ≠ this ∧ next ≠ State.initThread ∧
        ∃ role : Role, role.Outgoing ∧ state.Arranged (both this role next .detached)
  | rescheduleLock thread | rescheduleRequeue thread =>
      thread ≠ state.current ∧
        ∃ role : Role, role.Outgoing ∧
          state.Arranged (both thread role state.current .detached)
  | rescheduleEnqueue => state.Arranged (only state.current .detached)
  | sleepLock _ | sleepEnqueue _ =>
      state.Arranged (only state.current .running) ∧
        Ordinary state.queue.created state.idle state.current ∧
          callers.head? = some threadCode
  | sleepUnlock =>
      state.Arranged (only state.current .asleep) ∧ callers.head? = some threadCode
  | panic => False

/-- Control points that wait for a call to return. -/
def Frame.IsReturn : Frame → Bool
  | threadCode | kinit | interruptReturn _ | initThread | handlePeek => true
  | _ => false

/-- The part of the invariant that does not depend on the control point. -/
structure State.Sound (state : State) : Prop where
  idle_created : state.idle < state.queue.created
  idle_ne_init : state.idle ≠ initThread
  queue : ∃ schedule, state.queue.Keeps schedule
  saved : ∀ thread, ∀ frame ∈ (state.threads thread).saved.callers,
    frame.IsReturn = true

/-- The control point on top finds what it expects. -/
def State.Control (state : State) : Prop :=
  match state.stack with
  | [] => True
  | frame :: callers =>
      frame.Expects callers state ∧ ∀ caller ∈ callers, caller.IsReturn = true

structure State.Invariant (state : State) : Prop where
  sound : state.Sound
  control : state.Control
  /-- `sched_init` does not return while it has the processor. -/
  init : state.current = initThread → .threadCode ∉ state.stack

section Control

variable {state after : State} {frame : Frame} {callers : List Frame}

theorem State.Control.expects (hcontrol : state.Control)
    (hstack : state.stack = frame :: callers) :
    frame.Expects callers state ∧ ∀ caller ∈ callers, caller.IsReturn = true := by
  rw [State.Control, hstack] at hcontrol
  exact hcontrol

theorem control_of_expects (hstack : state.stack = frame :: callers)
    (hexpects : frame.Expects callers state)
    (hcallers : ∀ caller ∈ callers, caller.IsReturn = true) : state.Control := by
  rw [State.Control, hstack]
  exact ⟨hexpects, hcallers⟩

/-- A call returns when the running thread has its quantum. -/
theorem control_of_return (hcallers : ∀ caller ∈ state.stack, caller.IsReturn = true)
    (harranged : state.Arranged (only state.current .running)) : state.Control := by
  cases hstack : state.stack with
  | nil => simp [State.Control, hstack]
  | cons frame callers =>
      rw [hstack] at hcallers
      apply control_of_expects hstack _ fun caller hcaller => hcallers caller (by simp [hcaller])
      have hframe := hcallers frame (by simp)
      cases frame <;> first | exact harranged | simp [Frame.IsReturn] at hframe

end Control

end Flurry.Sched
