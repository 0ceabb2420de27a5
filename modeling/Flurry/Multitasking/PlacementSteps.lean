import Flurry.Multitasking.Placement

/-!
# Every step keeps the threads in place

One lemma for each control point says what it finds and what it leaves.
-/

namespace Flurry.Sched

open ByteMemory Events

variable {state after : State} {frame new : Frame} {callers between : List Frame}
variable {now : ℕ}

/-! ## Tools -/

/-- Calling a function, which will return to the control points `between`. -/
theorem State.Invariant.call (hinv : state.Invariant)
    (hstack : state.stack = frame :: callers) (hsound : after.Sound)
    (hafter : after.stack = new :: (between ++ callers))
    (hnew : .threadCode ∉ new :: between)
    (hbetween : ∀ caller ∈ between, caller.IsReturn = true)
    (hcurrent : after.current = state.current)
    (hexpects : new.Expects (between ++ callers) after) : after.Invariant := by
  refine ⟨hsound, control_of_expects hafter hexpects ?_, ?_⟩
  · intro caller hcaller
    rcases List.mem_append.mp hcaller with hcaller | hcaller
    · exact hbetween caller hcaller
    · exact (hinv.control.expects hstack).2 caller hcaller
  · intro hinit hmem
    apply hinv.init (hcurrent ▸ hinit)
    rw [hafter, ← List.cons_append, List.mem_append] at hmem
    rw [hstack]
    exact List.mem_cons_of_mem _ (hmem.resolve_left hnew)

/-- Going on in the same function. -/
theorem State.Invariant.goto (hinv : state.Invariant)
    (hstack : state.stack = frame :: callers) (hsound : after.Sound)
    (hafter : after.stack = new :: callers) (hnew : new ≠ .threadCode)
    (hcurrent : after.current = state.current)
    (hexpects : new.Expects callers after) : after.Invariant :=
  @State.Invariant.call state after frame new callers [] hinv hstack hsound hafter
    (by simpa using hnew.symm) (by simp) hcurrent hexpects

/-- Returning to the caller. -/
theorem State.Invariant.return (hinv : state.Invariant)
    (hstack : state.stack = frame :: callers) (hsound : after.Sound)
    (hafter : after.stack = callers) (hcurrent : after.current = state.current)
    (harranged : after.Arranged (only after.current .running)) : after.Invariant := by
  refine ⟨hsound, control_of_return ?_ harranged, ?_⟩
  · rw [hafter]
    exact (hinv.control.expects hstack).2
  · intro hinit hmem
    apply hinv.init (hcurrent ▸ hinit)
    rw [hafter] at hmem
    rw [hstack]
    exact List.mem_cons_of_mem _ hmem

theorem State.Sound.of_same (hsound : state.Sound) (hthreads : after.threads = state.threads)
    (hqueue : after.queue = state.queue) (hidle : after.idle = state.idle) :
    after.Sound := by
  constructor
  · rw [hqueue, hidle]
    exact hsound.idle_created
  · rw [hidle]
    exact hsound.idle_ne_init
  · rw [hqueue]
    exact hsound.queue
  · rw [hthreads]
    exact hsound.saved

theorem State.Sound.withQueue {queue : EventQueue} {schedule : Schedule}
    (hsound : state.Sound) (hthreads : ∀ thread,
      (after.threads thread).saved = (state.threads thread).saved)
    (hqueue : after.queue = queue) (hkeeps : queue.Keeps schedule)
    (hcreated : queue.created = state.queue.created) (hidle : after.idle = state.idle) :
    after.Sound where
  idle_created := by
    rw [hqueue, hcreated, hidle]
    exact hsound.idle_created
  idle_ne_init := by
    rw [hidle]
    exact hsound.idle_ne_init
  queue := ⟨schedule, hqueue ▸ hkeeps⟩
  saved := by
    intro thread
    rw [hthreads]
    exact hsound.saved thread

/-- No event is due before the first one of the schedule. -/
theorem isNext_of_keeps {event : EventPtr} {time : ℕ} {schedule : Schedule}
    (hkeeps : state.queue.Keeps ((event, time) :: schedule)) : state.IsNext event := by
  obtain ⟨alarm, halarm, rfl⟩ := hkeeps.mem_iff.mp (List.mem_cons_self ..)
  refine ⟨alarm, halarm, fun other otherAlarm hother => ?_⟩
  rcases List.mem_cons.mp (hkeeps.mem_iff.mpr ⟨otherAlarm, hother, rfl⟩) with heq | hmem
  · exact (congrArg Prod.snd heq).ge
  · exact (List.pairwise_cons.mp hkeeps.sorted).1 _ hmem

/-- `event_peek_next` returns a next event, or there is no event. -/
theorem State.Sound.peekNext (hsound : state.Sound) :
    (eventPeekNext state.queue = some none ∧ ∀ event, state.queue.alarm event = none) ∨
      ∃ event, eventPeekNext state.queue = some (some event) ∧ state.IsNext event := by
  obtain ⟨schedule, hkeeps⟩ := hsound.queue
  have hpeek := hkeeps.peekNext
  cases schedule with
  | nil =>
      left
      refine ⟨hpeek, fun event => ?_⟩
      cases halarm : state.queue.alarm event with
      | none => rfl
      | some alarm => exact absurd (hkeeps.mem_iff.mpr ⟨alarm, halarm, rfl⟩) (by simp)
  | cons entry schedule => exact Or.inr ⟨entry.1, hpeek, isNext_of_keeps hkeeps⟩

theorem tscReadNs_eq_some :
    state.tscReadNs now = some after ↔
      (state.clock ≤ now ∧ now < 2 ^ 64) ∧ { state with clock := now } = after := by
  rw [State.tscReadNs, Option.ite_none_right_eq_some, Option.some.injEq]

/-! ### Control points that read the clock -/

theorem tscReadNs_bind_eq_some {next : State → Option State} :
    (state.tscReadNs now).bind next = some after ↔
      (state.clock ≤ now ∧ now < 2 ^ 64) ∧ next { state with clock := now } = some after := by
  simp only [Option.bind_eq_some_iff, tscReadNs_eq_some, and_assoc, exists_and_left,
    exists_eq_left']

theorem exec_handleTest_iff {event : EventPtr} :
    Frame.exec callers state now (.handleTest event) = some after ↔
      (state.clock ≤ now ∧ now < 2 ^ 64) ∧
        (now < (state.queue.events event).time ∧
            { state with clock := now, stack := .handleNext :: callers } = after ∨
          (state.queue.events event).time ≤ now ∧
            { state with clock := now, stack := .handleRemove event :: callers } = after) := by
  rw [Frame.exec, Option.bind_eq_bind, tscReadNs_bind_eq_some]
  by_cases hlater : now < (state.queue.events event).time
  · simp [hlater, hlater.not_ge]
  · simp [hlater, not_lt.mp hlater]

theorem exec_handleArm_iff {next : EventPtr} :
    Frame.exec callers state now (.handleArm next) = some after ↔
      (state.clock ≤ now ∧ now < 2 ^ 64) ∧
        { ({ state with clock := now } : State).timerFireAt now
            (state.queue.events next).time with stack := callers } = after := by
  rw [Frame.exec, Option.bind_eq_bind, tscReadNs_bind_eq_some, Option.some.injEq]

theorem exec_switchRearm_iff :
    Frame.exec callers state now .switchRearm = some after ↔
      (state.clock ≤ now ∧ now < 2 ^ 64) ∧
        { ({ state with clock := now } : State).setEvent (wrap64 (now + schedThreadQuantum))
            .switchThread none "switch same" with stack := .switchEnqueue :: callers } =
          after := by
  rw [Frame.exec, Option.bind_eq_bind, tscReadNs_bind_eq_some, Option.some.injEq]

theorem exec_rescheduleEnqueue_iff :
    Frame.exec callers state now .rescheduleEnqueue = some after ↔
      (state.clock ≤ now ∧ now < 2 ^ 64) ∧
        (({ state with clock := now } : State).setEvent (wrap64 (now + schedThreadQuantum))
          .switchThread none "switch").enqueueEvent (.rescheduleUnlock :: callers) =
            after := by
  rw [Frame.exec, Option.bind_eq_bind, tscReadNs_bind_eq_some, Option.some.injEq]

theorem exec_sleepEnqueue_iff {time : ℕ} :
    Frame.exec callers state now (.sleepEnqueue time) = some after ↔
      (state.clock ≤ now ∧ now < 2 ^ 64) ∧
        ((({ state with clock := now } : State).setStatus state.current .sleeping).setEvent
          (wrap64 (now + time)) .threadWake (some state.current) "wake").enqueueEvent
            (.sleepUnlock :: callers) = after := by
  rw [Frame.exec, Option.bind_eq_bind, tscReadNs_bind_eq_some, Option.some.injEq]
  rfl

/-- `event_enqueue` panics or returns to the frames. -/
theorem enqueueEvent_cases (state : State) (frames : List Frame) :
    state.enqueueEvent frames = state.kpanic ∨
      ∃ queue, state.enqueueEvent frames =
        { state with queue := queue, stack := frames } := by
  unfold State.enqueueEvent
  split
  · exact Or.inl rfl
  · exact Or.inr ⟨_, rfl⟩

/-! ## The handler -/

theorem exec_handlePeek (hinv : state.Invariant)
    (hstack : state.stack = .handlePeek :: callers)
    (hexec : Frame.exec callers state now .handlePeek = some after) :
    after.Invariant := by
  have hexpects := (hinv.control.expects hstack).1
  rcases hinv.sound.peekNext with ⟨hpeek, -⟩ | ⟨event, hpeek, hnext⟩
  · simp only [Frame.exec, hpeek, Option.some.injEq] at hexec
    subst hexec
    exact hinv.goto hstack (hinv.sound.of_same rfl rfl rfl) rfl (by simp) rfl hexpects
  · simp only [Frame.exec, hpeek, Option.some.injEq] at hexec
    subst hexec
    exact hinv.goto hstack (hinv.sound.of_same rfl rfl rfl) rfl (by simp) rfl
      ⟨hexpects, hnext⟩

theorem exec_handleTest {event : EventPtr} (hinv : state.Invariant)
    (hstack : state.stack = .handleTest event :: callers)
    (hexec : Frame.exec callers state now (.handleTest event) = some after) :
    after.Invariant := by
  obtain ⟨harranged, alarm, halarm, -⟩ := (hinv.control.expects hstack).1
  have htime : (state.queue.events event).time = alarm.time :=
    congrArg Alarm.time (alarm_eq_some halarm)
  obtain ⟨-, ⟨-, rfl⟩ | ⟨hdue, rfl⟩⟩ := exec_handleTest_iff.mp hexec
  · exact hinv.goto hstack (hinv.sound.of_same rfl rfl rfl) rfl (by simp) rfl harranged
  · refine hinv.goto hstack (hinv.sound.of_same rfl rfl rfl) rfl (by simp) rfl
      ⟨harranged, alarm, halarm, ?_⟩
    rw [← htime]
    exact hdue

theorem exec_handleNext (hinv : state.Invariant)
    (hstack : state.stack = .handleNext :: callers)
    (hexec : Frame.exec callers state now .handleNext = some after) :
    after.Invariant := by
  have hexpects := (hinv.control.expects hstack).1
  rcases hinv.sound.peekNext with ⟨hpeek, -⟩ | ⟨event, hpeek, hnext⟩
  · simp only [Frame.exec, hpeek, Option.some.injEq] at hexec
    subst hexec
    exact hinv.return hstack (hinv.sound.of_same rfl rfl rfl) rfl rfl hexpects
  · simp only [Frame.exec, hpeek, Option.some.injEq] at hexec
    subst hexec
    exact hinv.goto hstack (hinv.sound.of_same rfl rfl rfl) rfl (by simp) rfl
      ⟨hexpects, hnext⟩

theorem exec_handleArm {next : EventPtr} (hinv : state.Invariant)
    (hstack : state.stack = .handleArm next :: callers)
    (hexec : Frame.exec callers state now (.handleArm next) = some after) :
    after.Invariant := by
  have hexpects := (hinv.control.expects hstack).1
  obtain ⟨-, rfl⟩ := exec_handleArm_iff.mp hexec
  exact hinv.return hstack (hinv.sound.of_same rfl rfl rfl) rfl rfl hexpects.1

/-- The only events in the queue are the quantum of the running thread and the
wake-up calls of sleeping threads. -/
theorem State.Arranged.alarm_cases (harranged : state.Arranged (only state.current .running))
    {event : EventPtr} {alarm : Alarm} (halarm : state.queue.alarm event = some alarm) :
    (event = state.current ∧ alarm.callback = some .switchThread ∧ alarm.arg = none) ∨
      (event ≠ state.current ∧ Ordinary state.queue.created state.idle event ∧
        (state.place event).listed = 0 ∧ (state.place event).status = .sleeping ∧
          alarm.callback = some .threadWake ∧ alarm.arg = some event) := by
  have hplace : (state.place event).alarm = some alarm := halarm
  by_cases hevent : event = state.current
  · subst hevent
    obtain ⟨-, -, -, time, hquantum⟩ := harranged.role_self
    obtain rfl := Option.some.inj (hplace.symm.trans hquantum)
    exact Or.inl ⟨rfl, rfl, rfl⟩
  · exact Or.inr ⟨hevent, (harranged.resting hevent).of_alarm hplace⟩

/-- The event is in the queue, so that `event_remove` takes it out. -/
theorem handleRemove_spec {event : EventPtr} {schedule : Schedule} (hinv : state.Invariant)
    (hstack : state.stack = .handleRemove event :: callers)
    (hexec : Frame.exec callers state now (.handleRemove event) = some after)
    (hkeeps : state.queue.Keeps schedule) :
    ∃ queue : EventQueue,
      { state with queue := queue, stack := .handleCallback event :: callers } = after ∧
        queue.Keeps (schedule.remove event) ∧ queue.created = state.queue.created ∧
          queue.alarm = Function.update state.queue.alarm event none ∧
            ∀ other, (queue.events other).payload = (state.queue.events other).payload := by
  obtain ⟨-, alarm, halarm, -⟩ := (hinv.control.expects hstack).1
  have hmem : event ∈ schedule.map Prod.fst :=
    List.mem_map.mpr ⟨_, hkeeps.mem_iff.mpr ⟨alarm, halarm, rfl⟩, rfl⟩
  obtain ⟨queue, hremove, hspec⟩ := hkeeps.remove hmem
  simp only [Frame.exec, hremove, Option.some.injEq] at hexec
  exact ⟨queue, hexec, hspec⟩

theorem exec_handleRemove {event : EventPtr} (hinv : state.Invariant)
    (hstack : state.stack = .handleRemove event :: callers)
    (hexec : Frame.exec callers state now (.handleRemove event) = some after) :
    after.Invariant := by
  obtain ⟨harranged, alarm, halarm, -⟩ := (hinv.control.expects hstack).1
  obtain ⟨schedule, hkeeps⟩ := hinv.sound.queue
  obtain ⟨queue, rfl, hkeeps', hcreated, halarms, hpayload⟩ :=
    handleRemove_spec hinv hstack hexec hkeeps
  have hsound := @State.Sound.withQueue state
    { state with queue := queue, stack := .handleCallback event :: callers } queue _
      hinv.sound (fun _ => rfl) rfl hkeeps' hcreated rfl
  have hplace := place_queue halarms
  have hfields : (queue.events event).toAlarm = alarm :=
    toAlarm_of_payload halarm (hpayload event)
  refine hinv.goto hstack hsound rfl (by simp) rfl ?_
  rcases harranged.alarm_cases halarm with ⟨rfl, hcallback, -⟩ |
    ⟨hevent, hordinary, hlisted, hstatus, hcallback, harg⟩
  · refine Or.inl ⟨rfl, ?_, (congrArg Alarm.callback hfields).trans hcallback⟩
    have hrole := harranged.role_self
    apply harranged.change hplace hcreated rfl
    · rw [only_self]
      exact ⟨hrole.1, hrole.2.1, hrole.2.2.1, rfl⟩
    · intro other hother
      rw [only_of_ne hother, only_of_ne hother]
  · refine Or.inr ⟨hevent, ?_, (congrArg Alarm.callback hfields).trans hcallback,
      (congrArg Alarm.arg hfields).trans harg⟩
    apply harranged.change hplace hcreated rfl
    · rw [both_right hevent]
      exact ⟨hordinary, hlisted, hstatus, rfl⟩
    · intro other hother
      simp [both, only, hother]

theorem exec_handleCallback {event : EventPtr} (hinv : state.Invariant)
    (hstack : state.stack = .handleCallback event :: callers)
    (hexec : Frame.exec callers state now (.handleCallback event) = some after) :
    after.Invariant := by
  have hexpects := (hinv.control.expects hstack).1
  rcases hexpects with ⟨-, harranged, hcallback⟩ | ⟨hevent, harranged, hcallback, harg⟩
  · simp only [Frame.exec, hcallback, Option.some.injEq] at hexec
    subst hexec
    exact @State.Invariant.call state _ _ .switchPick callers [.handlePeek] hinv hstack
      (hinv.sound.of_same rfl rfl rfl) rfl (by simp) (by simp [Frame.IsReturn]) rfl
      (Or.inl ⟨harranged, rfl⟩)
  · simp only [Frame.exec, hcallback, harg, Option.some.injEq] at hexec
    subst hexec
    exact @State.Invariant.call state _ _ (.wakeStatus event) callers [.handlePeek] hinv
      hstack (hinv.sound.of_same rfl rfl rfl) rfl (by simp) (by simp [Frame.IsReturn]) rfl
      ⟨hevent, harranged, rfl⟩

/-! ## Waking a thread -/

theorem saved_setStatus (thread : ThreadPtr) (status : ThreadStatus) (other : ThreadPtr) :
    ((state.setStatus thread status).threads other).saved = (state.threads other).saved := by
  by_cases hother : other = thread
  · subst hother
    simp [State.setStatus]
  · simp [State.setStatus, Function.update_of_ne hother]

theorem State.Sound.setStatus (hsound : state.Sound) (thread : ThreadPtr)
    (status : ThreadStatus) : (state.setStatus thread status).Sound := by
  obtain ⟨schedule, hkeeps⟩ := hsound.queue
  exact hsound.withQueue (saved_setStatus thread status) rfl hkeeps rfl rfl

theorem exec_wakeStatus {thread : ThreadPtr} (hinv : state.Invariant)
    (hstack : state.stack = .wakeStatus thread :: callers)
    (hexec : Frame.exec callers state now (.wakeStatus thread) = some after) :
    after.Invariant := by
  obtain ⟨hthread, harranged, hcaller⟩ := (hinv.control.expects hstack).1
  have hrole := harranged.role_right hthread
  obtain ⟨hordinary, hlisted, hstatus, halarm⟩ := hrole
  have hsleeping : (state.threads thread).status = .sleeping := hstatus
  simp only [Frame.exec, hsleeping, if_true, Option.some.injEq] at hexec
  subst hexec
  have harranged' : (state.setStatus thread .ready).Arranged
      (both state.current .running thread .picked) := by
    apply harranged.change (place_setStatus state thread .ready) rfl rfl
    · rw [both_right hthread]
      exact ⟨hordinary.created, hordinary.not_init, hlisted, halarm, Or.inr rfl⟩
    · intro other hother
      simp [both, hother]
  exact hinv.goto hstack ((hinv.sound.setStatus thread .ready).of_same rfl rfl rfl) rfl
    (by simp) rfl ⟨hthread, hordinary.not_idle, harranged', hcaller⟩

theorem exec_wakeAdd {thread : ThreadPtr} (hinv : state.Invariant)
    (hstack : state.stack = .wakeAdd thread :: callers)
    (hexec : Frame.exec callers state now (.wakeAdd thread) = some after) :
    after.Invariant := by
  obtain ⟨hthread, hidle, harranged, -⟩ := (hinv.control.expects hstack).1
  have hrole := harranged.role_right hthread
  obtain ⟨hcreated, hinit, hlisted, halarm, hstatus⟩ := hrole
  obtain rfl := Option.some.inj hexec
  have harranged' : (state.threadListAdd thread).Arranged
      (only state.current .running) := by
    apply harranged.change (place_threadListAdd state thread) rfl rfl
    · rw [only_of_ne hthread]
      exact Resting.ready ⟨hcreated, hidle, hinit⟩ (congrArg (· + 1) hlisted) halarm
        (hstatus.resolve_left hidle)
    · intro other hother
      simp [both, only, hother]
  exact hinv.return hstack (hinv.sound.of_same rfl rfl rfl) rfl rfl harranged'

/-! ## Switching threads -/

/-- A thread on the list is ready. -/
theorem State.Arranged.of_listed {role : Role} (harranged : state.Arranged
    (only state.current role)) (hrole : role = .detached ∨ role = .asleep)
    {thread : ThreadPtr} (hlisted : thread ∈ state.ready) :
    thread ≠ state.current ∧ Ordinary state.queue.created state.idle thread ∧
      (state.place thread).listed = 1 ∧ (state.place thread).alarm = none ∧
        (state.place thread).status = .ready := by
  have hpositive : (state.place thread).listed ≠ 0 :=
    (List.count_pos_iff.mpr hlisted).ne'
  by_cases hthread : thread = state.current
  · subst hthread
    have hplace := harranged.role_self
    rcases hrole with rfl | rfl
    · exact absurd hplace.2.1 hpositive
    · exact absurd hplace.2.1 hpositive
  · exact ⟨hthread, (harranged.resting hthread).of_listed hpositive⟩

/-- The idle thread is not on the list and has no event unless it runs. -/
theorem State.Arranged.idle_picked {role : Role} (hsound : state.Sound)
    (harranged : state.Arranged (only state.current role))
    (hcurrent : state.idle ≠ state.current) :
    Role.picked.Holds state.queue.created state.idle state.idle
      (state.place state.idle) := by
  have hplace := harranged.resting hcurrent
  cases hplace with
  | absent hlimit _ _ => exact absurd hsound.idle_created (not_lt.mpr hlimit)
  | init hinit _ _ _ => exact absurd hinit hsound.idle_ne_init
  | idle _ hlisted halarm =>
      exact ⟨hsound.idle_created, hsound.idle_ne_init, hlisted, halarm, Or.inl rfl⟩
  | ready hordinary _ _ _ => exact absurd rfl hordinary.not_idle
  | asleep hordinary _ _ _ => exact absurd rfl hordinary.not_idle

theorem getNextThread_nil (hready : state.ready = []) :
    state.getNextThread state.ready.head? = (state, state.idle) := by
  rw [hready]
  rfl

theorem getNextThread_cons {thread : ThreadPtr} {ready : List ThreadPtr}
    (hready : state.ready = thread :: ready) :
    state.getNextThread state.ready.head? = ({ state with ready := ready }, thread) := by
  simp [State.getNextThread, hready]

theorem exec_switchTake {head : Option ThreadPtr} (hinv : state.Invariant)
    (hstack : state.stack = .switchTake head :: callers)
    (hexec : Frame.exec callers state now (.switchTake head) = some after) :
    after.Invariant := by
  obtain ⟨rfl, hexpects⟩ := (hinv.control.expects hstack).1
  obtain ⟨role, hrole, harranged⟩ :
      ∃ role : Role, role.Leaves callers ∧ state.Arranged (only state.current role) := by
    rcases hexpects with ⟨harranged, hcaller⟩ | ⟨harranged, hcaller⟩
    · exact ⟨.detached, Or.inl ⟨rfl, hcaller⟩, harranged⟩
    · exact ⟨.asleep, Or.inr ⟨rfl, hcaller⟩, harranged⟩
  cases hready : state.ready with
  | nil =>
      simp only [Frame.exec, getNextThread_nil hready] at hexec
      by_cases hidle : state.idle = state.current
      · simp only [if_pos hidle, Option.some.injEq] at hexec
        subst hexec
        refine hinv.goto hstack (hinv.sound.of_same rfl rfl rfl) rfl (by simp) rfl ?_
        rcases hexpects with hquantum | ⟨hasleep, -⟩
        · exact hquantum
        · -- A thread that goes to sleep is not the idle thread.
          have hcurrent := hasleep.role_self
          exact absurd hidle.symm hcurrent.1.not_idle
      · simp only [if_neg hidle, Option.some.injEq] at hexec
        subst hexec
        have harranged' : state.Arranged
            (both state.current role state.idle .picked) := by
          apply harranged.change (Function.update_eq_self state.idle state.place).symm rfl rfl
          · rw [both_right hidle]
            exact State.Arranged.idle_picked hinv.sound harranged hidle
          · intro other hother
            simp [both, only, hother]
        exact hinv.goto hstack (hinv.sound.of_same rfl rfl rfl) rfl (by simp) rfl
          ⟨rfl, hidle, role, hrole, harranged'⟩
  | cons thread ready =>
      obtain ⟨hthread, hordinary, hlisted, halarm, hstatus⟩ :=
        harranged.of_listed hrole.outgoing (show thread ∈ state.ready by simp [hready])
      simp only [Frame.exec, getNextThread_cons hready, if_neg hthread,
        Option.some.injEq] at hexec
      subst hexec
      have harranged' : ({ state with ready := ready } : State).Arranged
          (both state.current role thread .picked) := by
        apply harranged.change (place_tail hready) rfl rfl
        · rw [both_right hthread]
          exact ⟨hordinary.created, hordinary.not_init, congrArg (· - 1) hlisted, halarm,
            Or.inr hstatus⟩
        · intro other hother
          simp [both, only, hother]
      exact hinv.goto hstack (hinv.sound.of_same rfl rfl rfl) rfl (by simp) rfl
        ⟨rfl, hthread, role, hrole, harranged'⟩

theorem alarmFields_links {time : ℕ} {callback : EventCallback} {arg : Option ThreadPtr}
    {kind : String} (fields : Event) :
    (State.alarmFields time callback arg kind fields).left = fields.left ∧
      (State.alarmFields time callback arg kind fields).right = fields.right ∧
        (State.alarmFields time callback arg kind fields).parent = fields.parent ∧
          (State.alarmFields time callback arg kind fields).enqueued = fields.enqueued :=
  ⟨rfl, rfl, rfl, rfl⟩

/-- Storing to the event of the running thread while it is not enqueued. -/
theorem setEvent_of_detached {time : ℕ} {callback : EventCallback}
    {arg : Option ThreadPtr} {kind : String} (hsound : state.Sound)
    (halarm : state.queue.alarm state.current = none) :
    (state.setEvent time callback arg kind).Sound ∧
      (state.setEvent time callback arg kind).place = state.place := by
  obtain ⟨schedule, hkeeps⟩ := hsound.queue
  obtain ⟨hkeeps', halarms⟩ := @EventQueue.Keeps.modify state.queue schedule state.current
    hkeeps halarm (State.alarmFields time callback arg kind) alarmFields_links
  refine ⟨hsound.withQueue (fun _ => rfl) rfl hkeeps' rfl rfl, ?_⟩
  funext thread
  exact congrArg (Place.mk _ _) (congrFun halarms thread)

theorem exec_switchRearm (hinv : state.Invariant)
    (hstack : state.stack = .switchRearm :: callers)
    (hexec : Frame.exec callers state now .switchRearm = some after) :
    after.Invariant := by
  obtain ⟨harranged, hcaller⟩ := (hinv.control.expects hstack).1
  have hrole := harranged.role_self
  obtain ⟨-, rfl⟩ := exec_switchRearm_iff.mp hexec
  obtain ⟨hsound, hplace⟩ := @setEvent_of_detached { state with clock := now }
    (wrap64 (now + schedThreadQuantum)) .switchThread none "switch same"
    (hinv.sound.of_same rfl rfl rfl) hrole.2.2.2
  have harranged' : (({ state with clock := now } : State).setEvent
      (wrap64 (now + schedThreadQuantum)) .switchThread none "switch same").Arranged
        (only state.current .detached) := by
    intro thread
    rw [hplace]
    exact harranged thread
  exact hinv.goto hstack (hsound.of_same rfl rfl rfl) rfl (by simp) rfl
    ⟨harranged', hcaller, by simp [State.setEvent, State.alarmFields],
      by simp [State.setEvent, State.alarmFields]⟩

/-- `event_enqueue` returns and gives the running thread the alarm that was stored
in its event. -/
theorem enqueueEvent_eq {queue : EventQueue} {schedule : Schedule}
    {change : Event → Event} (hkeeps : queue.Keeps schedule)
    (hqueue : state.queue = queue.modify state.current change)
    (hchange : ∀ fields : Event, (change fields).left = fields.left ∧
      (change fields).right = fields.right ∧ (change fields).parent = fields.parent ∧
        (change fields).enqueued = fields.enqueued)
    (hcurrent : state.current < queue.created) (frames : List Frame) :
    ∃ enqueued : EventQueue,
      state.enqueueEvent frames = { state with queue := enqueued, stack := frames } ∧
      enqueued.Keeps (schedule.enqueue state.current
        (change (queue.events state.current)).time) ∧
      enqueued.created = queue.created ∧
      enqueued.alarm = Function.update queue.alarm state.current
        (some (change (queue.events state.current)).toAlarm) := by
  obtain ⟨enqueued, henqueue, hspec⟩ := hkeeps.enqueue hcurrent hchange
  refine ⟨enqueued, ?_, hspec⟩
  rw [State.enqueueEvent, hqueue, henqueue]

theorem setEvent_enqueueEvent {schedule : Schedule} (hkeeps : state.queue.Keeps schedule)
    (hcurrent : state.current < state.queue.created) (time : ℕ) (callback : EventCallback)
    (arg : Option ThreadPtr) (kind : String) (frames : List Frame) :
    ∃ enqueued : EventQueue,
      (state.setEvent time callback arg kind).enqueueEvent frames =
        { state with queue := enqueued, stack := frames } ∧
      enqueued.Keeps (schedule.enqueue state.current time) ∧
      enqueued.created = state.queue.created ∧
      enqueued.alarm = Function.update state.queue.alarm state.current
        (some ⟨time, some callback, arg⟩) :=
  @enqueueEvent_eq (state.setEvent time callback arg kind) state.queue schedule
    (State.alarmFields time callback arg kind) hkeeps rfl alarmFields_links hcurrent frames

theorem switchEnqueue_spec {schedule : Schedule} (hinv : state.Invariant)
    (hstack : state.stack = .switchEnqueue :: callers)
    (hexec : Frame.exec callers state now .switchEnqueue = some after)
    (hkeeps : state.queue.Keeps schedule) :
    ∃ enqueued : EventQueue, { state with queue := enqueued, stack := callers } = after ∧
      enqueued.Keeps (schedule.enqueue state.current
        (state.queue.events state.current).time) ∧
      enqueued.alarm = Function.update state.queue.alarm state.current
        (some (state.queue.events state.current).toAlarm) := by
  have hrole := (hinv.control.expects hstack).1.1.role_self
  have hsame : state.queue.modify state.current id = state.queue := by
    simp [EventQueue.modify]
  obtain ⟨enqueued, heq, hkeeps', -, halarms⟩ := @enqueueEvent_eq state state.queue schedule
    id hkeeps hsame.symm (by simp) hrole.1 callers
  exact ⟨enqueued, heq.symm.trans (Option.some.inj hexec), hkeeps', halarms⟩

theorem rescheduleEnqueue_spec {schedule : Schedule} (hinv : state.Invariant)
    (hstack : state.stack = .rescheduleEnqueue :: callers)
    (hexec : Frame.exec callers state now .rescheduleEnqueue = some after)
    (hkeeps : state.queue.Keeps schedule) :
    ∃ enqueued : EventQueue,
      { state with
        queue := enqueued, clock := now, stack := .rescheduleUnlock :: callers } = after ∧
      enqueued.Keeps (schedule.enqueue state.current (wrap64 (now + schedThreadQuantum))) ∧
      enqueued.alarm = Function.update state.queue.alarm state.current
        (some ⟨wrap64 (now + schedThreadQuantum), some .switchThread, none⟩) := by
  have harranged : state.Arranged (only state.current .detached) :=
    (hinv.control.expects hstack).1
  obtain ⟨enqueued, heq, hkeeps', -, halarms⟩ := @setEvent_enqueueEvent
    { state with clock := now } schedule hkeeps harranged.role_self.1
    (wrap64 (now + schedThreadQuantum)) .switchThread none "switch"
    (.rescheduleUnlock :: callers)
  exact ⟨enqueued, heq.symm.trans (exec_rescheduleEnqueue_iff.mp hexec).2, hkeeps', halarms⟩

theorem sleepEnqueue_eq {time : ℕ} {schedule : Schedule} (hinv : state.Invariant)
    (hstack : state.stack = .sleepEnqueue time :: callers)
    (hexec : Frame.exec callers state now (.sleepEnqueue time) = some after)
    (hkeeps : state.queue.Keeps schedule) :
    ∃ enqueued : EventQueue,
      { state.setStatus state.current .sleeping with
        queue := enqueued, clock := now, stack := .sleepUnlock :: callers } = after ∧
      enqueued.Keeps (schedule.enqueue state.current (wrap64 (now + time))) ∧
      enqueued.created = state.queue.created ∧
      enqueued.alarm = Function.update state.queue.alarm state.current
        (some ⟨wrap64 (now + time), some .threadWake, some state.current⟩) := by
  have hrole := (hinv.control.expects hstack).1.1.role_self
  obtain ⟨enqueued, heq, hspec⟩ := @setEvent_enqueueEvent
    (({ state with clock := now } : State).setStatus state.current .sleeping) schedule
    hkeeps hrole.1 (wrap64 (now + time)) .threadWake (some state.current) "wake"
    (.sleepUnlock :: callers)
  exact ⟨enqueued, heq.symm.trans (exec_sleepEnqueue_iff.mp hexec).2, hspec⟩

/-- The running thread gets a quantum. -/
theorem enqueueEvent_running {base : State} {change : Event → Event} {time : ℕ}
    (hsound : base.Sound) (harranged : base.Arranged (only base.current .detached))
    (hchange : ∀ fields : Event, (change fields).left = fields.left ∧
      (change fields).right = fields.right ∧ (change fields).parent = fields.parent ∧
        (change fields).enqueued = fields.enqueued)
    (halarm : (change (base.queue.events base.current)).toAlarm =
      ⟨time, some .switchThread, none⟩)
    (hstate : state = { base with queue := base.queue.modify base.current change })
    (frames : List Frame) :
    (state.enqueueEvent frames).Sound ∧
      (state.enqueueEvent frames).Arranged
        (only (state.enqueueEvent frames).current .running) ∧
        (state.enqueueEvent frames).stack = frames ∧
          (state.enqueueEvent frames).current = base.current := by
  obtain ⟨schedule, hkeeps⟩ := hsound.queue
  have hrole := harranged.role_self
  obtain ⟨hcreated, hlisted, hactive, -⟩ := hrole
  subst hstate
  obtain ⟨enqueued, heq, hkeeps', hcreated', halarms⟩ := @enqueueEvent_eq
    { base with queue := base.queue.modify base.current change } base.queue schedule change
    hkeeps rfl hchange hcreated frames
  rw [heq]
  refine ⟨hsound.withQueue (fun _ => rfl) rfl hkeeps' hcreated' rfl, ?_, rfl, rfl⟩
  have hplace := @place_queue base base.current enqueued _ halarms
  apply harranged.change hplace hcreated' rfl
  · rw [only_self]
    exact ⟨hcreated, hlisted, hactive, time, congrArg some halarm⟩
  · intro other hother
    rw [only_of_ne hother, only_of_ne hother]

theorem exec_switchEnqueue (hinv : state.Invariant)
    (hstack : state.stack = .switchEnqueue :: callers)
    (hexec : Frame.exec callers state now .switchEnqueue = some after) :
    after.Invariant := by
  obtain ⟨harranged, -, hcallback, harg⟩ := (hinv.control.expects hstack).1
  obtain rfl := Option.some.inj hexec
  have hsame : state.queue.modify state.current id = state.queue := by
    simp [EventQueue.modify]
  obtain ⟨hsound, harranged', hafter, hcurrent⟩ := @enqueueEvent_running state state id
    (state.queue.events state.current).time hinv.sound harranged (by simp)
    (by simp [Event.toAlarm, hcallback, harg]) (by rw [hsame]) callers
  exact hinv.return hstack hsound hafter hcurrent harranged'

theorem exec_switchCurrent {this next : ThreadPtr} (hinv : state.Invariant)
    (hstack : state.stack = .switchCurrent this next :: callers)
    (hexec : Frame.exec callers state now (.switchCurrent this next) = some after) :
    after.Invariant := by
  obtain ⟨⟨rfl, hnext, role, hrole, harranged⟩, hcallers⟩ := hinv.control.expects hstack
  have hpicked := harranged.role_right hnext
  obtain rfl := Option.some.inj hexec
  refine ⟨hinv.sound.of_same rfl rfl rfl, control_of_expects rfl ?_ hcallers, ?_⟩
  · exact ⟨rfl, hnext, role, hrole.outgoing, harranged⟩
  · intro hinit
    exact absurd hinit hpicked.2.1

theorem exec_switchStatus {this next : ThreadPtr} (hinv : state.Invariant)
    (hstack : state.stack = .switchStatus this next :: callers)
    (hexec : Frame.exec callers state now (.switchStatus this next) = some after) :
    after.Invariant := by
  obtain ⟨rfl, hnext, role, hrole, harranged⟩ := (hinv.control.expects hstack).1
  have hpicked := harranged.role_right hnext
  obtain ⟨hcreated, hinit, hlisted, halarm, -⟩ := hpicked
  obtain rfl := Option.some.inj hexec
  have harranged' : (state.setStatus state.current .running).Arranged
      (both this role state.current .detached) := by
    apply harranged.change (place_setStatus state state.current .running) rfl rfl
    · rw [both_right hnext]
      exact ⟨hcreated, hlisted, Or.inl ⟨hinit, rfl⟩, halarm⟩
    · intro other hother
      simp [both, hother]
  exact hinv.goto hstack ((hinv.sound.setStatus state.current .running).of_same rfl rfl rfl)
    rfl (by simp) rfl ⟨rfl, hnext, hinit, role, hrole, harranged'⟩

/-- Every stack goes on with `maybe_reschedule_thread`. -/
theorem SavedStack.frames_eq (saved : SavedStack) (old : ThreadPtr) :
    ∃ callers, saved.frames old = .rescheduleLock old :: callers ∧
      ∀ caller ∈ callers, caller = .initThread ∨ caller ∈ saved.callers := by
  unfold SavedStack.frames
  cases saved.resume with
  | switchThread => exact ⟨_, rfl, fun _ hcaller => Or.inr hcaller⟩
  | initThread => exact ⟨_, rfl, fun _ hcaller => List.mem_cons.mp hcaller⟩

theorem exec_switchContext {this next : ThreadPtr} (hinv : state.Invariant)
    (hstack : state.stack = .switchContext this next :: callers)
    (hexec : Frame.exec callers state now (.switchContext this next) = some after) :
    after.Invariant := by
  obtain ⟨⟨rfl, hnext, hinit, role, hrole, harranged⟩, hcallers⟩ :=
    hinv.control.expects hstack
  obtain rfl := Option.some.inj hexec
  have hsaved := hinv.sound.saved state.current
  have harranged' : (state.switchContext callers this state.current).Arranged
      (both this role state.current .detached) := by
    intro thread
    rw [place_switchContext]
    exact harranged thread
  refine ⟨⟨hinv.sound.idle_created, hinv.sound.idle_ne_init, hinv.sound.queue, ?_⟩, ?_,
    fun hcurrent => absurd hcurrent hinit⟩
  · intro thread frame hframe
    by_cases hthread : thread = this
    · subst hthread
      simp only [State.switchContext, Function.update_self] at hframe
      exact hcallers frame hframe
    · simp only [State.switchContext, Function.update_of_ne hthread] at hframe
      exact hinv.sound.saved thread frame hframe
  · obtain ⟨resumed, hframes, hresumed⟩ :=
      (state.threads state.current).saved.frames_eq this
    apply control_of_expects (show (state.switchContext callers this
      state.current).stack = .rescheduleLock this :: resumed from hframes)
    · exact ⟨hnext.symm, role, hrole, harranged'⟩
    · intro caller hcaller
      rcases hresumed caller hcaller with rfl | hcaller
      · rfl
      · exact hsaved caller hcaller

/-! ## Requeueing the old thread -/

theorem requeue_cases (state : State) (thread : ThreadPtr) :
    state.requeue thread = state ∨
      state.requeue thread = (state.setStatus thread .ready).threadListAdd thread := by
  unfold State.requeue
  split
  · exact Or.inl rfl
  · split <;> simp

theorem requeue_arranged {thread : ThreadPtr} {role : Role} (hthread : thread ≠ state.current)
    (hrole : role.Outgoing)
    (harranged : state.Arranged (both thread role state.current .detached)) :
    (state.requeue thread).Arranged (only state.current .detached) := by
  have hplace := harranged.role_left
  have hstay : Resting state.queue.created state.idle thread (state.place thread) →
      state.Arranged (only state.current .detached) := by
    intro hresting
    apply harranged.change (Function.update_eq_self thread state.place).symm rfl rfl
    · rw [only_of_ne hthread]
      exact hresting
    · intro other hother
      simp [both, only, hother]
  unfold State.requeue
  by_cases hidle : thread = state.idle
  · rw [if_pos hidle]
    apply hstay
    rcases hrole with rfl | rfl
    · exact Resting.idle hidle hplace.2.1 hplace.2.2.2
    · exact absurd hidle hplace.1.not_idle
  · rw [if_neg hidle]
    rcases hrole with rfl | rfl
    · obtain ⟨hcreated, hlisted, hactive, halarm⟩ := hplace
      rcases hactive with ⟨hinit, hstatus⟩ | ⟨hinit, hstatus⟩
      · -- The quantum of the old thread is over.
        have hrunning : (state.threads thread).status = .running := hstatus
        simp only [hrunning]
        have hready : (state.setStatus thread .ready).Arranged
            (both thread .picked state.current .detached) := by
          apply harranged.change (place_setStatus state thread .ready) rfl rfl
          · rw [both_left]
            exact ⟨hcreated, hinit, hlisted, halarm, Or.inr rfl⟩
          · intro other hother
            simp [both, hother]
        have hpicked := hready.role_left
        apply hready.change (place_threadListAdd _ thread) rfl rfl
        · rw [only_of_ne hthread]
          exact Resting.ready ⟨hcreated, hidle, hinit⟩ (congrArg (· + 1) hpicked.2.2.1)
            hpicked.2.2.2.1 (hpicked.2.2.2.2.resolve_left hidle)
        · intro other hother
          simp [both, only, hother]
      · have hdone : (state.threads thread).status = .done := hstatus
        simp only [hdone]
        exact hstay (Resting.init hinit hlisted halarm hstatus)
    · have hsleeping : (state.threads thread).status = .sleeping := hplace.2.2.1
      simp only [hsleeping]
      exact hstay (Resting.asleep hplace.1 hplace.2.1 hplace.2.2.2 hplace.2.2.1)

theorem requeue_sound {thread : ThreadPtr} (hsound : state.Sound) :
    (state.requeue thread).Sound ∧ (state.requeue thread).current = state.current := by
  have hready : ((state.setStatus thread .ready).threadListAdd thread).Sound :=
    (hsound.setStatus thread .ready).of_same rfl rfl rfl
  unfold State.requeue
  split
  · exact ⟨hsound, rfl⟩
  · split
    · exact ⟨hready, rfl⟩
    · exact ⟨hready, rfl⟩
    · exact ⟨hsound, rfl⟩

theorem exec_rescheduleRequeue {thread : ThreadPtr} (hinv : state.Invariant)
    (hstack : state.stack = .rescheduleRequeue thread :: callers)
    (hexec : Frame.exec callers state now (.rescheduleRequeue thread) = some after) :
    after.Invariant := by
  obtain ⟨hthread, role, hrole, harranged⟩ := (hinv.control.expects hstack).1
  obtain rfl := Option.some.inj hexec
  obtain ⟨hsound, hcurrent⟩ := @requeue_sound state thread hinv.sound
  have harranged' := requeue_arranged hthread hrole harranged
  rw [← hcurrent] at harranged'
  exact hinv.goto hstack (hsound.of_same rfl rfl rfl) rfl (by simp) hcurrent harranged'

theorem exec_rescheduleEnqueue (hinv : state.Invariant)
    (hstack : state.stack = .rescheduleEnqueue :: callers)
    (hexec : Frame.exec callers state now .rescheduleEnqueue = some after) :
    after.Invariant := by
  have harranged : state.Arranged (only state.current .detached) :=
    (hinv.control.expects hstack).1
  obtain ⟨-, rfl⟩ := exec_rescheduleEnqueue_iff.mp hexec
  obtain ⟨hsound, harranged', hafter, hcurrent⟩ := enqueueEvent_running
    (hinv.sound.of_same rfl rfl rfl : ({ state with clock := now } : State).Sound)
    harranged alarmFields_links rfl rfl (.rescheduleUnlock :: callers)
  exact hinv.goto hstack hsound hafter (by simp) hcurrent harranged'

/-! ## Going to sleep -/

theorem sleepEnqueue_spec {time : ℕ} (hinv : state.Invariant)
    (hstack : state.stack = .sleepEnqueue time :: callers)
    (hexec : Frame.exec callers state now (.sleepEnqueue time) = some after) :
    after.Sound ∧ after.stack = .sleepUnlock :: callers ∧ after.current = state.current ∧
      after.idle = state.idle ∧ after.queue.created = state.queue.created ∧
        state.clock ≤ now ∧ after.clock = now ∧
          after.place = Function.update state.place state.current
            ⟨.sleeping, (state.place state.current).listed,
              some ⟨wrap64 (now + time), some .threadWake, some state.current⟩⟩ := by
  have hclock := (exec_sleepEnqueue_iff.mp hexec).1.1
  obtain ⟨schedule, hkeeps⟩ := hinv.sound.queue
  obtain ⟨enqueued, rfl, hkeeps', hcreated, halarms⟩ :=
    sleepEnqueue_eq hinv hstack hexec hkeeps
  have hplace : ({ state.setStatus state.current .sleeping with
      queue := enqueued } : State).place = Function.update state.place state.current
        ⟨.sleeping, (state.place state.current).listed,
          some ⟨wrap64 (now + time), some .threadWake, some state.current⟩⟩ := by
    have hqueue : ({ state.setStatus state.current .sleeping with
        queue := enqueued } : State).place =
          Function.update (state.setStatus state.current .sleeping).place state.current
            ⟨_, _, _⟩ := place_queue halarms
    rw [hqueue, place_setStatus, Function.update_self, Function.update_idem]
  have hsound : ({ state.setStatus state.current .sleeping with
      queue := enqueued } : State).Sound :=
    (hinv.sound.setStatus state.current .sleeping).withQueue (fun _ => rfl) rfl hkeeps'
      hcreated rfl
  exact ⟨hsound.of_same rfl rfl rfl, rfl, rfl, rfl, hcreated, hclock, rfl, hplace⟩

theorem exec_sleepEnqueue {time : ℕ} (hinv : state.Invariant)
    (hstack : state.stack = .sleepEnqueue time :: callers)
    (hexec : Frame.exec callers state now (.sleepEnqueue time) = some after) :
    after.Invariant := by
  obtain ⟨harranged, hordinary, hcaller⟩ := (hinv.control.expects hstack).1
  have hrole := harranged.role_self
  obtain ⟨hsound, hafter, hcurrent, hidle, hcreated, -, -, hplace⟩ :=
    sleepEnqueue_spec hinv hstack hexec
  have harranged' : after.Arranged (only state.current .asleep) := by
    apply harranged.change hplace hcreated hidle
    · rw [only_self]
      exact ⟨hordinary, hrole.2.1, rfl, _, rfl⟩
    · intro other hother
      rw [only_of_ne hother, only_of_ne hother]
  exact hinv.goto hstack hsound hafter (by simp) hcurrent ⟨hcurrent ▸ harranged', hcaller⟩

/-! ## Steps and runs -/

/-- Every control point keeps the invariant. -/
theorem exec_invariant (hinv : state.Invariant) (hstack : state.stack = frame :: callers)
    (hexec : frame.exec callers state now = some after) : after.Invariant := by
  have hexpects := (hinv.control.expects hstack).1
  cases frame with
  | threadCode | kinit | panic => exact Option.some.inj hexec ▸ hinv
  | interruptReturn flag =>
      obtain rfl := Option.some.inj hexec
      exact hinv.return hstack (hinv.sound.of_same rfl rfl rfl) rfl rfl hexpects
  | initThread | handleEoi =>
      obtain rfl := Option.some.inj hexec
      exact hinv.goto hstack (hinv.sound.of_same rfl rfl rfl) rfl (by simp) rfl hexpects
  | handlePeek => exact exec_handlePeek hinv hstack hexec
  | handleTest event => exact exec_handleTest hinv hstack hexec
  | handleRemove event => exact exec_handleRemove hinv hstack hexec
  | handleCallback event => exact exec_handleCallback hinv hstack hexec
  | handleNext => exact exec_handleNext hinv hstack hexec
  | handleArm next => exact exec_handleArm hinv hstack hexec
  | switchPick =>
      obtain rfl := Option.some.inj hexec
      exact hinv.goto hstack (hinv.sound.of_same rfl rfl rfl) rfl (by simp) rfl
        ⟨rfl, hexpects⟩
  | switchTake head => exact exec_switchTake hinv hstack hexec
  | switchRearm => exact exec_switchRearm hinv hstack hexec
  | switchEnqueue => exact exec_switchEnqueue hinv hstack hexec
  | switchCurrent this next => exact exec_switchCurrent hinv hstack hexec
  | switchStatus this next => exact exec_switchStatus hinv hstack hexec
  | switchContext this next => exact exec_switchContext hinv hstack hexec
  | rescheduleLock thread =>
      obtain rfl := Option.some.inj hexec
      exact hinv.goto hstack (hinv.sound.of_same rfl rfl rfl) rfl (by simp) rfl hexpects
  | rescheduleRequeue thread => exact exec_rescheduleRequeue hinv hstack hexec
  | rescheduleEnqueue => exact exec_rescheduleEnqueue hinv hstack hexec
  | rescheduleUnlock =>
      obtain rfl := Option.some.inj hexec
      exact hinv.return hstack (hinv.sound.of_same rfl rfl rfl) rfl rfl hexpects
  | wakeStatus thread => exact exec_wakeStatus hinv hstack hexec
  | wakeAdd thread => exact exec_wakeAdd hinv hstack hexec
  | sleepLock time =>
      obtain rfl := Option.some.inj hexec
      exact hinv.goto hstack (hinv.sound.of_same rfl rfl rfl) rfl (by simp) rfl hexpects
  | sleepEnqueue time => exact exec_sleepEnqueue hinv hstack hexec
  | sleepUnlock =>
      obtain rfl := Option.some.inj hexec
      exact hinv.goto hstack (hinv.sound.of_same rfl rfl rfl) rfl (by simp) rfl
        (Or.inr hexpects)

/-- An interrupt arrives only in a thread's own code, so that neither
`thread_sleep` nor `handle_next_event` is interrupted midway. -/
def Uninterrupted (state : State) (input : Input) : Prop :=
  input = .interrupt → state.stack.head? = some .threadCode

instance (state : State) (input : Input) : Decidable (Uninterrupted state input) :=
  inferInstanceAs (Decidable (_ → _))

theorem step_invariant {input : Input} (hinv : state.Invariant)
    (huninterrupted : Uninterrupted state input)
    (hstep : state.step input = some after) : after.Invariant := by
  cases stepped_of_step hstep with
  | run hstack hexec => exact exec_invariant hinv hstack hexec
  | sleep hstack hidle =>
      obtain ⟨hexpects, hcallers⟩ := hinv.control.expects hstack
      have hcreated := hexpects.role_self
      have hinit : state.current ≠ State.initThread := fun hcurrent =>
        hinv.init hcurrent (by simp [hstack])
      refine ⟨hinv.sound.of_same rfl rfl rfl, control_of_expects (by rw [hstack]) ?_ ?_,
        fun hcurrent => absurd hcurrent hinit⟩
      · exact ⟨hexpects, ⟨hcreated.1, hidle, hinit⟩, rfl⟩
      · intro caller hcaller
        rcases List.mem_cons.mp hcaller with rfl | hcaller
        · rfl
        · exact hcallers caller hcaller
  | interrupt _ =>
      obtain ⟨callers, hstack⟩ := List.head?_eq_some_iff.mp (huninterrupted rfl)
      obtain ⟨hexpects, hcallers⟩ := hinv.control.expects hstack
      have hinit : state.current ≠ State.initThread := fun hcurrent =>
        hinv.init hcurrent (by simp [hstack])
      refine ⟨hinv.sound.of_same rfl rfl rfl, control_of_expects rfl hexpects ?_,
        fun hcurrent => absurd hcurrent hinit⟩
      intro caller hcaller
      rw [hstack] at hcaller
      rcases List.mem_cons.mp hcaller with rfl | hcaller
      · rfl
      · rcases List.mem_cons.mp hcaller with rfl | hcaller
        · rfl
        · exact hcallers caller hcaller

end Flurry.Sched
