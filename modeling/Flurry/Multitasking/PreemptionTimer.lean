import Flurry.Multitasking.WakeTimes

/-!
# The preemption timer

Only the end of `handle_next_event` starts the one-shot.  A thread that was put
away in `thread_sleep` does not pass there when it gets the processor back, so it
runs with the one-shot that is left from before: with none, if the interrupt that
led to the switch was the one-shot itself, and with one that is too late, if the
thread before it went to sleep for less time than the one-shot had left.
-/

namespace Flurry.Sched

open ByteMemory Events Lapic

/-- The one-shot is armed and fires by the given time. -/
def State.ArmedFor (state : State) (time : ℕ) : Prop :=
  ∃ oneShot ∈ state.oneShot, oneShot.FiresBy state.calibration time

instance (state : State) (time : ℕ) : Decidable (state.ArmedFor time) :=
  inferInstanceAs (Decidable (∃ oneShot ∈ state.oneShot, _))

/-- If there is an event, the one-shot fires by the time of the earliest one. -/
def State.TimerArmed (state : State) : Prop :=
  ∀ event ∈ (eventPeekNext state.queue).join,
    state.ArmedFor (state.queue.events event).time

instance (state : State) : Decidable state.TimerArmed :=
  inferInstanceAs (Decidable (∀ event ∈ (eventPeekNext state.queue).join, _))

/-! ## The condition -/

/-- Put away in a `switch_thread` that was not called by `handle_next_event`, that is,
in `thread_sleep`. -/
def SavedStack.inSleep (saved : SavedStack) : Bool :=
  saved.resume = .switchThread ∧ saved.callers.head? ≠ some .handlePeek

/-- The thread that `get_next_thread` would return. -/
def State.nextInLine (state : State) : ThreadPtr := state.ready.head?.getD state.idle

/-- Some event of the queue is due by the given time. -/
def State.HasEventBy (state : State) (time : ℕ) : Prop :=
  ∃ event ∈ (eventPeekNext state.queue).join, (state.queue.events event).time ≤ time

instance (state : State) (time : ℕ) : Decidable (state.HasEventBy time) :=
  inferInstanceAs (Decidable (∃ event ∈ (eventPeekNext state.queue).join, _))

/-- `timer_fire_at` does not find the event in the past, `handle_next_event` does not
switch to a thread inside `thread_sleep`, a thread that goes to sleep before such a
thread does not ask to be woken before all events, and the clock stays a quantum below
its end. -/
def armsInTime (state : State) : List Frame → Input → Bool
  | .handleArm next :: _, .run now => now ≤ (state.queue.events next).time
  | .switchContext _ next :: .handlePeek :: _, .run _ => !(state.threads next).saved.inSleep
  | .sleepEnqueue time :: _, .run now =>
      (state.threads state.nextInLine).saved.inSleep →
        state.HasEventBy (wrap64 (now + time))
  | .rescheduleEnqueue :: _, .run now => now + schedThreadQuantum < 2 ^ 64
  | _, _ => true

/-- The runs in which the one-shot stays armed. -/
def TimerKept (state : State) (input : Input) : Prop :=
  Uninterrupted state input ∧ armsInTime state state.stack input = true

instance (state : State) (input : Input) : Decidable (TimerKept state input) :=
  inferInstanceAs (Decidable (_ ∧ _))

variable {state after : State} {frame : Frame} {callers : List Frame} {now : ℕ}

/-- The one-shot fires by the time of every event. -/
def State.AllArmed (state : State) : Prop :=
  ∀ event alarm, state.queue.alarm event = some alarm → state.ArmedFor alarm.time

theorem State.ArmedFor.mono {time later : ℕ} (harmed : state.ArmedFor time)
    (hle : time ≤ later) : state.ArmedFor later := by
  obtain ⟨oneShot, hmem, hfires⟩ := harmed
  exact ⟨oneShot, hmem, hfires.mono hle⟩

theorem timerArmed_iff (hsound : state.Sound) : state.TimerArmed ↔ state.AllArmed := by
  unfold State.TimerArmed
  rcases hsound.peekNext with ⟨hpeek, hnone⟩ | ⟨event, hpeek, alarm, halarm, hearliest⟩
  · simp [hpeek, State.AllArmed, hnone]
  · have htime : (state.queue.events event).time = alarm.time :=
      congrArg Alarm.time (alarm_eq_some halarm)
    simp only [hpeek, Option.join_some, Option.mem_def, Option.some.injEq, forall_eq',
      htime]
    constructor
    · intro harmed other otherAlarm hother
      exact harmed.mono (hearliest other otherAlarm hother)
    · intro hall
      exact hall event alarm halarm

/-- What holds by the earliest event holds later. -/
theorem State.AllArmed.armedFor {time : ℕ} (harmed : state.AllArmed) (hsound : state.Sound)
    (hevent : state.HasEventBy time) : state.ArmedFor time := by
  obtain ⟨event, hmem, hle⟩ := hevent
  rcases hsound.peekNext with ⟨hpeek, -⟩ | ⟨next, hpeek, alarm, halarm, -⟩
  · simp [hpeek] at hmem
  · rw [hpeek, Option.join_some, Option.mem_some_iff] at hmem
    subst hmem
    apply (harmed next alarm halarm).mono
    rwa [← congrArg Alarm.time (alarm_eq_some halarm)]

/-! ## The end of a quantum -/

/-- No quantum ends later than one that starts now. -/
def State.QuantaSoon (state : State) : Prop :=
  ∀ thread time, thread ≠ State.initThread →
    state.queue.alarm thread = some ⟨time, some .switchThread, none⟩ →
      time ≤ state.clock + schedThreadQuantum

/-- The one-shot fires by the end of a quantum that starts now. -/
def State.ArmedSoon (state : State) : Prop :=
  state.ArmedFor (state.clock + schedThreadQuantum)

/-- The one-shot is armed for the thread that gets the processor: for its quantum, and
for all events if it will not start the one-shot itself. -/
structure State.ArmedOn (state : State) (next : ThreadPtr) : Prop where
  quantum : state.ArmedSoon
  events : (state.threads next).saved.inSleep = true → state.AllArmed

/-- Control returns to a function that ends with `handle_next_event`. -/
def returnsToHandler (callers : List Frame) : Prop :=
  callers.head? = some .handlePeek ∨ callers.head? = some .initThread

/-- How the one-shot is armed at a control point.  `handle_next_event` starts it again,
so nothing is asked of it there. -/
def Frame.Timed (callers : List Frame) (state : State) : Frame → Prop
  | threadCode | interruptReturn _ | sleepLock _ | sleepEnqueue _ => state.AllArmed
  | sleepUnlock | switchPick | switchTake _ =>
      callers.head? = some handlePeek ∨ state.ArmedOn state.nextInLine
  | switchCurrent _ next | switchStatus _ next | switchContext _ next =>
      callers.head? = some handlePeek ∨ state.ArmedOn next
  | switchEnqueue =>
      (state.queue.events state.current).time ≤ state.clock + schedThreadQuantum
  | rescheduleLock _ | rescheduleRequeue _ | rescheduleEnqueue =>
      returnsToHandler callers ∨ state.ArmedSoon ∧ state.AllArmed
  | rescheduleUnlock => returnsToHandler callers ∨ state.AllArmed
  | _ => True

/-- The control point on top finds the one-shot as it needs it. -/
def State.Timed (state : State) : Prop :=
  ∀ frame callers, state.stack = frame :: callers → frame.Timed callers state

theorem timed_of_stack (hstack : after.stack = frame :: callers)
    (htimed : frame.Timed callers after) : after.Timed := by
  intro frame' callers' hstack'
  obtain ⟨rfl, rfl⟩ := List.cons.inj (hstack.symm.trans hstack')
  exact htimed

/-- A call has returned with the one-shot armed. -/
theorem timed_of_return (hcallers : ∀ caller ∈ callers, caller.IsReturn = true)
    (hstack : after.stack = callers) (harmed : returnsToHandler callers ∨ after.AllArmed) :
    after.Timed := by
  intro frame rest hafter
  obtain rfl := hstack.symm.trans hafter
  have hframe := hcallers frame (List.mem_cons_self ..)
  cases frame with
  | threadCode | interruptReturn _ => exact harmed.resolve_left (by simp [returnsToHandler])
  | kinit | initThread | handlePeek => trivial
  | _ => simp [Frame.IsReturn] at hframe

/-- A quantum is a quantum long. -/
theorem exec_quantaSoon (hinv : state.Invariant) (hstack : state.stack = frame :: callers)
    (hexec : frame.exec callers state now = some after) (htimed : frame.Timed callers state)
    (hsoon : state.QuantaSoon) : after.QuantaSoon := by
  have hclock := Nat.add_le_add_right (exec_current_clock hexec).1 schedThreadQuantum
  intro thread time hinit halarm
  have hsame : after.queue.alarm thread = state.queue.alarm thread →
      time ≤ after.clock + schedThreadQuantum := fun heq =>
    (hsoon thread time hinit (heq ▸ halarm)).trans hclock
  by_cases htouched : frame.touched state = some thread
  · obtain ⟨schedule, hkeeps⟩ := hinv.sound.queue
    cases frame with
    | handleRemove event =>
        obtain rfl := Option.some.inj htouched
        obtain ⟨queue, rfl, -, -, halarms, -⟩ := handleRemove_spec hinv hstack hexec hkeeps
        change queue.alarm event = _ at halarm
        rw [halarms, Function.update_self] at halarm
        exact absurd halarm (by simp)
    | wakeStatus woken =>
        simp only [Frame.exec] at hexec
        split at hexec <;> obtain rfl := Option.some.inj hexec <;> exact hsame rfl
    | wakeAdd _ | switchStatus _ _ =>
        obtain rfl := Option.some.inj hexec
        exact hsame rfl
    | rescheduleRequeue old =>
        obtain rfl := Option.some.inj hexec
        rcases requeue_cases state old with heq | heq <;> rw [heq] at hsame ⊢ <;> exact hsame rfl
    | switchTake head =>
        obtain rfl := exec_switchTake_iff.mp hexec
        exact hsame rfl
    | switchEnqueue =>
        obtain rfl := Option.some.inj htouched
        obtain ⟨enqueued, rfl, -, halarms⟩ := switchEnqueue_spec hinv hstack hexec hkeeps
        change enqueued.alarm state.current = _ at halarm
        rw [halarms, Function.update_self, Option.some.injEq] at halarm
        exact (congrArg Alarm.time halarm).ge.trans htimed
    | rescheduleEnqueue =>
        obtain rfl := Option.some.inj htouched
        obtain ⟨enqueued, rfl, -, halarms⟩ :=
          rescheduleEnqueue_spec hinv hstack hexec hkeeps
        change enqueued.alarm state.current = _ at halarm
        rw [halarms, Function.update_self, Option.some.injEq] at halarm
        exact (congrArg Alarm.time halarm).ge.trans (Nat.mod_le _ _)
    | sleepEnqueue duration =>
        obtain rfl := Option.some.inj htouched
        obtain ⟨-, -, -, -, -, -, -, hplace⟩ := sleepEnqueue_spec hinv hstack hexec
        have hwake := congrArg Place.alarm (congrFun hplace state.current)
        rw [Function.update_self] at hwake
        exact absurd (halarm.symm.trans hwake) (by simp)
    | _ => simp [Frame.touched] at htouched
  · exact hsame (congrArg Place.alarm (exec_place_of_untouched hinv hstack hexec htouched))

/-! ## From thread code to thread code -/

theorem sub64_le {value amount : ℕ} (hle : amount ≤ value) (hamount : amount < 2 ^ 64) :
    amount + sub64 value amount ≤ value := by
  have hsplit : value + (2 ^ 64 - amount) = value - amount + 2 ^ 64 := by omega
  rw [sub64, Nat.mod_eq_of_lt hamount, hsplit, wrap64, Nat.add_mod_right]
  have hmod := Nat.mod_le (value - amount) (2 ^ 64)
  omega

/-- The end of `handle_next_event`. -/
theorem handleArm_allArmed {next : EventPtr} (hinv : state.Invariant)
    (hstack : state.stack = .handleArm next :: callers)
    (hkept : now ≤ (state.queue.events next).time)
    (hexec : Frame.exec callers state now (.handleArm next) = some after) :
    after.AllArmed := by
  obtain ⟨-, alarm, halarm, hearliest⟩ := (hinv.control.expects hstack).1
  have htime : (state.queue.events next).time = alarm.time :=
    congrArg Alarm.time (alarm_eq_some halarm)
  obtain ⟨⟨-, hword⟩, rfl⟩ := exec_handleArm_iff.mp hexec
  intro other otherAlarm hother
  refine ⟨_, rfl, ?_⟩
  apply lapicTimerOneShot_firesBy
  exact (sub64_le hkept hword).trans (htime.trans_le (hearliest other otherAlarm hother))

/-- A thread that goes to sleep gives up its quantum, which the one-shot was armed
for. -/
theorem sleepEnqueue_armedOn {time : ℕ} (hinv : state.Invariant)
    (hstack : state.stack = .sleepEnqueue time :: callers)
    (hkept : (state.threads state.nextInLine).saved.inSleep = true →
      state.HasEventBy (wrap64 (now + time)))
    (hexec : Frame.exec callers state now (.sleepEnqueue time) = some after)
    (hsoon : state.QuantaSoon) (harmed : state.AllArmed) :
    after.ArmedOn after.nextInLine := by
  have hclock := (exec_current_clock hexec).1
  obtain ⟨schedule, hkeeps⟩ := hinv.sound.queue
  obtain ⟨queue, rfl, -, -, halarms⟩ := sleepEnqueue_eq hinv hstack hexec hkeeps
  obtain ⟨harranged, hordinary, -⟩ := (hinv.control.expects hstack).1
  obtain ⟨-, -, -, quantum, hquantum⟩ := harranged.role_self
  refine ⟨?_, fun hsleep event alarm halarm => ?_⟩
  · apply (harmed state.current _ hquantum).mono
    apply (hsoon state.current quantum hordinary.not_init hquantum).trans
    exact Nat.add_le_add_right hclock schedThreadQuantum
  · have hevent := hkept (by rwa [saved_setStatus] at hsleep)
    change queue.alarm event = some alarm at halarm
    rw [halarms] at halarm
    by_cases heq : event = state.current
    · rw [heq, Function.update_self] at halarm
      obtain rfl := Option.some.inj halarm
      exact harmed.armedFor hinv.sound hevent
    · rw [Function.update_of_ne heq] at halarm
      exact harmed event alarm halarm

/-- The end of `maybe_reschedule_thread` for a thread that returns from
`thread_sleep`. -/
theorem rescheduleEnqueue_allArmed (hinv : state.Invariant)
    (hstack : state.stack = .rescheduleEnqueue :: callers)
    (hkept : now + schedThreadQuantum < 2 ^ 64)
    (hexec : Frame.exec callers state now .rescheduleEnqueue = some after)
    (hquantum : state.ArmedSoon) (harmed : state.AllArmed) : after.AllArmed := by
  have hclock := (exec_current_clock hexec).1
  obtain ⟨schedule, hkeeps⟩ := hinv.sound.queue
  obtain ⟨enqueued, rfl, -, halarms⟩ := rescheduleEnqueue_spec hinv hstack hexec hkeeps
  intro event alarm halarm
  change enqueued.alarm event = some alarm at halarm
  rw [halarms] at halarm
  by_cases hevent : event = state.current
  · rw [hevent, Function.update_self, wrap64_of_lt hkept] at halarm
    obtain rfl := Option.some.inj halarm
    exact hquantum.mono (Nat.add_le_add_right hclock schedThreadQuantum)
  · rw [Function.update_of_ne hevent] at halarm
    exact harmed event alarm halarm

/-- The incoming thread starts, was inside `handle_next_event`, or is inside
`thread_sleep` with the one-shot set. -/
theorem switchContext_timed {this next : ThreadPtr}
    (hkept : armsInTime state (.switchContext this next :: callers) (.run now) = true)
    (htimed : (Frame.switchContext this next).Timed callers state) :
    (state.switchContext callers this next).Timed := by
  cases hresume : (state.threads next).saved.resume with
  | initThread =>
      apply timed_of_stack (by rw [State.switchContext, SavedStack.frames, hresume])
      exact Or.inl (Or.inr rfl)
  | switchThread =>
      apply timed_of_stack (by rw [State.switchContext, SavedStack.frames, hresume])
      by_cases hhandler : (state.threads next).saved.callers.head? = some .handlePeek
      · exact Or.inl (Or.inl hhandler)
      · have hsleep : (state.threads next).saved.inSleep = true := by
          simp [SavedStack.inSleep, hresume, hhandler]
        rcases htimed with hcaller | harmed
        · -- `handle_next_event` does not switch to a thread inside `thread_sleep`.
          obtain ⟨rest, rfl⟩ := List.head?_eq_some_iff.mp hcaller
          simp [armsInTime, hsleep] at hkept
        · exact Or.inr ⟨harmed.quantum, harmed.events hsleep⟩

/-- One step keeps the one-shot armed. -/
theorem exec_timed (hinv : state.Invariant) (hstack : state.stack = frame :: callers)
    (hkept : armsInTime state (frame :: callers) (.run now) = true)
    (hexec : frame.exec callers state now = some after) (hsoon : state.QuantaSoon)
    (htimed : frame.Timed callers state) : after.Timed := by
  obtain ⟨hexpects, hcallers⟩ := hinv.control.expects hstack
  cases frame with
  | threadCode | kinit | panic =>
      obtain rfl := Option.some.inj hexec
      exact timed_of_stack hstack htimed
  | interruptReturn flag =>
      obtain rfl := Option.some.inj hexec
      exact timed_of_return hcallers rfl (Or.inr htimed)
  | initThread | handleEoi =>
      obtain rfl := Option.some.inj hexec
      exact timed_of_stack rfl trivial
  | handlePeek | handleRemove _ | wakeStatus _ =>
      simp only [Frame.exec] at hexec
      split at hexec <;> obtain rfl := Option.some.inj hexec <;>
        exact timed_of_stack rfl trivial
  | handleTest event =>
      rcases exec_handleTest_iff.mp hexec with ⟨-, ⟨-, rfl⟩ | ⟨-, rfl⟩⟩ <;>
        exact timed_of_stack rfl trivial
  | handleCallback event =>
      simp only [Frame.exec] at hexec
      split at hexec <;> obtain rfl := Option.some.inj hexec
      · exact timed_of_stack rfl (Or.inl rfl)
      · exact timed_of_stack rfl trivial
      · exact timed_of_stack rfl trivial
  | handleNext =>
      rcases hinv.sound.peekNext with ⟨hpeek, hnone⟩ | ⟨event, hpeek, -⟩ <;>
        simp only [Frame.exec, hpeek, Option.some.injEq] at hexec <;> subst hexec
      · apply timed_of_return hcallers rfl (Or.inr fun event alarm halarm => ?_)
        exact absurd ((hnone event).symm.trans halarm) (by simp)
      · exact timed_of_stack rfl trivial
  | handleArm next =>
      have harmed := handleArm_allArmed hinv hstack (by simpa [armsInTime] using hkept) hexec
      obtain ⟨-, rfl⟩ := exec_handleArm_iff.mp hexec
      exact timed_of_return hcallers rfl (Or.inr harmed)
  | switchPick | sleepUnlock =>
      obtain rfl := Option.some.inj hexec
      exact timed_of_stack rfl (htimed.imp_right fun harmed => ⟨harmed.1, harmed.2⟩)
  | switchTake head =>
      obtain ⟨rfl, -⟩ := hexpects
      obtain rfl := exec_switchTake_iff.mp hexec
      split
      · exact timed_of_stack rfl trivial
      · exact timed_of_stack rfl (htimed.imp_right fun harmed => ⟨harmed.1, harmed.2⟩)
  | switchRearm =>
      obtain ⟨-, rfl⟩ := exec_switchRearm_iff.mp hexec
      apply timed_of_stack rfl
      simp only [Frame.Timed, State.setEvent, EventQueue.modify, Function.update_self,
        State.alarmFields]
      exact Nat.mod_le _ _
  | switchEnqueue =>
      obtain ⟨schedule, hkeeps⟩ := hinv.sound.queue
      obtain ⟨enqueued, rfl, -⟩ := switchEnqueue_spec hinv hstack hexec hkeeps
      exact timed_of_return hcallers rfl (Or.inl (Or.inl hexpects.2.1))
  | switchCurrent this next =>
      obtain rfl := Option.some.inj hexec
      exact timed_of_stack rfl (htimed.imp_right fun harmed => ⟨harmed.1, harmed.2⟩)
  | switchStatus this next =>
      obtain rfl := Option.some.inj hexec
      apply timed_of_stack rfl
      apply htimed.imp_right
      intro harmed
      refine ⟨harmed.1, fun hsleep => harmed.2 ?_⟩
      rwa [saved_setStatus] at hsleep
  | switchContext this next =>
      obtain rfl := Option.some.inj hexec
      exact switchContext_timed hkept htimed
  | rescheduleLock _ =>
      obtain rfl := Option.some.inj hexec
      exact timed_of_stack rfl htimed
  | rescheduleRequeue old =>
      obtain rfl := Option.some.inj hexec
      rcases requeue_cases state old with heq | heq <;> rw [heq] <;>
        exact timed_of_stack rfl htimed
  | rescheduleEnqueue =>
      have harmed := fun hboth : state.ArmedSoon ∧ state.AllArmed =>
        rescheduleEnqueue_allArmed hinv hstack (by simpa [armsInTime] using hkept) hexec
          hboth.1 hboth.2
      obtain ⟨schedule, hkeeps⟩ := hinv.sound.queue
      obtain ⟨enqueued, rfl, -⟩ := rescheduleEnqueue_spec hinv hstack hexec hkeeps
      exact timed_of_stack rfl (htimed.imp_right harmed)
  | rescheduleUnlock =>
      obtain rfl := Option.some.inj hexec
      exact timed_of_return hcallers rfl htimed
  | wakeAdd thread =>
      obtain rfl := Option.some.inj hexec
      exact timed_of_return hcallers rfl (Or.inl (Or.inl hexpects.2.2.2))
  | sleepLock time =>
      obtain rfl := Option.some.inj hexec
      exact timed_of_stack rfl htimed
  | sleepEnqueue time =>
      have harmed := sleepEnqueue_armedOn hinv hstack (of_decide_eq_true hkept) hexec hsoon
        htimed
      exact timed_of_stack (sleepEnqueue_spec hinv hstack hexec).2.1 (Or.inr harmed)

/-- The invariant with the one-shot. -/
structure State.Preemptible (state : State) : Prop where
  inv : state.Invariant
  soon : state.QuantaSoon
  timed : state.Timed

theorem step_preemptible {input : Input} (hpre : state.Preemptible)
    (hkept : TimerKept state input) (hstep : state.step input = some after) :
    after.Preemptible := by
  have hinv := step_invariant hpre.inv hkept.1 hstep
  cases stepped_of_step hstep with
  | run hstack hexec =>
      have htimed := hpre.timed _ _ hstack
      refine ⟨hinv, exec_quantaSoon hpre.inv hstack hexec htimed hpre.soon, ?_⟩
      apply exec_timed hpre.inv hstack _ hexec hpre.soon htimed
      rw [← hstack]
      exact hkept.2
  | sleep hstack _ => exact ⟨hinv, hpre.soon, timed_of_stack rfl (hpre.timed _ _ hstack)⟩
  | interrupt _ => exact ⟨hinv, hpre.soon, timed_of_stack rfl trivial⟩

theorem schedInit_preemptible (count calibration : ℕ) :
    (State.schedInit count calibration).Preemptible := by
  have hinv := schedInit_invariant count calibration
  have hcreated := created_iterate count calibration
  obtain ⟨hstack, hcurrent⟩ | hstack :
      ((State.schedInit count calibration).stack = [.handleEoi, .kinit] ∧
        (State.schedInit count calibration).current = State.initThread) ∨
      (State.schedInit count calibration).stack = [.panic] := by
    simp only [State.schedInit, State.enqueueEvent]
    split
    · exact Or.inr rfl
    · exact Or.inl ⟨hcreated.stack, rfl⟩
  · refine ⟨hinv, fun thread time hinit halarm => ?_, timed_of_stack hstack trivial⟩
    -- Only `sched_init` has a quantum.
    have harranged : State.Arranged _ (only _ .running) := (hinv.control.expects hstack).1
    rw [hcurrent] at harranged
    obtain ⟨-, -, -, hwake, -⟩ := (harranged.resting hinit).of_alarm halarm
    exact absurd hwake (by simp)
  · exact (hinv.control.expects hstack).1.elim

/-- In every run whose steps keep the timer, the one-shot is armed for the earliest
event whenever a thread's own code runs. -/
theorem timer_armed_in_thread_code {count calibration : ℕ} {state : State}
    (hrun : RunsTo TimerKept (State.schedInit count calibration) state)
    (hcode : state.stack.head? = some .threadCode) : state.TimerArmed := by
  obtain ⟨hinv, -, htimed⟩ :=
    hrun.keeps (schedInit_preemptible count calibration) fun _ _ _ => step_preemptible
  obtain ⟨callers, hstack⟩ := List.head?_eq_some_iff.mp hcode
  exact (timerArmed_iff hinv.sound).mpr (htimed _ _ hstack)

/-- Two threads that take turns with the idle thread.  Thread 3 is resumed inside
`handle_next_event`, goes to sleep, and thread 2 is resumed inside `thread_sleep` with
the one-shot that thread 3 has started. -/
theorem timer_armed_in_thread_code_two_threads :
    ∃ state, RunsTo TimerKept (State.schedInit 2 100000) state ∧
      state.stack = [.threadCode] ∧ state.current = 2 ∧ state.clock = 6000040 ∧
        state.TimerArmed := by
  have hinputs : ((State.schedInit 2 100000).runInputs TimerKept
      (List.replicate 20 (Input.run 10) ++
        Input.sleep 4000000 :: (List.replicate 18 (Input.run 10) ++
        Input.interrupt :: (List.replicate 20 (Input.run 3000020) ++
        Input.interrupt :: (List.replicate 12 (Input.run 4000020) ++
        Input.interrupt :: (List.replicate 19 (Input.run 6000030) ++
        Input.sleep 5000000 :: List.replicate 12 (Input.run 6000040))))))).map
        (fun state => (state.stack, state.current, state.clock)) =
          some ([.threadCode], 2, 6000040) := by
    decide +kernel
  obtain ⟨state, hstate, hread⟩ := Option.map_eq_some_iff.mp hinputs
  simp only [Prod.mk.injEq] at hread
  obtain ⟨hstack, hcurrent, hclock⟩ := hread
  have hrun := runsTo_of_runInputs TimerKept hstate
  exact ⟨state, hrun, hstack, hcurrent, hclock,
    timer_armed_in_thread_code hrun (by rw [hstack]; rfl)⟩

/-- One thread sleeps for 1000 ns and gets the processor back inside
`thread_sleep`, when the idle thread's quantum is over.  Its event is in the queue,
and the one-shot is not armed. -/
theorem timer_not_armed_after_sleep :
    ∃ state, RunsTo Uninterrupted (State.schedInit 1 100000) state ∧
      state.stack = [.threadCode] ∧ state.current = 2 ∧ state.oneShot = none ∧
        ¬state.TimerArmed := by
  have hinputs : ((State.schedInit 1 100000).runInputs Uninterrupted
      (List.replicate 20 (Input.run 10) ++
        Input.sleep 1000 :: (List.replicate 20 (Input.run 10) ++
        Input.interrupt :: (List.replicate 12 (Input.run 2000) ++ Input.interrupt ::
          List.replicate 15 (Input.run 3100000))))).map
        (fun state => (state.stack, state.current, state.oneShot,
          decide state.TimerArmed)) = some ([.threadCode], 2, none, false) := by
    decide +kernel
  obtain ⟨state, hstate, hread⟩ := Option.map_eq_some_iff.mp hinputs
  simp only [Prod.mk.injEq, decide_eq_false_iff_not] at hread
  obtain ⟨hstack, hcurrent, hoff, hnot⟩ := hread
  exact ⟨state, runsTo_of_runInputs Uninterrupted hstate, hstack, hcurrent, hoff, hnot⟩

end Flurry.Sched
