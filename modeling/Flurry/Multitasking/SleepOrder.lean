import Flurry.Multitasking.ThreadPlacement

/-!
# Wake-up calls for the same time

A run is followed together with the calls of `thread_sleep` in it.  Events for the
same time stand in the queue in the order in which they were put there, so among
them the thread that called `thread_sleep` first is the first to be woken.
-/

namespace Flurry.Sched

open ByteMemory Events LinkedTree

/-! ## What a step does to the schedule -/

section Schedule

variable {state after : State} {frame : Frame} {callers : List Frame}
variable {now : ℕ} {schedule : Schedule}

/-- The schedule and the alarms before and after a control point is executed.  Only
`thread_sleep` puts a wake-up call into the queue. -/
inductive ScheduleChange (frame : Frame) (state after : State) (schedule : Schedule) :
    Schedule → Prop where
  | same (halarm : after.queue.alarm = state.queue.alarm) :
      ScheduleChange frame state after schedule schedule
  | remove (event : EventPtr)
      (halarm : after.queue.alarm = Function.update state.queue.alarm event none) :
      ScheduleChange frame state after schedule (schedule.remove event)
  | enqueue (alarm : Alarm)
      (halarm : after.queue.alarm =
        Function.update state.queue.alarm state.current (some alarm))
      (hcallback : alarm.callback = some .switchThread ∨ ∃ time, frame = .sleepEnqueue time) :
      ScheduleChange frame state after schedule
        (schedule.enqueue state.current alarm.time)

theorem requeue_queue (state : State) (thread : ThreadPtr) :
    (state.requeue thread).queue = state.queue := by
  unfold State.requeue
  split
  · rfl
  · split <;> rfl

theorem exec_schedule (hinv : state.Invariant) (hstack : state.stack = frame :: callers)
    (hexec : frame.exec callers state now = some after)
    (hkeeps : state.queue.Keeps schedule) :
    ∃ schedule', after.queue.Keeps schedule' ∧
      ScheduleChange frame state after schedule schedule' := by
  have hsame : ∀ {after : State}, after.queue = state.queue →
      ∃ schedule', after.queue.Keeps schedule' ∧
        ScheduleChange frame state after schedule schedule' := by
    intro after hqueue
    exact ⟨schedule, hqueue ▸ hkeeps, .same (congrArg EventQueue.alarm hqueue)⟩
  have hexpects := (hinv.control.expects hstack).1
  cases frame with
  | threadCode | kinit | panic | interruptReturn _ | initThread | handleEoi | rescheduleLock _
  | rescheduleUnlock | sleepLock _ | sleepUnlock | switchPick | switchCurrent _ _
  | switchStatus _ _ | switchContext _ _ | wakeAdd _ =>
      obtain rfl := Option.some.inj hexec
      exact hsame rfl
  | handlePeek | handleNext | handleCallback _ | wakeStatus _ =>
      simp only [Frame.exec] at hexec
      split at hexec <;> obtain rfl := Option.some.inj hexec <;> exact hsame rfl
  | handleTest event =>
      rcases exec_handleTest_iff.mp hexec with ⟨-, ⟨-, rfl⟩ | ⟨-, rfl⟩⟩ <;> exact hsame rfl
  | handleArm next =>
      obtain ⟨-, rfl⟩ := exec_handleArm_iff.mp hexec
      exact hsame rfl
  | switchTake head =>
      obtain rfl := exec_switchTake_iff.mp hexec
      exact hsame rfl
  | rescheduleRequeue old =>
      obtain rfl := Option.some.inj hexec
      exact hsame (requeue_queue state old)
  | handleRemove event =>
      obtain ⟨queue, rfl, hkeeps', -, halarms, -⟩ := handleRemove_spec hinv hstack hexec hkeeps
      exact ⟨_, hkeeps', .remove event halarms⟩
  | switchRearm =>
      have hrole := hexpects.1.role_self
      obtain ⟨-, rfl⟩ := exec_switchRearm_iff.mp hexec
      -- the event of the running thread is not in the queue yet
      obtain ⟨hkeeps', halarms⟩ := @EventQueue.Keeps.modify state.queue schedule
        state.current hkeeps hrole.2.2.2 (State.alarmFields
          (wrap64 (now + schedThreadQuantum)) .switchThread none "switch same")
        alarmFields_links
      exact ⟨schedule, hkeeps', .same halarms⟩
  | switchEnqueue =>
      obtain ⟨-, -, hcallback, -⟩ := hexpects
      obtain ⟨enqueued, rfl, hkeeps', halarms⟩ := switchEnqueue_spec hinv hstack hexec hkeeps
      exact ⟨_, hkeeps', .enqueue (state.queue.events state.current).toAlarm halarms
        (Or.inl hcallback)⟩
  | rescheduleEnqueue =>
      obtain ⟨enqueued, rfl, hkeeps', halarms⟩ :=
        rescheduleEnqueue_spec hinv hstack hexec hkeeps
      exact ⟨_, hkeeps', .enqueue ⟨_, some .switchThread, none⟩ halarms (Or.inl rfl)⟩
  | sleepEnqueue time =>
      obtain ⟨enqueued, rfl, hkeeps', -, halarms⟩ := sleepEnqueue_eq hinv hstack hexec hkeeps
      exact ⟨_, hkeeps', .enqueue ⟨_, some .threadWake, some state.current⟩ halarms
        (Or.inr ⟨time, rfl⟩)⟩

end Schedule

/-! ## The calls of `thread_sleep` -/

/-- The thread whose call of `thread_sleep` begins with an input. -/
def State.sleepCall (state : State) : Input → List ThreadPtr
  | .sleep _ => [state.current]
  | .run _ | .interrupt => []

/-- The calls of `thread_sleep` in a run, first to last. -/
def State.sleepCalls (state : State) : List Input → List ThreadPtr
  | [] => []
  | input :: inputs => state.sleepCall input ++
      match state.step input with
      | some after => after.sleepCalls inputs
      | none => []

/-- The last call of the second thread comes after all calls of the first. -/
def CalledBefore (calls : List ThreadPtr) (first second : ThreadPtr) : Prop :=
  ∃ before after, calls = before ++ second :: after ∧ first ∉ after ∧ second ∉ after

/-- Of two threads the first one called first, or both sleep since before the run. -/
def InCallOrder (calls : List ThreadPtr) (first second : ThreadPtr) : Prop :=
  CalledBefore calls first second ∨ first ∉ calls ∧ second ∉ calls

/-- A call by another thread changes nothing between two threads. -/
theorem InCallOrder.append {calls : List ThreadPtr} {first second thread : ThreadPtr}
    (horder : InCallOrder calls first second) (hfirst : first ≠ thread)
    (hsecond : second ≠ thread) : InCallOrder (calls ++ [thread]) first second := by
  rcases horder with ⟨before, after, rfl, hfirst', hsecond'⟩ | ⟨hfirst', hsecond'⟩
  · refine Or.inl ⟨before, after ++ [thread], by simp, ?_, ?_⟩
    · simp [hfirst', hfirst]
    · simp [hsecond', hsecond]
  · right
    simp [hfirst', hsecond', hfirst, hsecond]

theorem inCallOrder_of_last {calls : List ThreadPtr} {thread : ThreadPtr}
    (hlast : calls = [] ∨ calls.getLast? = some thread) (first : ThreadPtr) :
    InCallOrder calls first thread := by
  rcases hlast with rfl | hlast
  · exact Or.inr ⟨List.not_mem_nil, List.not_mem_nil⟩
  · obtain ⟨before, rfl⟩ := List.getLast?_eq_some_iff.mp hlast
    exact Or.inl ⟨before, [], rfl, List.not_mem_nil, List.not_mem_nil⟩

/-- The event will wake a thread. -/
def IsWakeUp (queue : EventQueue) (event : EventPtr) : Prop :=
  ∃ alarm, queue.alarm event = some alarm ∧ alarm.callback = some .threadWake

/-- Two wake-up calls for the same time are in the order of the calls. -/
def EntryOrder (queue : EventQueue) (calls : List ThreadPtr) (first second : EventPtr × ℕ) :
    Prop :=
  first.2 = second.2 → IsWakeUp queue first.1 → IsWakeUp queue second.1 →
    InCallOrder calls first.1 second.1

/-- The control points in `thread_sleep` before the event is enqueued. -/
def Frame.fallsAsleep : Frame → Bool
  | sleepLock _ | sleepEnqueue _ => true
  | _ => false

/-- The queue agrees with the calls so far.  A thread that is about to enqueue its
event has made the last one. -/
structure State.Logged (calls : List ThreadPtr) (state : State) : Prop where
  order : ∃ schedule, state.queue.Keeps schedule ∧
    schedule.Pairwise (EntryOrder state.queue calls)
  calling : ∀ frame ∈ state.stack.head?, frame.fallsAsleep = true →
    calls = [] ∨ calls.getLast? = some state.current

section Logged

variable {state after : State} {frame : Frame} {callers : List Frame}
variable {now : ℕ} {calls : List ThreadPtr}

/-- Nothing is known about the calls before a run. -/
theorem State.Invariant.logged_nil (hinv : state.Invariant) : state.Logged [] := by
  obtain ⟨schedule, hkeeps⟩ := hinv.sound.queue
  refine ⟨⟨schedule, hkeeps, List.pairwise_of_forall fun first second _ _ _ => ?_⟩,
    fun _ _ _ => Or.inl rfl⟩
  exact Or.inr ⟨List.not_mem_nil, List.not_mem_nil⟩

theorem ScheduleChange.entryOrder {schedule schedule' : Schedule}
    (hchange : ScheduleChange frame state after schedule schedule')
    (hkeeps : state.queue.Keeps schedule)
    (horder : schedule.Pairwise (EntryOrder state.queue calls))
    (hcalling : ∀ time, frame = .sleepEnqueue time →
      calls = [] ∨ calls.getLast? = some state.current) :
    schedule'.Pairwise (EntryOrder after.queue calls) := by
  cases hchange with
  | same halarm =>
      apply horder.imp
      intro first second hentry
      simpa only [EntryOrder, IsWakeUp, halarm] using hentry
  | remove event halarm =>
      have hwake : ∀ other, IsWakeUp after.queue other → IsWakeUp state.queue other := by
        rintro other ⟨alarm, hother, hcallback⟩
        rw [halarm] at hother
        by_cases heq : other = event
        · simp [heq] at hother
        · rw [Function.update_of_ne heq] at hother
          exact ⟨alarm, hother, hcallback⟩
      apply (horder.filter _).imp
      intro first second hentry htime hfirst hsecond
      exact hentry htime (hwake _ hfirst) (hwake _ hsecond)
  | enqueue alarm halarm hcallback =>
      have hwake : ∀ other, other ≠ state.current → IsWakeUp after.queue other →
          IsWakeUp state.queue other := by
        rintro other hother ⟨otherAlarm, hget, hcallback⟩
        rw [halarm, Function.update_of_ne hother] at hget
        exact ⟨otherAlarm, hget, hcallback⟩
      have hsleep : IsWakeUp after.queue state.current →
          calls = [] ∨ calls.getLast? = some state.current := by
        rintro ⟨other, hget, hwakes⟩
        rw [halarm, Function.update_self] at hget
        obtain rfl := Option.some.inj hget
        rcases hcallback with hquantum | ⟨time, hframe⟩
        · simp [hquantum] at hwakes
        · exact hcalling time hframe
      have hne : ∀ entry ∈ schedule.remove state.current, entry.1 ≠ state.current := by
        intro entry hentry
        simpa using (List.mem_filter.mp hentry).2
      have hrest : (schedule.remove state.current).Pairwise
          (EntryOrder after.queue calls) := by
        apply List.Pairwise.imp_of_mem _ (horder.filter _)
        intro first second hfirst hsecond hentry htime hwakes hwakes'
        exact hentry htime (hwake _ (hne first hfirst) hwakes)
          (hwake _ (hne second hsecond) hwakes')
      apply pairwise_insertByKey (hkeeps.sorted.filter _) hrest
      · intro entry _ _ _ _ hwakes
        exact inCallOrder_of_last (hsleep hwakes) entry.1
      · intro entry _ hlt heq
        exact absurd heq hlt.ne

/-- `thread_sleep` is entered by a call only; inside it the running thread stays the
same. -/
theorem exec_fallsAsleep {new : Frame} (hinv : state.Invariant)
    (hstack : state.stack = frame :: callers)
    (hexec : frame.exec callers state now = some after) (hnew : new ∈ after.stack.head?)
    (hasleep : new.fallsAsleep = true) :
    frame.fallsAsleep = true ∧ after.current = state.current := by
  have hreturn : ∀ {stack : List Frame}, stack = callers → new ∉ stack.head? := by
    rintro stack rfl hmem
    have hreturns := (hinv.control.expects hstack).2 new (List.mem_of_mem_head? hmem)
    cases new <;> simp [Frame.fallsAsleep, Frame.IsReturn] at hasleep hreturns
  have hgoto : ∀ {other : Frame} {rest : List Frame}, other.fallsAsleep = false →
      new ∉ (other :: rest).head? := by
    rintro other rest hother hmem
    obtain rfl := Option.some.inj hmem
    simp [hother] at hasleep
  have henqueue : ∀ (base : State) (frames : List Frame), new ∉ frames.head? →
      new ∉ (base.enqueueEvent frames).stack.head? := by
    intro base frames hframes
    rcases enqueueEvent_cases base frames with heq | ⟨queue, heq⟩ <;> rw [heq]
    · exact hgoto rfl
    · exact hframes
  cases frame with
  | threadCode | kinit | panic =>
      obtain rfl := Option.some.inj hexec
      rw [hstack] at hnew
      exact absurd hnew (hgoto rfl)
  | interruptReturn _ | rescheduleUnlock | wakeAdd _ =>
      obtain rfl := Option.some.inj hexec
      exact absurd hnew (hreturn rfl)
  | initThread | handleEoi | rescheduleLock _ | rescheduleRequeue _ | sleepUnlock | switchPick
  | switchCurrent _ _ | switchStatus _ _ =>
      obtain rfl := Option.some.inj hexec
      exact absurd hnew (hgoto rfl)
  | switchTake head =>
      obtain rfl := exec_switchTake_iff.mp hexec
      apply absurd hnew
      split <;> exact hgoto rfl
  | switchContext this next =>
      obtain rfl := Option.some.inj hexec
      obtain ⟨resumed, hframes, -⟩ := (state.threads next).saved.frames_eq this
      rw [State.switchContext, hframes] at hnew
      exact absurd hnew (hgoto rfl)
  | handlePeek | handleRemove _ | handleCallback _ | wakeStatus _ =>
      simp only [Frame.exec] at hexec
      split at hexec <;> obtain rfl := Option.some.inj hexec <;>
        exact absurd hnew (hgoto rfl)
  | handleNext =>
      simp only [Frame.exec] at hexec
      split at hexec <;> obtain rfl := Option.some.inj hexec
      · exact absurd hnew (hgoto rfl)
      · exact absurd hnew (hreturn rfl)
      · exact absurd hnew (hgoto rfl)
  | handleTest event =>
      rcases exec_handleTest_iff.mp hexec with ⟨-, ⟨-, rfl⟩ | ⟨-, rfl⟩⟩ <;>
        exact absurd hnew (hgoto rfl)
  | handleArm next =>
      obtain ⟨-, rfl⟩ := exec_handleArm_iff.mp hexec
      exact absurd hnew (hreturn rfl)
  | switchRearm =>
      obtain ⟨-, rfl⟩ := exec_switchRearm_iff.mp hexec
      exact absurd hnew (hgoto rfl)
  | switchEnqueue =>
      obtain rfl := Option.some.inj hexec
      exact absurd hnew (henqueue _ _ (hreturn rfl))
  | rescheduleEnqueue =>
      obtain ⟨-, rfl⟩ := exec_rescheduleEnqueue_iff.mp hexec
      exact absurd hnew (henqueue _ _ (hgoto rfl))
  | sleepEnqueue time =>
      obtain ⟨-, rfl⟩ := exec_sleepEnqueue_iff.mp hexec
      exact absurd hnew (henqueue _ _ (hgoto rfl))
  | sleepLock time =>
      obtain rfl := Option.some.inj hexec
      exact ⟨rfl, rfl⟩

theorem step_logged {input : Input} (hinv : state.Invariant)
    (hlogged : state.Logged calls) (huninterrupted : Uninterrupted state input)
    (hstep : state.step input = some after) :
    after.Logged (calls ++ state.sleepCall input) := by
  obtain ⟨schedule, hkeeps, horder⟩ := hlogged.order
  cases stepped_of_step hstep with
  | @run now frame callers _ hstack hexec =>
      rw [State.sleepCall, List.append_nil]
      have hcalling : frame.fallsAsleep = true →
          calls = [] ∨ calls.getLast? = some state.current :=
        hlogged.calling frame (by rw [hstack]; rfl)
      obtain ⟨schedule', hkeeps', hchange⟩ := exec_schedule hinv hstack hexec hkeeps
      constructor
      · refine ⟨schedule', hkeeps', hchange.entryOrder hkeeps horder ?_⟩
        rintro time rfl
        exact hcalling rfl
      · intro new hnew hasleep
        obtain ⟨hframe, hcurrent⟩ := exec_fallsAsleep hinv hstack hexec hnew hasleep
        rw [hcurrent]
        exact hcalling hframe
  | sleep hstack _ =>
      have harranged : state.Arranged (only state.current .running) :=
        (hinv.control.expects hstack).1
      -- the event of the calling thread still ends its quantum
      have hne : ∀ event, IsWakeUp state.queue event → event ≠ state.current := by
        rintro event ⟨alarm, halarm, hcallback⟩
        rcases harranged.alarm_cases halarm with ⟨-, hquantum, -⟩ | ⟨hne, -⟩
        · simp [hquantum] at hcallback
        · exact hne
      constructor
      · refine ⟨schedule, hkeeps, horder.imp fun hentry htime hfirst hsecond => ?_⟩
        exact (hentry htime hfirst hsecond).append (hne _ hfirst) (hne _ hsecond)
      · intro _ _ _
        exact Or.inr List.getLast?_concat
  | interrupt _ =>
      rw [State.sleepCall, List.append_nil]
      refine ⟨⟨schedule, hkeeps, horder⟩, fun frame hframe hasleep => ?_⟩
      obtain rfl := Option.some.inj hframe
      simp [Frame.fallsAsleep] at hasleep

/-- Along a run the queue agrees with the calls of `thread_sleep`. -/
theorem runInputs_logged {inputs : List Input} (hinv : state.Invariant)
    (hlogged : state.Logged calls)
    (hrun : state.runInputs Uninterrupted inputs = some after) :
    after.Invariant ∧ after.Logged (calls ++ state.sleepCalls inputs) := by
  induction inputs generalizing state calls with
  | nil =>
      obtain rfl := Option.some.inj hrun
      rw [State.sleepCalls, List.append_nil]
      exact ⟨hinv, hlogged⟩
  | cons input inputs ih =>
      obtain ⟨middle, hallowed, hstep, hrest⟩ := (runInputs_cons Uninterrupted).mp hrun
      rw [State.sleepCalls, hstep, ← List.append_assoc]
      exact ih (step_invariant hinv hallowed hstep) (step_logged hinv hlogged hallowed hstep)
        hrest

end Logged

end Flurry.Sched
