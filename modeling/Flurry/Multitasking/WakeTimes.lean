import Flurry.Multitasking.ThreadPlacement

/-!
# No thread wakes up early

A thread that has gone to sleep is touched by no step but the removal of its own
event, and that happens only after the clock has been read at its wake-up time or
later.
-/

namespace Flurry.Sched

open ByteMemory Events

variable {state after : State} {frame : Frame} {callers : List Frame}
variable {now : ℕ} {thread : ThreadPtr}

/-- The thread whose place a control point may change. -/
def Frame.touched (state : State) : Frame → Option ThreadPtr
  | handleRemove event => some event
  | wakeStatus thread | wakeAdd thread | rescheduleRequeue thread => some thread
  | switchTake head => head
  | switchEnqueue | switchStatus _ _ | rescheduleEnqueue | sleepEnqueue _ =>
      some state.current
  | _ => none

theorem place_of_update {other : ThreadPtr} {place : Place}
    (hplace : after.place = Function.update state.place other place)
    (hthread : thread ≠ other) : after.place thread = state.place thread := by
  rw [hplace, Function.update_of_ne hthread]

theorem place_requeue_of_ne {old : ThreadPtr} (hthread : thread ≠ old) :
    (state.requeue old).place thread = state.place thread := by
  have hready : ((state.setStatus old .ready).threadListAdd old).place thread =
      state.place thread := by
    rw [place_threadListAdd, Function.update_of_ne hthread, place_setStatus,
      Function.update_of_ne hthread]
  unfold State.requeue
  split
  · rfl
  · split
    · exact hready
    · exact hready
    · rfl

/-- All other threads stay where they are. -/
theorem exec_place_of_untouched (hinv : state.Invariant)
    (hstack : state.stack = frame :: callers)
    (hexec : frame.exec callers state now = some after)
    (hthread : frame.touched state ≠ some thread) :
    after.place thread = state.place thread := by
  have hexpects := (hinv.control.expects hstack).1
  cases frame with
  | threadCode | kinit | panic | interruptReturn _ | initThread | handleEoi | rescheduleLock _
  | rescheduleUnlock | sleepLock _ | sleepUnlock | switchPick | switchCurrent _ _ =>
      obtain rfl := Option.some.inj hexec
      rfl
  | handlePeek | handleNext =>
      simp only [Frame.exec] at hexec
      split at hexec <;> obtain rfl := Option.some.inj hexec <;> rfl
  | handleCallback event =>
      simp only [Frame.exec] at hexec
      split at hexec <;> obtain rfl := Option.some.inj hexec <;> rfl
  | handleTest event =>
      rcases exec_handleTest_iff.mp hexec with ⟨-, ⟨-, rfl⟩ | ⟨-, rfl⟩⟩ <;> rfl
  | handleArm next =>
      obtain ⟨-, rfl⟩ := exec_handleArm_iff.mp hexec
      rfl
  | handleRemove event =>
      obtain ⟨schedule, hkeeps⟩ := hinv.sound.queue
      obtain ⟨queue, rfl, -, -, halarms, -⟩ := handleRemove_spec hinv hstack hexec hkeeps
      exact place_of_update (place_queue halarms) fun heq => hthread (by rw [heq]; rfl)
  | switchTake head =>
      obtain ⟨rfl, -⟩ := hexpects
      simp only [Frame.exec] at hexec
      cases hready : state.ready with
      | nil =>
          rw [getNextThread_nil hready] at hexec
          split at hexec <;> obtain rfl := Option.some.inj hexec <;> rfl
      | cons next ready =>
          have hne : thread ≠ next := by
            rintro rfl
            exact hthread (by simp [Frame.touched, hready])
          rw [getNextThread_cons hready] at hexec
          split at hexec <;> obtain rfl := Option.some.inj hexec <;>
            exact place_of_update (place_tail hready) hne
  | switchRearm =>
      have hrole := hexpects.1.role_self
      obtain ⟨-, rfl⟩ := exec_switchRearm_iff.mp hexec
      exact congrFun (setEvent_of_detached (hinv.sound.of_same rfl rfl rfl)
        hrole.2.2.2).2 thread
  | switchEnqueue =>
      obtain ⟨schedule, hkeeps⟩ := hinv.sound.queue
      obtain ⟨enqueued, rfl, -, halarms⟩ := switchEnqueue_spec hinv hstack hexec hkeeps
      exact place_of_update (place_queue halarms) fun heq => hthread (by rw [heq]; rfl)
  | switchStatus this next =>
      obtain rfl := Option.some.inj hexec
      exact place_of_update (place_setStatus state state.current .running)
        fun heq => hthread (by rw [heq]; rfl)
  | switchContext this next =>
      obtain rfl := Option.some.inj hexec
      exact congrFun (place_switchContext state callers this next) thread
  | rescheduleRequeue old =>
      obtain rfl := Option.some.inj hexec
      exact place_requeue_of_ne fun heq => hthread (by rw [heq]; rfl)
  | rescheduleEnqueue =>
      obtain ⟨schedule, hkeeps⟩ := hinv.sound.queue
      obtain ⟨enqueued, rfl, -, halarms⟩ := rescheduleEnqueue_spec hinv hstack hexec hkeeps
      exact place_of_update (place_queue halarms) fun heq => hthread (by rw [heq]; rfl)
  | wakeStatus woken =>
      simp only [Frame.exec] at hexec
      split at hexec <;> obtain rfl := Option.some.inj hexec
      · exact place_of_update (place_setStatus state woken .ready)
          fun heq => hthread (by rw [heq]; rfl)
      · rfl
  | wakeAdd woken =>
      obtain rfl := Option.some.inj hexec
      exact place_of_update (place_threadListAdd state woken)
        fun heq => hthread (by rw [heq]; rfl)
  | sleepEnqueue time =>
      obtain ⟨-, -, -, -, -, -, -, hplace⟩ := sleepEnqueue_spec hinv hstack hexec
      exact place_of_update hplace fun heq => hthread (by rw [heq]; rfl)

theorem enqueueEvent_current_clock (frames : List Frame) :
    (state.enqueueEvent frames).current = state.current ∧
      (state.enqueueEvent frames).clock = state.clock := by
  unfold State.enqueueEvent
  split <;> exact ⟨rfl, rfl⟩

/-- The clock does not go back, and only one control point changes the current
thread. -/
theorem exec_current_clock (hexec : frame.exec callers state now = some after) :
    state.clock ≤ after.clock ∧
      (after.current = state.current ∨ ∃ this, frame = .switchCurrent this after.current) := by
  cases frame with
  | threadCode | kinit | panic | interruptReturn _ | initThread | handleEoi | rescheduleLock _
  | rescheduleUnlock | sleepLock _ | sleepUnlock | switchPick | switchStatus _ _
  | switchContext _ _ | wakeAdd _ =>
      obtain rfl := Option.some.inj hexec
      exact ⟨le_rfl, Or.inl rfl⟩
  | switchCurrent this next =>
      obtain rfl := Option.some.inj hexec
      exact ⟨le_rfl, Or.inr ⟨this, rfl⟩⟩
  | handlePeek | handleNext | handleRemove _ | handleCallback _ | wakeStatus _ =>
      simp only [Frame.exec] at hexec
      split at hexec <;> obtain rfl := Option.some.inj hexec <;>
        exact ⟨le_rfl, Or.inl rfl⟩
  | handleTest event =>
      rcases exec_handleTest_iff.mp hexec with ⟨⟨hclock, -⟩, ⟨-, rfl⟩ | ⟨-, rfl⟩⟩ <;>
        exact ⟨hclock, Or.inl rfl⟩
  | handleArm next =>
      obtain ⟨⟨hclock, -⟩, rfl⟩ := exec_handleArm_iff.mp hexec
      exact ⟨hclock, Or.inl rfl⟩
  | switchTake head =>
      obtain rfl := exec_switchTake_iff.mp hexec
      exact ⟨le_rfl, Or.inl rfl⟩
  | switchRearm =>
      obtain ⟨⟨hclock, -⟩, rfl⟩ := exec_switchRearm_iff.mp hexec
      exact ⟨hclock, Or.inl rfl⟩
  | switchEnqueue =>
      obtain rfl := Option.some.inj hexec
      obtain ⟨hcurrent, hclock⟩ := @enqueueEvent_current_clock state callers
      exact ⟨hclock.ge, Or.inl hcurrent⟩
  | rescheduleRequeue thread =>
      obtain rfl := Option.some.inj hexec
      simp only [State.requeue]
      split
      · exact ⟨le_rfl, Or.inl rfl⟩
      · split <;> exact ⟨le_rfl, Or.inl rfl⟩
  | rescheduleEnqueue =>
      obtain ⟨⟨hclock, -⟩, rfl⟩ := exec_rescheduleEnqueue_iff.mp hexec
      obtain ⟨hcurrent, hclock'⟩ := enqueueEvent_current_clock _
      exact ⟨hclock.trans hclock'.ge, Or.inl hcurrent⟩
  | sleepEnqueue _ =>
      obtain ⟨⟨hclock, -⟩, rfl⟩ := exec_sleepEnqueue_iff.mp hexec
      obtain ⟨hcurrent, hclock'⟩ := enqueueEvent_current_clock _
      exact ⟨hclock.trans hclock'.ge, Or.inl hcurrent⟩

/-! ## Sleeping threads -/

/-- Asleep with a wake-up call at the given time. -/
def State.SleepsUntil (state : State) (thread : ThreadPtr) (time : ℕ) : Prop :=
  state.place thread = ⟨.sleeping, 0, some ⟨time, some .threadWake, some thread⟩⟩

theorem requeue_of_sleeping (hstatus : (state.threads thread).status = .sleeping) :
    state.requeue thread = state := by
  simp [State.requeue, hstatus]

/-- The control points that touch a sleeping thread are its requeueing, which
leaves it alone, and the removal of its event, which is due by then. -/
theorem exec_sleepsUntil {time : ℕ} (hinv : state.Invariant)
    (hstack : state.stack = frame :: callers)
    (hexec : frame.exec callers state now = some after)
    (hsleeps : state.SleepsUntil thread time) :
    time ≤ state.clock ∨ after.SleepsUntil thread time := by
  have hexpects := (hinv.control.expects hstack).1
  have halarm : state.queue.alarm thread =
      some ⟨time, some .threadWake, some thread⟩ := congrArg Place.alarm hsleeps
  have hlisted : (state.place thread).listed = 0 := congrArg Place.listed hsleeps
  by_cases htouched : frame.touched state = some thread
  · cases frame with
    | handleRemove event =>
        obtain rfl := Option.some.inj htouched
        obtain ⟨-, alarm, hdue, hclock⟩ := hexpects
        obtain rfl := Option.some.inj (halarm.symm.trans hdue)
        exact Or.inl hclock
    | rescheduleRequeue old =>
        obtain rfl := Option.some.inj htouched
        obtain rfl := Option.some.inj hexec
        right
        rw [requeue_of_sleeping (congrArg Place.status hsleeps)]
        exact hsleeps
    | wakeStatus woken =>
        obtain rfl := Option.some.inj htouched
        have hrole := hexpects.2.1.role_right hexpects.1
        exact absurd (halarm.symm.trans hrole.2.2.2) (by simp)
    | wakeAdd woken =>
        obtain rfl := Option.some.inj htouched
        have hrole := hexpects.2.2.1.role_right hexpects.1
        exact absurd (halarm.symm.trans hrole.2.2.2.1) (by simp)
    | switchTake head =>
        have hmem : thread ∈ state.ready :=
          List.mem_of_mem_head? (hexpects.1.symm.trans htouched)
        exact absurd hmem (List.count_eq_zero.mp hlisted)
    | switchEnqueue =>
        obtain rfl := Option.some.inj htouched
        have hrole := hexpects.1.role_self
        exact absurd (halarm.symm.trans hrole.2.2.2) (by simp)
    | switchStatus this next =>
        obtain rfl := Option.some.inj htouched
        obtain ⟨rfl, hnext, role, -, harranged⟩ := hexpects
        have hrole := harranged.role_right hnext
        exact absurd (halarm.symm.trans hrole.2.2.2.1) (by simp)
    | rescheduleEnqueue =>
        obtain rfl := Option.some.inj htouched
        have hrole := hexpects.role_self
        exact absurd (halarm.symm.trans hrole.2.2.2) (by simp)
    | sleepEnqueue duration =>
        obtain rfl := Option.some.inj htouched
        have hrole := hexpects.1.role_self
        obtain ⟨quantum, hquantum⟩ := hrole.2.2.2
        exact absurd (halarm.symm.trans hquantum) (by simp)
    | _ => simp [Frame.touched] at htouched
  · right
    rw [State.SleepsUntil, exec_place_of_untouched hinv hstack hexec htouched]
    exact hsleeps

/-- One step leaves a sleeping thread asleep and out of the processor, unless its
time has come. -/
theorem step_sleepsUntil {time : ℕ} {input : Input} (hinv : state.Invariant)
    (hstep : state.step input = some after) (hsleeps : state.SleepsUntil thread time) :
    time ≤ after.clock ∨ after.SleepsUntil thread time ∧
      (state.current ≠ thread → after.current ≠ thread) := by
  cases stepped_of_step hstep with
  | run hstack hexec =>
      obtain ⟨hclock, hcurrent⟩ := exec_current_clock hexec
      rcases exec_sleepsUntil hinv hstack hexec hsleeps with hdue | hsleeps'
      · exact Or.inl (hdue.trans hclock)
      · refine Or.inr ⟨hsleeps', fun hne => ?_⟩
        rcases hcurrent with heq | ⟨this, rfl⟩
        · rwa [heq]
        · -- The thread that is switched to is not asleep.
          rintro rfl
          obtain ⟨-, hnext, role, -, harranged⟩ := (hinv.control.expects hstack).1
          have hpicked := harranged.role_right hnext
          rw [hsleeps] at hpicked
          exact absurd hpicked.2.2.2.1 (by simp)
  | sleep _ _ => exact Or.inr ⟨hsleeps, id⟩
  | interrupt _ => exact Or.inr ⟨hsleeps, id⟩

theorem step_clock {input : Input} (hstep : state.step input = some after) :
    state.clock ≤ after.clock := by
  cases stepped_of_step hstep with
  | run _ hexec => exact (exec_current_clock hexec).1
  | sleep _ _ => exact le_rfl
  | interrupt _ => exact le_rfl

/-- A run leaves a sleeping thread asleep and, once it has given up the processor,
out of it, until its time has come. -/
theorem RunsTo.sleepsUntil {time : ℕ} (hrun : RunsTo Uninterrupted state after)
    (hinv : state.Invariant) (hsleeps : state.SleepsUntil thread time) :
    after.Invariant ∧ (time ≤ after.clock ∨ after.SleepsUntil thread time ∧
      (state.current ≠ thread → after.current ≠ thread)) := by
  induction hrun with
  | refl => exact ⟨hinv, Or.inr ⟨hsleeps, id⟩⟩
  | step _ hallowed hstep ih =>
      obtain ⟨hinv', hmiddle⟩ := ih
      refine ⟨step_invariant hinv' hallowed hstep, ?_⟩
      rcases hmiddle with hdue | ⟨hsleeps', hcurrent⟩
      · exact Or.inl (hdue.trans (step_clock hstep))
      · rcases step_sleepsUntil hinv' hstep hsleeps' with hdue | ⟨hafter, hcurrent'⟩
        · exact Or.inl hdue
        · exact Or.inr ⟨hafter, fun hne => hcurrent' (hcurrent hne)⟩

/-- A thread that calls `thread_sleep(d)` when the clock reads `t` has the processor
again only after the clock has been read at `t + d` or later. -/
theorem no_early_wakeup {count calibration d t : ℕ} {callers : List Frame}
    {state asleep away later : State}
    (hrun : RunsTo Uninterrupted (State.schedInit count calibration) state)
    (hstack : state.stack = .sleepEnqueue d :: callers)
    (hasleep : state.step (.run t) = some asleep) (hsum : t + d < 2 ^ 64)
    (haway : RunsTo Uninterrupted asleep away) (hcurrent : away.current ≠ state.current)
    (hlater : RunsTo Uninterrupted away later) (hagain : later.current = state.current) :
    t + d ≤ later.clock := by
  have hinv := invariant_of_runsTo hrun
  have hexec : Frame.exec callers state t (.sleepEnqueue d) = some asleep := by
    simpa only [State.step, hstack] using hasleep
  have hlisted : (state.place state.current).listed = 0 := by
    have hrole := (hinv.control.expects hstack).1.1.role_self
    exact hrole.2.1
  obtain ⟨-, -, -, -, -, -, -, hplace⟩ := sleepEnqueue_spec hinv hstack hexec
  have hsleeps : asleep.SleepsUntil state.current (t + d) := by
    rw [State.SleepsUntil, hplace, Function.update_self, hlisted, wrap64_of_lt hsum]
  obtain ⟨hinvAway, hawake⟩ := haway.sleepsUntil (exec_invariant hinv hstack hexec) hsleeps
  rcases hawake with hdue | ⟨hsleepsAway, -⟩
  · apply hdue.trans
    exact hlater.keeps (le_refl away.clock) fun _ _ _ hclock _ hstep =>
      le_trans hclock (step_clock hstep)
  · rcases (hlater.sleepsUntil hinvAway hsleepsAway).2 with hdue | ⟨-, hstill⟩
    · exact hdue
    · exact absurd hagain (hstill hcurrent)

/-- One thread sleeps for 1000 ns, the idle thread runs meanwhile, and the thread
gets the processor back when the idle thread's quantum is over. -/
theorem no_early_wakeup_one_thread :
    ∃ state asleep away later : State,
      RunsTo Uninterrupted (State.schedInit 1 100000) state ∧
        state.step (.run 10) = some asleep ∧ away.current ≠ state.current ∧
          later.current = state.current ∧ 10 + 1000 ≤ later.clock := by
  have hinputs : (do
      let state ← (State.schedInit 1 100000).runInputs Uninterrupted
        (List.replicate 20 (Input.run 10) ++ [Input.sleep 1000, Input.run 10])
      let asleep ← state.step (.run 10)
      let away ← asleep.runInputs Uninterrupted (List.replicate 19 (Input.run 10))
      let later ← away.runInputs Uninterrupted (.interrupt ::
        (List.replicate 12 (Input.run 2000) ++
          Input.interrupt :: List.replicate 15 (Input.run 3100000)))
      some (state.stack, state.current, away.current, later.current)) =
        some ([.sleepEnqueue 1000, .threadCode], 2, 1, 2) := by
    decide +kernel
  simp only [Option.bind_eq_bind, Option.bind_eq_some_iff, Option.some.injEq,
    Prod.mk.injEq] at hinputs
  obtain ⟨state, hstate, asleep, hasleep, away, haway, later, hlater, hstack, hcurrent,
    hother, hagain⟩ := hinputs
  have hrun := runsTo_of_runInputs Uninterrupted hstate
  have hne : away.current ≠ state.current := by rw [hother, hcurrent]; decide
  have heq : later.current = state.current := by rw [hagain, hcurrent]
  exact ⟨state, asleep, away, later, hrun, hasleep, hne, heq,
    no_early_wakeup hrun hstack hasleep (by decide)
      (runsTo_of_runInputs Uninterrupted haway) hne
      (runsTo_of_runInputs Uninterrupted hlater) heq⟩

end Flurry.Sched
