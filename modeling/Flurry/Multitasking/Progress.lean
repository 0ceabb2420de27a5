import Flurry.Multitasking.Runner
import Flurry.Multitasking.WakeTimes
import Mathlib.Data.Finset.Card
import Mathlib.Data.Prod.Lex

/-!
# The scheduler gives the processor back

`handle_next_event` loops while events are due, and inside the loop it may switch to
another thread, whose own loop goes on, and whose stack may hold any number of calls
that have to return.  Every switch in a handler uses up a due event and gives out a
quantum, which is not due before it is over.  So the scheduler returns to code outside
of it, provided that it does not itself take as long as a quantum.
-/

namespace Flurry.Sched

open ByteMemory Events

/-- Control points outside the scheduler: a thread's own code, and the loop of `kinit`. -/
def Frame.isCode : Frame → Bool
  | threadCode | kinit => true
  | _ => false

/-! ## What is left to do -/

/-- The event is due at the given time. -/
def State.isDue (state : State) (limit : ℕ) (event : EventPtr) : Bool :=
  (state.queue.alarm event).any fun alarm => alarm.time ≤ limit

/-- How many events are due at the given time. -/
def State.dueCount (state : State) (limit : ℕ) : ℕ :=
  ((Finset.range state.queue.created).filter fun event => state.isDue limit event = true).card

/-- What a control point on top of the stack has ahead besides the events that are due:
a switch counts once, and an event that it will enqueue twice. -/
def Frame.owes (limit : ℕ) (state : State) : Frame → ℕ
  | handleCallback _ | switchPick | switchTake _ | switchRearm | switchCurrent _ _
  | switchStatus _ _ | switchContext _ _ | sleepUnlock => 1
  | switchEnqueue => if (state.queue.events state.current).time ≤ limit then 3 else 1
  | sleepLock _ | sleepEnqueue _ => 3
  | _ => 0

/-- An upper bound for the switches to come. -/
def State.owed (state : State) (limit : ℕ) : ℕ :=
  2 * state.dueCount limit + (state.stack.head?.map (Frame.owes limit state)).getD 0

/-- The steps from a control point until its function returns, without loops and
switches. -/
def Frame.weight : Frame → ℕ
  | threadCode | kinit | panic => 0
  | interruptReturn _ | handleArm _ | wakeAdd _ | switchContext _ _ | rescheduleUnlock => 1
  | handleNext | wakeStatus _ | switchStatus _ _ | switchEnqueue | rescheduleEnqueue => 2
  | handleRemove _ | switchCurrent _ _ | switchRearm | rescheduleRequeue _ => 3
  | handleTest _ | switchTake _ | rescheduleLock _ => 4
  | handlePeek | switchPick => 5
  | handleEoi | sleepUnlock => 6
  | initThread | sleepEnqueue _ => 7
  | sleepLock _ => 8
  | handleCallback _ => 11

def State.weight (state : State) : ℕ := (state.stack.map Frame.weight).sum

section Due

variable {state after : State} {limit : ℕ} {event : EventPtr} {value : Option Alarm}

theorem isDue_update (halarm : after.queue.alarm = Function.update state.queue.alarm event value)
    (other : EventPtr) :
    after.isDue limit other =
      if other = event then value.any fun alarm => alarm.time ≤ limit
      else state.isDue limit other := by
  rw [State.isDue, halarm, Function.update_apply]
  split <;> rfl

theorem dueCount_congr (halarm : after.queue.alarm = state.queue.alarm)
    (hcreated : after.queue.created = state.queue.created) :
    after.dueCount limit = state.dueCount limit := by
  have hdue : after.isDue limit = state.isDue limit := by
    funext event
    rw [State.isDue, State.isDue, halarm]
  rw [State.dueCount, State.dueCount, hcreated, hdue]

/-- An alarm for later does not add to the events that are due. -/
theorem isDue_of_later
    (halarm : after.queue.alarm = Function.update state.queue.alarm event value)
    (hlater : (value.any fun alarm => alarm.time ≤ limit) = false) (other : EventPtr)
    (hdue : after.isDue limit other = true) : state.isDue limit other = true := by
  rw [isDue_update halarm] at hdue
  split at hdue
  · exact absurd (hlater.symm.trans hdue) Bool.false_ne_true
  · exact hdue

theorem dueCount_le_of_later
    (halarm : after.queue.alarm = Function.update state.queue.alarm event value)
    (hcreated : after.queue.created = state.queue.created)
    (hlater : (value.any fun alarm => alarm.time ≤ limit) = false) :
    after.dueCount limit ≤ state.dueCount limit := by
  rw [State.dueCount, State.dueCount, hcreated]
  exact Finset.card_le_card
    (Finset.monotone_filter_right _ fun other _ => isDue_of_later halarm hlater other)

/-- One alarm adds at most one event. -/
theorem dueCount_le_succ
    (halarm : after.queue.alarm = Function.update state.queue.alarm event value)
    (hcreated : after.queue.created = state.queue.created) :
    after.dueCount limit ≤ state.dueCount limit + 1 := by
  rw [State.dueCount, State.dueCount, hcreated]
  refine le_trans (Finset.card_le_card ?_) (Finset.card_insert_le event _)
  intro other hother
  rw [Finset.mem_filter, isDue_update halarm] at hother
  rw [Finset.mem_insert, Finset.mem_filter]
  by_cases heq : other = event
  · exact Or.inl heq
  · rw [if_neg heq] at hother
    exact Or.inr hother

/-- Taking a due event out. -/
theorem dueCount_lt_of_removed
    (halarm : after.queue.alarm = Function.update state.queue.alarm event none)
    (hcreated : after.queue.created = state.queue.created)
    (hevent : event < state.queue.created) (hdue : state.isDue limit event = true) :
    after.dueCount limit < state.dueCount limit := by
  rw [State.dueCount, State.dueCount, hcreated]
  apply Finset.card_lt_card
  rw [Finset.ssubset_iff_of_subset]
  · refine ⟨event, Finset.mem_filter.mpr ⟨Finset.mem_range.mpr hevent, hdue⟩, ?_⟩
    rw [Finset.mem_filter, isDue_update halarm, if_pos rfl]
    exact fun hmem => absurd hmem.2 Bool.false_ne_true
  · exact Finset.monotone_filter_right _ fun other _ => isDue_of_later halarm rfl other

end Due

/-! ## One step -/

/-- A quantum that is given out at the reading is not over at the given time. -/
structure State.InTime (state : State) (limit now : ℕ) : Prop where
  clock : state.clock ≤ limit
  quantum : limit < now + schedThreadQuantum
  word : now + schedThreadQuantum < 2 ^ 64

/-- A step replaces its control point by others.  In time it uses up part of what is owed,
or part of the weight of the control point. -/
def Progress (limit now : ℕ) (state after : State) (frame : Frame) (callers : List Frame) :
    Prop :=
  ∃ news : List Frame, after.stack = news ++ callers ∧
    (state.InTime limit now →
      after.owed limit < state.owed limit ∨
        after.owed limit ≤ state.owed limit ∧ (news.map Frame.weight).sum < frame.weight)

section Step

variable {state after : State} {frame new : Frame} {callers : List Frame} {limit now : ℕ}

theorem owed_of_cons (hstack : state.stack = frame :: callers) :
    state.owed limit = 2 * state.dueCount limit + frame.owes limit state := by
  rw [State.owed, hstack]
  rfl

theorem owed_of_return (hreturn : ∀ caller ∈ state.stack, caller.IsReturn = true) :
    state.owed limit = 2 * state.dueCount limit := by
  cases hstack : state.stack with
  | nil => rw [State.owed, hstack]; rfl
  | cons caller rest =>
      have hcaller := hreturn caller (hstack ▸ List.mem_cons_self)
      rw [owed_of_cons hstack]
      cases caller <;> first | rfl | exact Bool.noConfusion hcaller

/-- Going on in the same function. -/
theorem Progress.goto (hstack : state.stack = frame :: callers)
    (hafter : after.stack = new :: callers)
    (hdue : state.InTime limit now → after.dueCount limit ≤ state.dueCount limit)
    (howes : state.InTime limit now → new.owes limit after ≤ frame.owes limit state)
    (hweight : new.weight < frame.weight) : Progress limit now state after frame callers := by
  refine ⟨[new], hafter, fun htime => Or.inr ⟨?_, by simpa using hweight⟩⟩
  rw [owed_of_cons hafter, owed_of_cons hstack]
  exact Nat.add_le_add (Nat.mul_le_mul_left 2 (hdue htime)) (howes htime)

theorem Progress.goto_of_queue (hstack : state.stack = frame :: callers)
    (hafter : after.stack = new :: callers) (hqueue : after.queue = state.queue)
    (howes : new.owes limit after ≤ frame.owes limit state)
    (hweight : new.weight < frame.weight) : Progress limit now state after frame callers :=
  .goto hstack hafter (fun _ => (dueCount_congr (by rw [hqueue]) (by rw [hqueue])).le)
    (fun _ => howes) hweight

/-- Returning from a function. -/
theorem Progress.back (hstack : state.stack = frame :: callers)
    (hreturn : ∀ caller ∈ callers, caller.IsReturn = true) (hafter : after.stack = callers)
    (hdue : 2 * after.dueCount limit ≤ 2 * state.dueCount limit + frame.owes limit state)
    (hweight : 0 < frame.weight) : Progress limit now state after frame callers := by
  refine ⟨[], hafter, fun _ => Or.inr ⟨?_, hweight⟩⟩
  rw [owed_of_return (hafter.symm ▸ hreturn), owed_of_cons hstack]
  exact hdue

/-- The panic control point is never reached. -/
theorem State.Invariant.not_panic (hinv : state.Invariant) : state.stack ≠ [.panic] :=
  fun hstack => (hinv.control.expects hstack).1

/-- A quantum given out before the time is not due at it. -/
theorem State.InTime.quantum_later (htime : state.InTime limit now) :
    ¬wrap64 (now + schedThreadQuantum) ≤ limit := by
  rw [wrap64_of_lt htime.word]
  exact Nat.not_le.mpr htime.quantum

/-- The control points of `handle_next_event`. -/
theorem exec_progress_handle (hinv : state.Invariant) (hstack : state.stack = frame :: callers)
    (hframe : frame.handles = true)
    (hexec : frame.exec callers state now = some after) :
    Progress limit now state after frame callers := by
  obtain ⟨hexpects, hreturn⟩ := hinv.control.expects hstack
  have hnext := exec_invariant hinv hstack hexec
  cases frame with
  | handleEoi =>
      obtain rfl := Option.some.inj hexec
      exact .goto_of_queue hstack rfl rfl le_rfl (by decide)
  | handlePeek | handleNext =>
      simp only [Frame.exec] at hexec
      split at hexec <;> obtain rfl := Option.some.inj hexec
      all_goals first
        | exact absurd rfl hnext.not_panic
        | exact .goto_of_queue hstack rfl rfl le_rfl (by simp [Frame.weight])
        | exact .back hstack hreturn rfl le_rfl (by simp [Frame.weight])
  | handleTest event =>
      obtain ⟨-, ⟨-, rfl⟩ | ⟨-, rfl⟩⟩ := exec_handleTest_iff.mp hexec <;>
        exact .goto_of_queue hstack rfl rfl le_rfl (by simp [Frame.weight])
  | handleRemove event =>
      obtain ⟨harranged, alarm, halarm, hdue⟩ := hexpects
      obtain ⟨schedule, hkeeps⟩ := hinv.sound.queue
      obtain ⟨queue, rfl, -, hcreated, halarms, -⟩ :=
        handleRemove_spec hinv hstack hexec hkeeps
      have hevent : event < state.queue.created := by
        rcases harranged.alarm_cases halarm with ⟨rfl, -⟩ | ⟨-, hordinary, -⟩
        · exact harranged.role_self.1
        · exact hordinary.created
      refine ⟨[.handleCallback event], rfl, fun htime => Or.inl ?_⟩
      have hless := @dueCount_lt_of_removed state { state with
        queue := queue, stack := .handleCallback event :: callers } limit event halarms
        hcreated hevent (by
          rw [State.isDue, halarm, Option.any_some]
          exact decide_eq_true (hdue.trans htime.clock))
      rw [owed_of_cons rfl, owed_of_cons hstack]
      simp only [Frame.owes]
      omega
  | handleCallback event =>
      simp only [Frame.exec] at hexec
      split at hexec <;> obtain rfl := Option.some.inj hexec
      · refine ⟨[.switchPick, .handlePeek], rfl, fun _ => Or.inr ⟨?_, by simp [Frame.weight]⟩⟩
        rw [owed_of_cons rfl, owed_of_cons hstack]
        rfl
      · refine ⟨[.wakeStatus _, .handlePeek], rfl, fun _ => Or.inl ?_⟩
        rw [owed_of_cons rfl, owed_of_cons hstack]
        exact Nat.lt_succ_self _
      · exact absurd rfl hnext.not_panic
  | handleArm next =>
      obtain ⟨-, rfl⟩ := exec_handleArm_iff.mp hexec
      exact .back hstack hreturn rfl le_rfl (by simp [Frame.weight])
  | _ => simp [Frame.handles] at hframe

/-- The control points of `switch_thread` that use the ready list or the event queue. -/
theorem exec_progress_switch (hinv : state.Invariant) (hstack : state.stack = frame :: callers)
    (hframe : (∃ head, frame = .switchTake head) ∨ frame = .switchRearm ∨
      frame = .switchEnqueue)
    (hexec : frame.exec callers state now = some after) :
    Progress limit now state after frame callers := by
  obtain ⟨hexpects, hreturn⟩ := hinv.control.expects hstack
  rcases hframe with ⟨head, rfl⟩ | rfl | rfl
  · obtain rfl := exec_switchTake_iff.mp hexec
    split <;> exact .goto_of_queue hstack rfl rfl le_rfl (by simp [Frame.weight])
  · have hrole := hexpects.1.role_self
    obtain ⟨-, hafter⟩ := exec_switchRearm_iff.mp hexec
    have hqueue : after.queue = state.queue.modify state.current (State.alarmFields
        (wrap64 (now + schedThreadQuantum)) .switchThread none "switch same") :=
      hafter ▸ rfl
    obtain ⟨schedule, hkeeps⟩ := hinv.sound.queue
    have halarms := (@EventQueue.Keeps.modify state.queue schedule state.current hkeeps
      hrole.2.2.2 (State.alarmFields (wrap64 (now + schedThreadQuantum)) .switchThread none
        "switch same") alarmFields_links).2
    have hdue := @dueCount_congr state after limit (hqueue ▸ halarms) (hqueue ▸ rfl)
    have hrearmed : after.stack = .switchEnqueue :: callers := hafter ▸ rfl
    refine .goto hstack hrearmed (fun _ => hdue.le) (fun htime => ?_) (by simp [Frame.weight])
    rw [← hafter]
    simp [Frame.owes, State.setEvent, State.alarmFields, htime.quantum_later]
  · obtain ⟨schedule, hkeeps⟩ := hinv.sound.queue
    have hcreated := (exec_kept hinv hstack rfl hexec).created
    obtain ⟨enqueued, rfl, -, halarms⟩ := switchEnqueue_spec hinv hstack hexec hkeeps
    refine .back hstack hreturn rfl ?_ (by simp [Frame.weight])
    simp only [Frame.owes]
    split
    · have hmore := @dueCount_le_succ state { state with queue := enqueued, stack := callers }
        limit _ _ halarms hcreated
      omega
    · next hlater =>
      have hless := @dueCount_le_of_later state
        { state with queue := enqueued, stack := callers } limit _ _ halarms hcreated
        (decide_eq_false hlater)
      omega

/-- Every control point but `switch_context` and those outside the scheduler. -/
theorem exec_progress (hinv : state.Invariant) (hstack : state.stack = frame :: callers)
    (hcode : frame.isCode = false) (hframe : frame.switches = false)
    (hexec : frame.exec callers state now = some after) :
    Progress limit now state after frame callers := by
  obtain ⟨hexpects, hreturn⟩ := hinv.control.expects hstack
  cases frame with
  | threadCode | kinit => exact Bool.noConfusion hcode
  | panic => exact hexpects.elim
  | switchContext this next => exact Bool.noConfusion hframe
  | interruptReturn _ | rescheduleUnlock | wakeAdd _ =>
      obtain rfl := Option.some.inj hexec
      exact .back hstack hreturn rfl le_rfl (by simp [Frame.weight])
  | initThread | switchPick | switchCurrent _ _ | switchStatus _ _ | rescheduleLock _
  | sleepLock _ | sleepUnlock =>
      obtain rfl := Option.some.inj hexec
      exact .goto_of_queue hstack rfl rfl le_rfl (by simp [Frame.weight])
  | handleEoi | handlePeek | handleTest _ | handleRemove _ | handleCallback _ | handleNext
  | handleArm _ =>
      exact exec_progress_handle hinv hstack rfl hexec
  | switchTake _ | switchRearm | switchEnqueue =>
      exact exec_progress_switch hinv hstack (by simp) hexec
  | rescheduleRequeue thread =>
      obtain rfl := Option.some.inj hexec
      exact .goto_of_queue hstack rfl (@created_requeue state thread).1 le_rfl
        (by simp [Frame.weight])
  | wakeStatus thread =>
      have hnext := exec_invariant hinv hstack hexec
      simp only [Frame.exec] at hexec
      split at hexec <;> obtain rfl := Option.some.inj hexec
      · exact .goto_of_queue hstack rfl rfl le_rfl (by simp [Frame.weight])
      · exact absurd rfl hnext.not_panic
  | rescheduleEnqueue =>
      obtain ⟨schedule, hkeeps⟩ := hinv.sound.queue
      have hcreated := (exec_kept hinv hstack rfl hexec).created
      obtain ⟨enqueued, rfl, -, halarms⟩ := rescheduleEnqueue_spec hinv hstack hexec hkeeps
      refine .goto hstack rfl (fun htime => dueCount_le_of_later halarms hcreated ?_)
        (fun _ => le_rfl) (by simp [Frame.weight])
      rw [Option.any_some, decide_eq_false htime.quantum_later]
  | sleepEnqueue time =>
      obtain ⟨schedule, hkeeps⟩ := hinv.sound.queue
      obtain ⟨enqueued, hafter, -, hcreated, halarms⟩ :=
        sleepEnqueue_eq hinv hstack hexec hkeeps
      have hqueue : after.queue = enqueued := hafter ▸ rfl
      have hsleeps : after.stack = .sleepUnlock :: callers := hafter ▸ rfl
      have hmore := @dueCount_le_succ state after limit _ _ (hqueue ▸ halarms)
        (hqueue ▸ hcreated)
      refine ⟨[.sleepUnlock], hsleeps, fun _ => Or.inr ⟨?_, by simp [Frame.weight]⟩⟩
      rw [owed_of_cons hsleeps, owed_of_cons hstack]
      simp only [Frame.owes]
      omega

/-- No control point is stuck while the clock is fine. -/
theorem exists_exec (hclock : state.clock ≤ now) (hword : now < 2 ^ 64) :
    ∃ after, frame.exec callers state now = some after := by
  have hread : state.tscReadNs now = some { state with clock := now } :=
    tscReadNs_eq_some.mpr ⟨⟨hclock, hword⟩, rfl⟩
  cases frame with
  | handleTest event | handleArm next | switchRearm | rescheduleEnqueue | sleepEnqueue time =>
      simp only [Frame.exec, hread, Option.bind_eq_bind, Option.bind_some]
      first
        | exact ⟨_, rfl⟩
        | split <;> exact ⟨_, rfl⟩
  | handlePeek | handleRemove _ | handleCallback _ | handleNext | wakeStatus _ =>
      simp only [Frame.exec]
      split <;> exact ⟨_, rfl⟩
  | switchTake head => exact ⟨_, exec_switchTake_iff.mpr rfl⟩
  | _ => exact ⟨_, rfl⟩

/-- The clock shows no more than the last reading. -/
theorem exec_clock_le (hclock : state.clock ≤ now)
    (hexec : frame.exec callers state now = some after) : after.clock ≤ now := by
  cases frame with
  | handleTest event =>
      obtain ⟨-, ⟨-, rfl⟩ | ⟨-, rfl⟩⟩ := exec_handleTest_iff.mp hexec <;> exact le_rfl
  | handleArm next =>
      obtain ⟨-, rfl⟩ := exec_handleArm_iff.mp hexec
      exact le_rfl
  | switchRearm =>
      obtain ⟨-, rfl⟩ := exec_switchRearm_iff.mp hexec
      exact le_rfl
  | switchEnqueue =>
      obtain rfl := Option.some.inj hexec
      exact (@enqueueEvent_current_clock state callers).2.le.trans hclock
  | rescheduleEnqueue =>
      obtain ⟨-, rfl⟩ := exec_rescheduleEnqueue_iff.mp hexec
      exact (enqueueEvent_current_clock _).2.le
  | sleepEnqueue time =>
      obtain ⟨-, rfl⟩ := exec_sleepEnqueue_iff.mp hexec
      exact (enqueueEvent_current_clock _).2.le
  | rescheduleRequeue thread =>
      obtain rfl := Option.some.inj hexec
      rcases requeue_cases state thread with heq | heq <;> rw [heq] <;> exact hclock
  | switchTake head =>
      obtain rfl := exec_switchTake_iff.mp hexec
      exact hclock
  | handlePeek | handleNext | handleRemove _ | handleCallback _ | wakeStatus _ =>
      simp only [Frame.exec] at hexec
      split at hexec <;> obtain rfl := Option.some.inj hexec <;> exact hclock
  | _ =>
      obtain rfl := Option.some.inj hexec
      exact hclock

end Step

/-! ## Runs -/

/-- Every stack has code outside the scheduler at its bottom. -/
structure State.Grounded (state : State) : Prop where
  stack : ∃ frame ∈ state.stack, frame.isCode = true
  saved : ∀ thread, ∃ frame ∈ (state.threads thread).saved.callers, frame.isCode = true

section Runs

variable {state after : State} {frame : Frame} {callers : List Frame} {limit now : ℕ}

theorem SavedStack.mem_frames (saved : SavedStack) (old : ThreadPtr)
    (hframe : frame ∈ saved.callers) : frame ∈ saved.frames old := by
  unfold SavedStack.frames
  cases saved.resume with
  | switchThread => exact List.mem_cons_of_mem _ hframe
  | initThread => exact List.mem_cons_of_mem _ (List.mem_cons_of_mem _ hframe)

/-- What is below a control point of the scheduler stays on the stack or is put away. -/
theorem exec_grounded (hinv : state.Invariant) (hground : state.Grounded)
    (hstack : state.stack = frame :: callers)
    (hexec : frame.exec callers state now = some after) : after.Grounded := by
  by_cases hcode : frame.isCode = true
  · cases frame <;> first
      | exact Option.some.inj hexec ▸ hground
      | exact Bool.noConfusion hcode
  · obtain ⟨below, hmem, hbelow⟩ := hground.stack
    have hcallers : below ∈ callers := by
      rw [hstack] at hmem
      rcases List.mem_cons.mp hmem with rfl | hmem
      · exact absurd hbelow hcode
      · exact hmem
    by_cases hswitch : frame.switches = true
    · cases frame with
      | switchContext this next =>
          obtain rfl := Option.some.inj hexec
          refine ⟨?_, fun thread => ?_⟩
          · obtain ⟨resumed, hresumed, hisCode⟩ := hground.saved next
            exact ⟨resumed, SavedStack.mem_frames _ this hresumed, hisCode⟩
          · by_cases hthread : thread = this
            · refine ⟨below, ?_, hbelow⟩
              simpa [State.switchContext, hthread] using hcallers
            · simpa [State.switchContext, Function.update_of_ne hthread] using
                hground.saved thread
      | _ => exact Bool.noConfusion hswitch
    · obtain ⟨news, hnews, -⟩ := @exec_progress state after frame callers 0 now hinv hstack
        (Bool.eq_false_iff.mpr hcode) (Bool.eq_false_iff.mpr hswitch) hexec
      have hsaved := (exec_kept hinv hstack (Bool.eq_false_iff.mpr hswitch) hexec).saved
      refine ⟨⟨below, ?_, hbelow⟩, fun thread => ?_⟩
      · rw [hnews]
        exact List.mem_append_right news hcallers
      · rw [hsaved]
        exact hground.saved thread

theorem step_grounded {input : Input} (hinv : state.Invariant) (hground : state.Grounded)
    (hstep : state.step input = some after) : after.Grounded := by
  obtain ⟨below, hmem, hbelow⟩ := hground.stack
  cases stepped_of_step hstep with
  | run hstack hexec => exact exec_grounded hinv hground hstack hexec
  | sleep _ _ => exact ⟨⟨below, List.mem_cons_of_mem _ hmem, hbelow⟩, hground.saved⟩
  | interrupt _ =>
      exact ⟨⟨below, List.mem_cons_of_mem _ (List.mem_cons_of_mem _ hmem), hbelow⟩,
        hground.saved⟩

theorem schedInit_grounded (count calibration : ℕ) :
    (State.schedInit count calibration).Grounded := by
  have hcreated := created_iterate count calibration
  have hstack : (State.schedInit count calibration).stack = [.handleEoi, .kinit] ∨
      (State.schedInit count calibration).stack = [.panic] := by
    simp only [State.schedInit, State.enqueueEvent]
    split
    · exact Or.inr rfl
    · exact Or.inl hcreated.stack
  have hkinit := hstack.resolve_right (schedInit_invariant count calibration).not_panic
  refine ⟨⟨.kinit, by simp [hkinit], rfl⟩, fun thread => ⟨.threadCode, ?_, rfl⟩⟩
  rw [(schedInit_kept count calibration).2.2.2 thread]
  exact List.mem_singleton_self _

/-- What is left to do, the switches before the rest. -/
def State.work (state : State) (limit : ℕ) : ℕ ×ₗ ℕ := toLex (state.owed limit, state.weight)

theorem exec_work (hinv : state.Invariant) (hstack : state.stack = frame :: callers)
    (hcode : frame.isCode = false) (htime : state.InTime limit now)
    (hexec : frame.exec callers state now = some after) :
    after.work limit < state.work limit := by
  rw [State.work, State.work, Prod.Lex.toLex_lt_toLex]
  by_cases hswitch : frame.switches = true
  · cases frame with
    | switchContext this next =>
        -- the other stack may be of any size
        obtain rfl := Option.some.inj hexec
        obtain ⟨resumed, hframes, -⟩ := (state.threads next).saved.frames_eq this
        left
        dsimp only
        rw [owed_of_cons (show (state.switchContext callers this next).stack = _ from hframes),
          owed_of_cons hstack]
        exact Nat.lt_succ_self _
    | _ => exact Bool.noConfusion hswitch
  · obtain ⟨news, hnews, hprogress⟩ := @exec_progress state after frame callers limit now hinv
      hstack hcode (Bool.eq_false_iff.mpr hswitch) hexec
    rcases hprogress htime with howed | ⟨howed, hweight⟩
    · exact Or.inl howed
    · rcases howed.lt_or_eq with hless | hsame
      · exact Or.inl hless
      · refine Or.inr ⟨hsame, ?_⟩
        simp only [State.weight, hnews, hstack, List.map_append, List.sum_append, List.map_cons,
          List.sum_cons]
        omega

/-- By induction on the work, for any readings. -/
theorem reaches_code (hinv : state.Invariant) (hground : state.Grounded) {readings : ℕ → ℕ}
    (hmono : Monotone readings) (hfirst : state.clock ≤ readings 0)
    (hlimit : ∀ index, readings index ≤ limit)
    (hquantum : limit < state.clock + schedThreadQuantum)
    (hword : limit + schedThreadQuantum < 2 ^ 64) :
    ∃ count after, state.runInputs Uninterrupted
        ((List.range count).map fun index => .run (readings index)) = some after ∧
      ∃ frame callers, after.stack = frame :: callers ∧ frame.isCode = true := by
  induction hwork : state.work limit using WellFoundedLT.induction generalizing state readings with
  | ind work ih =>
      obtain ⟨below, hmem, -⟩ := hground.stack
      obtain ⟨frame, callers, hstack⟩ := List.exists_cons_of_ne_nil (List.ne_nil_of_mem hmem)
      by_cases hcode : frame.isCode = true
      · exact ⟨0, state, rfl, frame, callers, hstack, hcode⟩
      · have htime : state.InTime limit (readings 0) :=
          ⟨hfirst.trans (hlimit 0), by omega, (Nat.add_le_add_right (hlimit 0) _).trans_lt hword⟩
        obtain ⟨next, hexec⟩ := @exists_exec state frame callers (readings 0) hfirst
          (lt_of_le_of_lt (Nat.le_add_right _ _) htime.word)
        have hless := exec_work hinv hstack (Bool.eq_false_iff.mpr hcode) htime hexec
        have hclock := (exec_current_clock hexec).1
        obtain ⟨count, after, hrun, hafter⟩ := ih (next.work limit) (hwork ▸ hless)
          (exec_invariant hinv hstack hexec) (exec_grounded hinv hground hstack hexec)
          (fun first second hle => hmono (Nat.succ_le_succ hle))
          ((exec_clock_le hfirst hexec).trans (hmono (Nat.le_succ 0)))
          (fun index => hlimit (index + 1)) (by omega) rfl
        refine ⟨count + 1, after, ?_, hafter⟩
        rw [List.range_succ_eq_map, List.map_cons, List.map_map, runInputs_cons]
        refine ⟨next, nofun, ?_, hrun⟩
        rw [State.step, hstack]
        exact hexec

end Runs

end Flurry.Sched
