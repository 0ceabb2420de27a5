import Flurry.Multitasking.InterruptFlag

/-!
# Whose stack is in use

`switch_thread` makes another thread current before it calls `switch_context`, so the
thread whose stack is in use is not always the current one.  Every step other than
`switch_context` keeps it, and keeps the stacks that were put away.
-/

namespace Flurry.Sched

open ByteMemory Events

/-! ## The number of threads -/

theorem created_eventRemove {queue after : EventQueue} {event : Option EventPtr}
    (hremove : eventRemove queue event = some after) : after.created = queue.created := by
  unfold eventRemove at hremove
  split at hremove
  · rw [Option.some.inj hremove]
  · rw [Option.some.inj hremove]
  · rw [bstDelete_eq, Option.bind_eq_bind, Option.bind_map, Option.bind_eq_some_iff] at hremove
    obtain ⟨store, -, hafter⟩ := hremove
    rw [← Option.some.inj hafter]
    rfl

theorem created_eventBstInsert {queue after : EventQueue} {event : EventPtr}
    (hinsert : eventBstInsert queue event = some after) : after.created = queue.created := by
  rw [eventBstInsert_eq, Option.map_eq_some_iff] at hinsert
  obtain ⟨store, -, rfl⟩ := hinsert
  rfl

theorem created_eventEnqueue {queue after : EventQueue} {event : EventPtr}
    (henqueue : eventEnqueue queue (some event) = some after) :
    after.created = queue.created := by
  simp only [eventEnqueue, Option.bind_eq_bind, Option.bind_some] at henqueue
  split at henqueue
  · obtain ⟨removed, hremove, henqueue⟩ := Option.bind_eq_some_iff.mp henqueue
    obtain ⟨inserted, hinsert, hafter⟩ := Option.bind_eq_some_iff.mp henqueue
    have hinserted := created_eventBstInsert hinsert
    rw [← Option.some.inj hafter, ← created_eventRemove hremove]
    exact hinserted
  · obtain ⟨inserted, hinsert, hafter⟩ := Option.bind_eq_some_iff.mp henqueue
    have hinserted := created_eventBstInsert hinsert
    rw [← Option.some.inj hafter]
    exact hinserted

/-! ## What a step other than a switch keeps -/

/-- `switch_thread` stores `current_thread` before it gives the processor away. -/
def Frame.leaving : Frame → Option ThreadPtr
  | switchStatus this _ | switchContext this _ => some this
  | _ => none

/-- The call of `switch_context`. -/
def Frame.switches : Frame → Bool
  | switchContext _ _ => true
  | _ => false

/-- The thread whose stack is in use. -/
def State.runner (state : State) : ThreadPtr :=
  (state.stack.head?.bind Frame.leaving).getD state.current

/-- A step that does not switch. -/
structure Kept (state after : State) : Prop where
  runner : after.runner = state.runner
  created : after.queue.created = state.queue.created
  saved : ∀ thread, (after.threads thread).saved = (state.threads thread).saved

section Kept

variable {state after : State} {frame next : Frame} {callers : List Frame} {now : ℕ}

theorem runner_of_cons (hstack : state.stack = frame :: callers)
    (hframe : frame.leaving = none) : state.runner = state.current := by
  rw [State.runner, hstack, List.head?_cons, Option.bind_some, hframe]
  rfl

theorem runner_of_return (hcallers : ∀ caller ∈ state.stack, caller.IsReturn = true) :
    state.runner = state.current := by
  cases hstack : state.stack with
  | nil => rw [State.runner, hstack]; rfl
  | cons frame callers =>
      have hframe := hcallers frame (by simp [hstack])
      apply runner_of_cons hstack
      cases frame <;> first | rfl | simp [Frame.IsReturn] at hframe

/-- One control point takes the place of another. -/
theorem Kept.goto (hstack : state.stack = frame :: callers) (hframe : frame.leaving = none)
    {rest : List Frame} (hafter : after.stack = next :: rest) (hnext : next.leaving = none)
    (hcurrent : after.current = state.current)
    (hcreated : after.queue.created = state.queue.created)
    (hsaved : ∀ thread, (after.threads thread).saved = (state.threads thread).saved) :
    Kept state after where
  runner := by rw [runner_of_cons hafter hnext, runner_of_cons hstack hframe, hcurrent]
  created := hcreated
  saved := hsaved

/-- A call returns. -/
theorem Kept.back (hstack : state.stack = frame :: callers) (hframe : frame.leaving = none)
    (hcallers : ∀ caller ∈ callers, caller.IsReturn = true) (hafter : after.stack = callers)
    (hcurrent : after.current = state.current)
    (hcreated : after.queue.created = state.queue.created)
    (hsaved : ∀ thread, (after.threads thread).saved = (state.threads thread).saved) :
    Kept state after where
  runner := by
    rw [runner_of_return (hafter.symm ▸ hcallers), runner_of_cons hstack hframe, hcurrent]
  created := hcreated
  saved := hsaved

/-- `event_enqueue` as the last statement of a control point. -/
theorem enqueueEvent_created (state : State) (frames : List Frame) :
    (state.enqueueEvent frames = state.kpanic) ∨
      ∃ queue, queue.created = state.queue.created ∧
        state.enqueueEvent frames = { state with queue := queue, stack := frames } := by
  unfold State.enqueueEvent
  split
  · exact Or.inl rfl
  · rename_i queue henqueue
    exact Or.inr ⟨queue, created_eventEnqueue henqueue, rfl⟩

theorem created_requeue (thread : ThreadPtr) :
    (state.requeue thread).queue = state.queue ∧
      (state.requeue thread).current = state.current := by
  rcases requeue_cases state thread with heq | heq <;> rw [heq] <;> exact ⟨rfl, rfl⟩

/-- The control points of `handle_next_event` and `thread_wake`. -/
theorem exec_kept_handle (hcallers : ∀ caller ∈ callers, caller.IsReturn = true)
    (hstack : state.stack = frame :: callers)
    (hframe : frame.handles = true ∨ ∃ thread, frame = .wakeStatus thread)
    (hexec : frame.exec callers state now = some after) : Kept state after := by
  cases frame with
  | handleEoi =>
      obtain rfl := Option.some.inj hexec
      exact .goto hstack rfl rfl rfl rfl rfl fun _ => rfl
  | handlePeek | handleNext =>
      simp only [Frame.exec] at hexec
      split at hexec <;> obtain rfl := Option.some.inj hexec
      all_goals first
        | exact .goto hstack rfl rfl rfl rfl rfl fun _ => rfl
        | exact .back hstack rfl hcallers rfl rfl rfl fun _ => rfl
  | handleTest event =>
      obtain ⟨-, ⟨-, rfl⟩ | ⟨-, rfl⟩⟩ := exec_handleTest_iff.mp hexec <;>
        exact .goto hstack rfl rfl rfl rfl rfl fun _ => rfl
  | handleRemove event =>
      simp only [Frame.exec] at hexec
      split at hexec <;> obtain rfl := Option.some.inj hexec
      · exact .goto hstack rfl rfl rfl rfl rfl fun _ => rfl
      · rename_i queue hremove
        exact .goto hstack rfl rfl rfl rfl (created_eventRemove hremove) fun _ => rfl
  | handleCallback event =>
      simp only [Frame.exec] at hexec
      split at hexec <;> obtain rfl := Option.some.inj hexec <;>
        exact .goto hstack rfl rfl rfl rfl rfl fun _ => rfl
  | handleArm next =>
      obtain ⟨-, rfl⟩ := exec_handleArm_iff.mp hexec
      exact .back hstack rfl hcallers rfl rfl rfl fun _ => rfl
  | wakeStatus thread =>
      simp only [Frame.exec] at hexec
      split at hexec <;> obtain rfl := Option.some.inj hexec
      · exact .goto hstack rfl rfl rfl rfl rfl (saved_setStatus thread .ready)
      · exact .goto hstack rfl rfl rfl rfl rfl fun _ => rfl
  | _ => simp [Frame.handles] at hframe

/-- The control points of `switch_thread` up to the call of `switch_context`. -/
theorem exec_kept_switch (hinv : state.Invariant) (hstack : state.stack = frame :: callers)
    (hframe : frame = .switchPick ∨ (∃ head, frame = .switchTake head) ∨
      frame = .switchRearm ∨ frame = .switchEnqueue ∨
        ∃ this next, frame = .switchCurrent this next ∨ frame = .switchStatus this next)
    (hexec : frame.exec callers state now = some after) : Kept state after := by
  obtain ⟨hexpects, hcallers⟩ := hinv.control.expects hstack
  rcases hframe with rfl | ⟨head, rfl⟩ | rfl | rfl | ⟨this, next, rfl | rfl⟩
  · obtain rfl := Option.some.inj hexec
    exact .goto hstack rfl rfl rfl rfl rfl fun _ => rfl
  · obtain rfl := exec_switchTake_iff.mp hexec
    split <;> exact .goto hstack rfl rfl rfl rfl rfl fun _ => rfl
  · obtain ⟨-, rfl⟩ := exec_switchRearm_iff.mp hexec
    exact .goto hstack rfl rfl rfl rfl rfl fun _ => rfl
  · obtain rfl := Option.some.inj hexec
    rcases enqueueEvent_created state callers with heq | ⟨queue, hcreated, heq⟩ <;> rw [heq]
    · exact .goto hstack rfl rfl rfl rfl rfl fun _ => rfl
    · exact .back hstack rfl hcallers rfl rfl hcreated fun _ => rfl
  · -- the processor is still that of the thread that was current
    obtain rfl := Option.some.inj hexec
    refine ⟨?_, rfl, fun _ => rfl⟩
    rw [runner_of_cons hstack rfl]
    exact hexpects.1
  · obtain rfl := Option.some.inj hexec
    refine ⟨?_, rfl, saved_setStatus state.current .running⟩
    rw [State.runner, State.runner, hstack]
    rfl

/-- Only `switch_context` changes stacks. -/
theorem exec_kept (hinv : state.Invariant) (hstack : state.stack = frame :: callers)
    (hframe : frame.switches = false)
    (hexec : frame.exec callers state now = some after) : Kept state after := by
  have hcallers := (hinv.control.expects hstack).2
  cases frame with
  | threadCode | kinit | panic =>
      obtain rfl := Option.some.inj hexec
      exact ⟨rfl, rfl, fun _ => rfl⟩
  | interruptReturn flag | rescheduleUnlock | wakeAdd thread =>
      obtain rfl := Option.some.inj hexec
      exact .back hstack rfl hcallers rfl rfl rfl fun _ => rfl
  | initThread | rescheduleLock thread | sleepLock time | sleepUnlock =>
      obtain rfl := Option.some.inj hexec
      exact .goto hstack rfl rfl rfl rfl rfl fun _ => rfl
  | handleEoi | handlePeek | handleTest event | handleRemove event | handleCallback event
  | handleNext | handleArm event =>
      exact exec_kept_handle hcallers hstack (Or.inl rfl) hexec
  | wakeStatus thread => exact exec_kept_handle hcallers hstack (Or.inr ⟨thread, rfl⟩) hexec
  | switchPick | switchTake head | switchRearm | switchEnqueue | switchCurrent this next
  | switchStatus this next => exact exec_kept_switch hinv hstack (by simp) hexec
  | switchContext this next => simp [Frame.switches] at hframe
  | rescheduleRequeue thread =>
      obtain rfl := Option.some.inj hexec
      obtain ⟨hqueue, hcurrent⟩ := @created_requeue state thread
      exact .goto hstack rfl rfl rfl hcurrent (by rw [hqueue])
        fun other => (saved_requeue thread other).1
  | rescheduleEnqueue =>
      obtain ⟨-, rfl⟩ := exec_rescheduleEnqueue_iff.mp hexec
      rcases enqueueEvent_created (State.setEvent { state with clock := now }
        (wrap64 (now + schedThreadQuantum)) .switchThread none "switch")
        (.rescheduleUnlock :: callers) with heq | ⟨queue, hcreated, heq⟩ <;> rw [heq]
      · exact .goto hstack rfl rfl rfl rfl rfl fun _ => rfl
      · exact .goto hstack rfl rfl rfl rfl hcreated fun _ => rfl
  | sleepEnqueue time =>
      obtain ⟨-, rfl⟩ := exec_sleepEnqueue_iff.mp hexec
      have hsaved := @saved_setStatus { state with clock := now } state.current .sleeping
      rcases enqueueEvent_created (State.setEvent (State.setStatus
        { state with clock := now } state.current .sleeping) (wrap64 (now + time)) .threadWake
          (some state.current) "wake") (.sleepUnlock :: callers) with
        heq | ⟨queue, hcreated, heq⟩ <;> rw [heq]
      · exact .goto hstack rfl rfl rfl rfl rfl hsaved
      · exact .goto hstack rfl rfl rfl rfl hcreated hsaved

/-- Every step of a run keeps the stacks that were put away until `switch_context`. -/
theorem step_kept {input : Input} (hinv : state.Invariant)
    (hallowed : Uninterrupted state input)
    (hhead : ∀ frame ∈ state.stack.head?, frame.switches = false)
    (hstep : state.step input = some after) : Kept state after := by
  cases stepped_of_step hstep with
  | run hstack hexec => exact exec_kept hinv hstack (hhead _ (by rw [hstack]; rfl)) hexec
  | sleep hstack hidle => exact .goto hstack rfl rfl rfl rfl rfl fun _ => rfl
  | interrupt _ =>
      obtain ⟨callers, hstack⟩ := List.head?_eq_some_iff.mp (hallowed rfl)
      exact .goto hstack rfl rfl rfl rfl rfl fun _ => rfl

/-- The scheduler creates no threads. -/
theorem step_created {input : Input} (hinv : state.Invariant)
    (hstep : state.step input = some after) :
    after.queue.created = state.queue.created := by
  cases stepped_of_step hstep with
  | @run now frame callers _ hstack hexec =>
      cases hframe : frame.switches with
      | false => exact (exec_kept hinv hstack hframe hexec).created
      | true =>
          cases frame <;> first
            | exact Bool.noConfusion hframe
            | exact Option.some.inj hexec ▸ rfl
  | sleep _ _ => rfl
  | interrupt _ => rfl

end Kept

/-! ## After `sched_init` -/

theorem interruptFlag_iterate (count : ℕ) (state : State) :
    (State.createReady^[count] state).interruptFlag = state.interruptFlag := by
  induction count with
  | zero => rfl
  | succ count ih =>
      rw [Function.iterate_succ_apply']
      exact ih

theorem schedInit_kept (count calibration : ℕ) :
    (State.schedInit count calibration).runner = State.initThread ∧
      (State.schedInit count calibration).queue.created = count + 2 ∧
      (State.schedInit count calibration).interruptFlag = true ∧
      ∀ thread, ((State.schedInit count calibration).threads thread).saved =
        SavedStack.initial := by
  have hcreated := created_iterate count calibration
  have hflag := interruptFlag_iterate count (State.schedInitIdle calibration)
  have hcontrol := (schedInit_invariant count calibration).control
  unfold State.schedInit at hcontrol ⊢
  generalize State.createReady^[count] (State.schedInitIdle calibration) = state
    at hcreated hflag hcontrol ⊢
  dsimp only at hcontrol ⊢
  rcases enqueueEvent_created { state with
      current := State.initThread
      queue := state.queue.modify State.initThread fun fields =>
        { fields with callback := some .switchThread } } state.stack with
    heq | ⟨queue, hqueue, heq⟩
  · rw [heq] at hcontrol
    exact hcontrol.1.elim
  · rw [heq]
    exact ⟨runner_of_cons hcreated.stack rfl, hqueue.trans hcreated.created, hflag,
      hcreated.saved⟩

end Flurry.Sched
