import Flurry.Multitasking.ThreadPlacement

/-!
# The interrupt flag

The scheduler's data is meant to be changed with interrupts disabled.  Inside a pair
of `lock_scheduler` and `unlock_scheduler` this is so, but `unlock_scheduler` sets
the flag whenever the counter is back at zero, also when the interrupt gate had
cleared it.  A thread that is resumed in the middle of `handle_next_event` therefore
goes on there with the flag set, and `thread_sleep` calls `switch_thread` with it.

Every step but three keeps the flag clear where it has to be clear.
-/

namespace Flurry.Sched

open ByteMemory Events

/-- Control points that change `ready_threads`, the event queue, the current thread
or the heap.  The change that `thread_list_get_next` makes begins with its look at the
head. -/
def Frame.modifies : Frame → Bool
  | handleRemove _ | wakeStatus _ | wakeAdd _ | switchPick | switchTake _ | switchRearm
  | switchEnqueue | switchCurrent _ _ | switchStatus _ _ | rescheduleRequeue _
  | rescheduleEnqueue | sleepEnqueue _ => true
  | _ => false

/-- Control points of `handle_next_event`. -/
def Frame.handles : Frame → Bool
  | handleEoi | handlePeek | handleTest _ | handleRemove _ | handleCallback _ | handleNext
  | handleArm _ => true
  | _ => false

/-- Once `sched_init` has given up the processor the data changes with the flag
clear only, and no stack is in `handle_next_event` twice. -/
def State.Guarded (state : State) : Prop :=
  (.kinit ∉ state.stack → ∀ frame ∈ state.stack.head?, frame.modifies = true →
    state.interruptFlag = false) ∧
  state.stack.countP Frame.handles ≤ 1

instance (state : State) : Decidable state.Guarded :=
  inferInstanceAs (Decidable ((_ → ∀ frame ∈ state.stack.head?, _) ∧ _))

/-- The three exceptions: `thread_sleep` leaves its critical section,
`handle_next_event` finds an event due with the flag set, and an interrupt arrives
inside `handle_next_event`. -/
def staysGuarded (state : State) : List Frame → Input → Bool
  | .sleepUnlock :: _, .run _ => false
  | .handleTest event :: callers, .run now =>
      state.interruptFlag = false ∨ .kinit ∈ callers ∨
        now < (state.queue.events event).time
  | stack, .interrupt => stack.countP Frame.handles = 0
  | _, _ => true

/-- The steps other than the exceptions. -/
def StaysGuarded (state : State) (input : Input) : Prop :=
  staysGuarded state state.stack input = true

instance (state : State) (input : Input) : Decidable (StaysGuarded state input) :=
  inferInstanceAs (Decidable (_ = _))

/-! ## Stacks -/

/-- Inside `handle_next_event` or about to call it. -/
def Frame.starts : Frame → Bool
  | initThread => true
  | frame => frame.handles

/-- Control points of a thread's own code and of the functions it calls. -/
def Frame.ofThread : Frame → Bool
  | threadCode | sleepLock _ | sleepEnqueue _ | sleepUnlock => true
  | _ => false

/-- Control points that can be below another one. -/
def Frame.waits : Frame → Bool
  | threadCode | kinit | interruptReturn _ | initThread | handlePeek | rescheduleLock _
  | sleepLock _ => true
  | _ => false

/-- `handle_next_event` is not nested, and `sched_init` does not run on a thread's
stack. -/
structure Orderly (stack : List Frame) : Prop where
  nested : stack.Pairwise fun upper lower => upper.starts = true → lower.handles = false
  init : .kinit ∈ stack → ∀ frame ∈ stack, frame.ofThread = false

/-- A control point may take the place of another one. -/
def Frame.precedes (frame : Frame) : Frame → Bool
  | kinit => false
  | new => (frame.starts || !new.starts) && (frame.ofThread || !new.ofThread)

section Orderly

variable {frame new : Frame} {callers stack : List Frame}

theorem ne_kinit_of_precedes (hnew : frame.precedes new = true) : new ≠ .kinit := by
  rintro rfl
  simp [Frame.precedes] at hnew

theorem starts_of_precedes (hnew : frame.precedes new = true) :
    (new.starts = true → frame.starts = true) ∧
      (frame.ofThread = false → new.ofThread = false) := by
  have hkinit := ne_kinit_of_precedes hnew
  have hboth : (frame.starts || !new.starts) && (frame.ofThread || !new.ofThread) := by
    cases new <;> first | exact hnew | exact absurd rfl hkinit
  simp only [Bool.and_eq_true, Bool.or_eq_true, Bool.not_eq_true'] at hboth
  exact ⟨fun hstarts => hboth.1.resolve_right (by simp [hstarts]),
    fun hown => hboth.2.resolve_left (by simp [hown])⟩

theorem Orderly.tail (horderly : Orderly (frame :: callers)) : Orderly callers where
  nested := (List.pairwise_cons.mp horderly.nested).2
  init := fun hkinit other hother =>
    horderly.init (List.mem_cons_of_mem _ hkinit) other (List.mem_cons_of_mem _ hother)

theorem Orderly.replace (horderly : Orderly (frame :: callers))
    (hnew : frame.precedes new = true) : Orderly (new :: callers) := by
  have hkinit := ne_kinit_of_precedes hnew
  obtain ⟨hstarts, hown⟩ := starts_of_precedes hnew
  obtain ⟨habove, hnested⟩ := List.pairwise_cons.mp horderly.nested
  constructor
  · exact List.pairwise_cons.mpr
      ⟨fun lower hlower hnew => habove lower hlower (hstarts hnew), hnested⟩
  · intro hmem other hother
    have hinit := horderly.init
      (List.mem_cons_of_mem _ ((List.mem_cons.mp hmem).resolve_left hkinit.symm))
    rcases List.mem_cons.mp hother with rfl | hother
    · exact hown (hinit frame (List.mem_cons_self ..))
    · exact hinit other (List.mem_cons_of_mem _ hother)

theorem Orderly.push (horderly : Orderly stack)
    (habove : new.starts = true → ∀ lower ∈ stack, lower.handles = false)
    (hown : new.ofThread = false) (hkinit : new ≠ .kinit) : Orderly (new :: stack) := by
  constructor
  · exact List.pairwise_cons.mpr
      ⟨fun lower hlower hstarts => habove hstarts lower hlower, horderly.nested⟩
  · intro hmem other hother
    have hinit := horderly.init ((List.mem_cons.mp hmem).resolve_left hkinit.symm)
    rcases List.mem_cons.mp hother with rfl | hother
    · exact hown
    · exact hinit other hother

theorem Orderly.countP_handles_le (horderly : Orderly stack) :
    stack.countP Frame.handles ≤ 1 := by
  induction stack with
  | nil => simp
  | cons frame callers ih =>
      cases hframe : frame.handles with
      | false =>
          rw [List.countP_cons_of_neg (by simp [hframe])]
          exact ih horderly.tail
      | true =>
          have hstarts : frame.starts = true := by
            cases frame <;> first | exact hframe | simp [Frame.handles] at hframe
          have hnone : callers.countP Frame.handles = 0 := by
            rw [List.countP_eq_zero]
            intro lower hlower
            simp [(List.pairwise_cons.mp horderly.nested).1 lower hlower hstarts]
          rw [List.countP_cons_of_pos hframe, hnone]

end Orderly

/-! ## The flag at each control point -/

/-- No critical section, and the flag is clear unless `sched_init` is running. -/
def State.Closed (state : State) : Prop :=
  state.disableCounter = 0 ∧ (.kinit ∉ state.stack → state.interruptFlag = false)

/-- The flag and `IRQ_disable_counter` when a control point is reached. -/
def Frame.Masks (state : State) : Frame → Prop
  | handleRemove _ | handleCallback _ => state.Closed
  | wakeStatus _ | wakeAdd _ | switchPick | switchTake _ | switchRearm | switchEnqueue
  | switchCurrent _ _ | switchStatus _ _ | switchContext _ _ =>
      state.Closed ∧ .handlePeek ∈ state.stack
  | rescheduleRequeue _ | rescheduleEnqueue | rescheduleUnlock | sleepEnqueue _
  | sleepUnlock => state.disableCounter = 1 ∧ state.interruptFlag = false
  | panic => state.interruptFlag = false
  | _ => state.disableCounter = 0

structure State.Masked (state : State) : Prop where
  control : ∀ frame callers, state.stack = frame :: callers →
    frame.Masks state ∧ ∀ caller ∈ callers, caller.waits = true
  counter : state.stack = [] → state.disableCounter = 0
  orderly : Orderly state.stack
  /-- The stacks that were put away are in order too. -/
  saved : ∀ thread old, Orderly ((state.threads thread).saved.frames old) ∧
    ∀ caller ∈ ((state.threads thread).saved.frames old).tail, caller.waits = true

section Masked

variable {state after : State} {frame new : Frame} {callers : List Frame} {now : ℕ}

theorem masks_iff_of_waits (hwaits : frame.waits = true) :
    frame.Masks state ↔ state.disableCounter = 0 := by
  cases frame <;> first | exact Iff.rfl | simp [Frame.waits] at hwaits

/-- Going on in the same function. -/
theorem State.Masked.goto (hmasked : state.Masked) (hstack : state.stack = frame :: callers)
    (hsaved : ∀ thread, (after.threads thread).saved = (state.threads thread).saved)
    (hafter : after.stack = new :: callers) (hnew : frame.precedes new = true)
    (hmasks : new.Masks after) : after.Masked := by
  have horderly := hmasked.orderly
  rw [hstack] at horderly
  constructor
  · intro frame' callers' hstack'
    obtain ⟨rfl, rfl⟩ := List.cons.inj (hafter.symm.trans hstack')
    exact ⟨hmasks, (hmasked.control frame callers hstack).2⟩
  · simp [hafter]
  · rw [hafter]
    exact horderly.replace hnew
  · intro thread
    rw [hsaved]
    exact hmasked.saved thread

/-- Calling a function from `handle_next_event`. -/
theorem State.Masked.call (hmasked : state.Masked) (hstack : state.stack = frame :: callers)
    (hsaved : ∀ thread, (after.threads thread).saved = (state.threads thread).saved)
    (hafter : after.stack = new :: .handlePeek :: callers)
    (hframe : frame.handles = true) (hnew : new.starts = false)
    (hthread : new.ofThread = false) (hkinit : new ≠ .kinit)
    (hmasks : new.Masks after) : after.Masked := by
  have horderly := hmasked.orderly
  rw [hstack] at horderly
  constructor
  · intro frame' callers' hstack'
    obtain ⟨rfl, rfl⟩ := List.cons.inj (hafter.symm.trans hstack')
    refine ⟨hmasks, fun caller hcaller => ?_⟩
    rcases List.mem_cons.mp hcaller with rfl | hcaller
    · rfl
    · exact (hmasked.control frame callers hstack).2 caller hcaller
  · simp [hafter]
  · rw [hafter]
    apply (horderly.replace _).push (by simp [hnew]) hthread hkinit
    cases frame <;> first | rfl | simp [Frame.handles] at hframe
  · intro thread
    rw [hsaved]
    exact hmasked.saved thread

/-- Returning to the caller outside of a critical section. -/
theorem State.Masked.back (hmasked : state.Masked) (hstack : state.stack = frame :: callers)
    (hsaved : ∀ thread, (after.threads thread).saved = (state.threads thread).saved)
    (hafter : after.stack = callers) (hcounter : after.disableCounter = 0) :
    after.Masked := by
  have horderly := hmasked.orderly
  rw [hstack] at horderly
  have hwaits := (hmasked.control frame callers hstack).2
  constructor
  · intro frame' callers' hstack'
    rw [hafter.symm.trans hstack'] at hwaits
    exact ⟨(masks_iff_of_waits (hwaits frame' (List.mem_cons_self ..))).mpr hcounter,
      fun caller hcaller => hwaits caller (List.mem_cons_of_mem _ hcaller)⟩
  · exact fun _ => hcounter
  · rw [hafter]
    exact horderly.tail
  · intro thread
    rw [hsaved]
    exact hmasked.saved thread

theorem State.Masked.panic (hmasked : state.Masked)
    (hsaved : ∀ thread, (after.threads thread).saved = (state.threads thread).saved)
    (hafter : after.stack = [.panic]) (hflag : after.interruptFlag = false) :
    after.Masked where
  control := by
    intro frame callers hstack
    obtain ⟨rfl, rfl⟩ := List.cons.inj (hafter.symm.trans hstack)
    exact ⟨hflag, by simp⟩
  counter := by simp [hafter]
  orderly := by
    rw [hafter]
    exact ⟨List.pairwise_singleton .., by simp⟩
  saved := by
    intro thread
    rw [hsaved]
    exact hmasked.saved thread

/-- Steps that do not touch the flag keep it clear. -/
theorem State.Closed.of_same (hclosed : state.Closed) (hstack : state.stack = frame :: callers)
    (hframe : frame ≠ .kinit) (hcounter : after.disableCounter = state.disableCounter)
    (hflag : after.interruptFlag = state.interruptFlag) (hcallers : callers <:+ after.stack) :
    after.Closed := by
  refine ⟨hcounter.trans hclosed.1, fun hkinit => hflag.trans (hclosed.2 ?_)⟩
  rw [hstack, List.mem_cons, not_or]
  exact ⟨hframe.symm, fun hmem => hkinit (hcallers.mem hmem)⟩

/-- The same inside a function that `handle_next_event` has called. -/
theorem called_of_same (hmasks : state.Closed ∧ .handlePeek ∈ state.stack)
    (hstack : state.stack = frame :: callers)
    (hframe : frame ≠ .kinit) (hpeek : frame ≠ .handlePeek)
    (hcounter : after.disableCounter = state.disableCounter)
    (hflag : after.interruptFlag = state.interruptFlag) (hcallers : callers <:+ after.stack) :
    after.Closed ∧ .handlePeek ∈ after.stack := by
  obtain ⟨hclosed, hmem⟩ := hmasks
  rw [hstack] at hmem
  exact ⟨hclosed.of_same hstack hframe hcounter hflag hcallers,
    hcallers.mem ((List.mem_cons.mp hmem).resolve_left hpeek.symm)⟩

/-- The steps of `handle_next_event` and of `thread_wake`. -/
theorem exec_masked_handler (hmasked : state.Masked)
    (hstack : state.stack = frame :: callers)
    (hguarded : StaysGuarded state (.run now))
    (hframe : frame.handles = true ∨ (∃ thread, frame = .wakeStatus thread) ∨
      ∃ thread, frame = .wakeAdd thread)
    (hexec : frame.exec callers state now = some after) : after.Masked := by
  obtain ⟨hmasks, -⟩ := hmasked.control frame callers hstack
  cases frame with
  | handleEoi =>
      obtain rfl := Option.some.inj hexec
      exact hmasked.goto hstack (fun _ => rfl) rfl rfl hmasks
  | handlePeek =>
      simp only [Frame.exec] at hexec
      split at hexec <;> obtain rfl := Option.some.inj hexec
      · exact hmasked.panic (fun _ => rfl) rfl rfl
      · exact hmasked.goto hstack (fun _ => rfl) rfl rfl hmasks
      · exact hmasked.goto hstack (fun _ => rfl) rfl rfl hmasks
  | handleTest event =>
      obtain ⟨-, ⟨-, rfl⟩ | ⟨hdue, rfl⟩⟩ := exec_handleTest_iff.mp hexec
      · exact hmasked.goto hstack (fun _ => rfl) rfl rfl hmasks
      · refine hmasked.goto hstack (fun _ => rfl) rfl rfl ⟨hmasks, fun hkinit => ?_⟩
        -- The event is due, so the flag is clear or `sched_init` is running.
        rw [StaysGuarded, hstack] at hguarded
        simp only [staysGuarded, Bool.decide_or, Bool.or_eq_true, decide_eq_true_eq]
          at hguarded
        rcases hguarded with hflag | hmem | htime
        · exact hflag
        · exact absurd (List.mem_cons_of_mem _ hmem) hkinit
        · exact absurd htime (not_lt.mpr hdue)
  | handleRemove event =>
      simp only [Frame.exec] at hexec
      split at hexec <;> obtain rfl := Option.some.inj hexec
      · exact hmasked.panic (fun _ => rfl) rfl rfl
      · exact hmasked.goto hstack (fun _ => rfl) rfl rfl
          (State.Closed.of_same hmasks hstack (by simp) rfl rfl ⟨[_], rfl⟩)
  | handleCallback event =>
      simp only [Frame.exec] at hexec
      split at hexec <;> obtain rfl := Option.some.inj hexec
      · exact hmasked.call hstack (fun _ => rfl) rfl rfl rfl rfl (by simp)
          ⟨State.Closed.of_same hmasks hstack (by simp) rfl rfl ⟨[_, _], rfl⟩, by simp⟩
      · exact hmasked.call hstack (fun _ => rfl) rfl rfl rfl rfl (by simp)
          ⟨State.Closed.of_same hmasks hstack (by simp) rfl rfl ⟨[_, _], rfl⟩, by simp⟩
      · exact hmasked.panic (fun _ => rfl) rfl rfl
  | handleNext =>
      simp only [Frame.exec] at hexec
      split at hexec <;> obtain rfl := Option.some.inj hexec
      · exact hmasked.panic (fun _ => rfl) rfl rfl
      · exact hmasked.back hstack (fun _ => rfl) rfl hmasks
      · exact hmasked.goto hstack (fun _ => rfl) rfl rfl hmasks
  | handleArm next =>
      obtain ⟨-, rfl⟩ := exec_handleArm_iff.mp hexec
      exact hmasked.back hstack (fun _ => rfl) rfl hmasks
  | wakeStatus thread =>
      simp only [Frame.exec] at hexec
      split at hexec <;> obtain rfl := Option.some.inj hexec
      · exact hmasked.goto hstack (saved_setStatus thread .ready) rfl rfl
          (called_of_same hmasks hstack (by simp) (by simp) rfl rfl ⟨[_], rfl⟩)
      · exact hmasked.panic (fun _ => rfl) rfl rfl
  | wakeAdd thread =>
      obtain rfl := Option.some.inj hexec
      exact hmasked.back hstack (fun _ => rfl) rfl hmasks.1.1
  | _ => simp [Frame.handles] at hframe

theorem exec_masked_switchContext {this next : ThreadPtr} (hmasked : state.Masked)
    (hstack : state.stack = .switchContext this next :: callers) :
    (state.switchContext callers this next).Masked := by
  obtain ⟨⟨⟨hcounter, -⟩, -⟩, hwaits⟩ := hmasked.control _ _ hstack
  have horderly := hmasked.orderly
  rw [hstack] at horderly
  obtain ⟨hnext, hnextWaits⟩ := hmasked.saved next this
  obtain ⟨resumed, hframes, -⟩ := (state.threads next).saved.frames_eq this
  constructor
  · intro frame callers' hstack'
    have hresumed : (state.threads next).saved.frames this = frame :: callers' := hstack'
    rw [hresumed] at hnextWaits
    obtain ⟨rfl, rfl⟩ := List.cons.inj (hframes.symm.trans hresumed)
    exact ⟨hcounter, hnextWaits⟩
  · exact fun _ => hcounter
  · exact hnext
  · intro thread old
    by_cases hthread : thread = this
    · subst hthread
      simp only [State.switchContext, Function.update_self]
      exact ⟨horderly.replace rfl, hwaits⟩
    · simp only [State.switchContext, Function.update_of_ne hthread]
      exact hmasked.saved thread old

/-- The steps of `switch_thread`. -/
theorem exec_masked_switch (hmasked : state.Masked)
    (hstack : state.stack = frame :: callers)
    (hframe : frame = .switchPick ∨ (∃ head, frame = .switchTake head) ∨
      frame = .switchRearm ∨ frame = .switchEnqueue ∨
        ∃ this next, frame = .switchCurrent this next ∨ frame = .switchStatus this next)
    (hexec : frame.exec callers state now = some after) : after.Masked := by
  obtain ⟨hmasks, -⟩ := hmasked.control frame callers hstack
  rcases hframe with rfl | ⟨head, rfl⟩ | rfl | rfl | ⟨this, next, rfl | rfl⟩
  · obtain rfl := Option.some.inj hexec
    exact hmasked.goto hstack (fun _ => rfl) rfl rfl
      (called_of_same hmasks hstack (by simp) (by simp) rfl rfl ⟨[_], rfl⟩)
  · obtain rfl := exec_switchTake_iff.mp hexec
    split <;> exact hmasked.goto hstack (fun _ => rfl) rfl rfl
      (called_of_same hmasks hstack (by simp) (by simp) rfl rfl ⟨[_], rfl⟩)
  · obtain ⟨-, rfl⟩ := exec_switchRearm_iff.mp hexec
    exact hmasked.goto hstack (fun _ => rfl) rfl rfl
      (called_of_same hmasks hstack (by simp) (by simp) rfl rfl ⟨[_], rfl⟩)
  · obtain rfl := Option.some.inj hexec
    rcases enqueueEvent_cases state callers with heq | ⟨queue, heq⟩ <;> rw [heq]
    · exact hmasked.panic (fun _ => rfl) rfl rfl
    · exact hmasked.back hstack (fun _ => rfl) rfl hmasks.1.1
  · obtain rfl := Option.some.inj hexec
    exact hmasked.goto hstack (fun _ => rfl) rfl rfl
      (called_of_same hmasks hstack (by simp) (by simp) rfl rfl ⟨[_], rfl⟩)
  · obtain rfl := Option.some.inj hexec
    exact hmasked.goto hstack (saved_setStatus state.current .running) rfl rfl
      (called_of_same hmasks hstack (by simp) (by simp) rfl rfl ⟨[_], rfl⟩)

theorem saved_requeue (thread other : ThreadPtr) :
    ((state.requeue thread).threads other).saved = (state.threads other).saved ∧
      (state.requeue thread).disableCounter = state.disableCounter ∧
        (state.requeue thread).interruptFlag = state.interruptFlag := by
  rcases requeue_cases state thread with heq | heq <;> rw [heq]
  · exact ⟨rfl, rfl, rfl⟩
  · exact ⟨saved_setStatus thread .ready other, rfl, rfl⟩

/-- Every control point leaves what the next one needs. -/
theorem exec_masked (hmasked : state.Masked) (hstack : state.stack = frame :: callers)
    (hguarded : StaysGuarded state (.run now))
    (hexec : frame.exec callers state now = some after) : after.Masked := by
  obtain ⟨hmasks, -⟩ := hmasked.control frame callers hstack
  cases frame with
  | threadCode | kinit | panic =>
      obtain rfl := Option.some.inj hexec
      exact hmasked
  | interruptReturn flag =>
      obtain rfl := Option.some.inj hexec
      exact hmasked.back hstack (fun _ => rfl) rfl hmasks
  | initThread =>
      obtain rfl := Option.some.inj hexec
      exact hmasked.goto hstack (fun _ => rfl) rfl rfl hmasks
  | handleEoi | handlePeek | handleTest _ | handleRemove _ | handleCallback _ | handleNext
  | handleArm _ => exact exec_masked_handler hmasked hstack hguarded (Or.inl rfl) hexec
  | wakeStatus thread =>
      exact exec_masked_handler hmasked hstack hguarded (Or.inr (Or.inl ⟨_, rfl⟩)) hexec
  | wakeAdd thread =>
      exact exec_masked_handler hmasked hstack hguarded (Or.inr (Or.inr ⟨_, rfl⟩)) hexec
  | switchPick | switchTake _ | switchRearm | switchEnqueue | switchCurrent _ _
  | switchStatus _ _ =>
      exact exec_masked_switch hmasked hstack (by simp) hexec
  | switchContext this next =>
      obtain rfl := Option.some.inj hexec
      exact exec_masked_switchContext hmasked hstack
  | rescheduleLock thread =>
      obtain rfl := Option.some.inj hexec
      exact hmasked.goto hstack (fun _ => rfl) rfl rfl
        ⟨congrArg (· + 1) hmasks, rfl⟩
  | sleepLock time =>
      obtain rfl := Option.some.inj hexec
      exact hmasked.goto hstack (fun _ => rfl) rfl rfl
        ⟨congrArg (· + 1) hmasks, rfl⟩
  | rescheduleRequeue thread =>
      obtain rfl := Option.some.inj hexec
      obtain ⟨-, hcounter, hflag⟩ := @saved_requeue state thread thread
      exact hmasked.goto hstack (fun other => (saved_requeue thread other).1) rfl rfl
        ⟨hcounter.trans hmasks.1, hflag.trans hmasks.2⟩
  | rescheduleEnqueue =>
      obtain ⟨-, rfl⟩ := exec_rescheduleEnqueue_iff.mp hexec
      rcases enqueueEvent_cases _ (.rescheduleUnlock :: callers) with heq | ⟨queue, heq⟩ <;>
        rw [heq]
      · exact hmasked.panic (fun _ => rfl) rfl rfl
      · exact hmasked.goto hstack (fun _ => rfl) rfl rfl hmasks
  | sleepEnqueue time =>
      obtain ⟨-, rfl⟩ := exec_sleepEnqueue_iff.mp hexec
      have hsaved := @saved_setStatus state state.current .sleeping
      rcases enqueueEvent_cases _ (.sleepUnlock :: callers) with heq | ⟨queue, heq⟩ <;>
        rw [heq]
      · exact hmasked.panic hsaved rfl rfl
      · exact hmasked.goto hstack hsaved rfl rfl hmasks
  | rescheduleUnlock =>
      obtain rfl := Option.some.inj hexec
      exact hmasked.back hstack (fun _ => rfl) rfl (congrArg (· - 1) hmasks.1)
  | sleepUnlock => simp [StaysGuarded, staysGuarded, hstack] at hguarded

/-! ## Runs -/

theorem State.Masked.guarded (hmasked : state.Masked) : state.Guarded := by
  refine ⟨fun hkinit frame hframe hmodifies => ?_, hmasked.orderly.countP_handles_le⟩
  obtain ⟨callers, hstack⟩ := List.head?_eq_some_iff.mp hframe
  obtain ⟨hmasks, -⟩ := hmasked.control frame callers hstack
  cases frame <;> first
    | exact hmasks.2 hkinit
    | exact hmasks.1.2 hkinit
    | exact hmasks.2
    | simp [Frame.modifies] at hmodifies

/-- Outside of `handle_next_event` the flag is set only where a control point may be
below another one. -/
theorem State.Masked.waits_of_flag (hmasked : state.Masked)
    (hstack : state.stack = frame :: callers) (hflag : state.interruptFlag = true)
    (hhandles : ∀ other ∈ state.stack, other.handles = false) : frame.waits = true := by
  obtain ⟨hmasks, -⟩ := hmasked.control frame callers hstack
  have hframe := hhandles frame (by simp [hstack])
  have hpeek : .handlePeek ∉ state.stack := fun hmem =>
    Bool.noConfusion (hhandles _ hmem)
  cases frame <;> first
    | rfl
    | exact Bool.noConfusion hframe
    | exact absurd hmasks.2 hpeek
    | exact Bool.noConfusion (hflag.symm.trans hmasks.2)
    | exact Bool.noConfusion (hflag.symm.trans hmasks)

theorem State.Masked.interrupt (hmasked : state.Masked) (hflag : state.interruptFlag = true)
    (hhandles : ∀ other ∈ state.stack, other.handles = false) :
    state.interrupt.Masked := by
  have hwaits : ∀ caller ∈ state.stack, caller.waits = true := by
    intro caller hcaller
    cases hstack : state.stack with
    | nil => simp [hstack] at hcaller
    | cons frame callers =>
        rw [hstack] at hcaller
        rcases List.mem_cons.mp hcaller with rfl | hcaller
        · exact hmasked.waits_of_flag hstack hflag hhandles
        · exact (hmasked.control frame callers hstack).2 caller hcaller
  have hcounter : state.disableCounter = 0 := by
    cases hstack : state.stack with
    | nil => exact hmasked.counter hstack
    | cons frame callers =>
        have hframe := hwaits frame (by simp [hstack])
        exact (masks_iff_of_waits hframe).mp (hmasked.control frame callers hstack).1
  constructor
  · intro frame callers hstack
    obtain ⟨rfl, rfl⟩ := List.cons.inj hstack
    refine ⟨hcounter, fun caller hcaller => ?_⟩
    rcases List.mem_cons.mp hcaller with rfl | hcaller
    · rfl
    · exact hwaits caller hcaller
  · simp [State.interrupt]
  · have hreturn : Orderly (.interruptReturn state.interruptFlag :: state.stack) :=
      hmasked.orderly.push (fun hstarts => Bool.noConfusion hstarts) rfl (by simp)
    apply hreturn.push _ rfl (by simp)
    intro _ lower hlower
    rcases List.mem_cons.mp hlower with rfl | hlower
    · rfl
    · exact hhandles lower hlower
  · exact hmasked.saved

theorem handles_of_staysGuarded (hguarded : StaysGuarded state .interrupt) :
    ∀ other ∈ state.stack, other.handles = false := by
  have hcount : state.stack.countP Frame.handles = 0 := by
    rw [StaysGuarded] at hguarded
    cases hstack : state.stack with
    | nil => rfl
    | cons frame callers =>
        rw [hstack] at hguarded
        cases frame <;> exact of_decide_eq_true hguarded
  intro other hother
  exact Bool.eq_false_iff.mpr (List.countP_eq_zero.mp hcount other hother)

theorem step_masked {input : Input} (hmasked : state.Masked)
    (hguarded : StaysGuarded state input) (hstep : state.step input = some after) :
    after.Masked := by
  cases stepped_of_step hstep with
  | run hstack hexec => exact exec_masked hmasked hstack hguarded hexec
  | sleep hstack _ =>
      obtain ⟨hcounter, hwaits⟩ := hmasked.control _ _ hstack
      constructor
      · intro frame callers' hstack'
        obtain ⟨rfl, rfl⟩ := List.cons.inj hstack'
        refine ⟨hcounter, fun caller hcaller => ?_⟩
        rw [hstack] at hcaller
        rcases List.mem_cons.mp hcaller with rfl | hcaller
        · rfl
        · exact hwaits caller hcaller
      · simp
      · constructor
        · exact List.pairwise_cons.mpr
            ⟨fun _ _ hstarts => Bool.noConfusion hstarts, hmasked.orderly.nested⟩
        · intro hkinit
          have hmem : Frame.kinit ∈ state.stack :=
            (List.mem_cons.mp hkinit).resolve_left (by simp)
          -- `sched_init` does not run on the stack of a thread.
          exact Bool.noConfusion (hmasked.orderly.init hmem .threadCode (by simp [hstack]))
      · exact hmasked.saved
  | interrupt hflag => exact hmasked.interrupt hflag (handles_of_staysGuarded hguarded)

/-- Each exception breaks the guard. -/
theorem staysGuarded_of_guarded {input : Input} (hmasked : state.Masked)
    (hstep : state.step input = some after) (hguarded : after.Guarded) :
    StaysGuarded state input := by
  rw [StaysGuarded]
  cases stepped_of_step hstep with
  | sleep hstack _ =>
      rw [hstack]
      rfl
  | interrupt _ =>
      have hcount : state.stack.countP Frame.handles = 0 := by
        have hsingle : (Frame.handleEoi :: .interruptReturn state.interruptFlag ::
          state.stack).countP Frame.handles ≤ 1 := hguarded.2
        rw [List.countP_cons_of_pos rfl, List.countP_cons_of_neg Bool.false_ne_true]
          at hsingle
        exact Nat.le_zero.mp (Nat.le_of_succ_le_succ hsingle)
      cases hstack : state.stack with
      | nil => rfl
      | cons frame callers =>
          rw [hstack] at hcount
          cases frame <;> exact decide_eq_true hcount
  | @run now frame callers _ hstack hexec =>
      rw [hstack]
      obtain ⟨hmasks, -⟩ := hmasked.control frame callers hstack
      cases frame with
      | sleepUnlock =>
          obtain rfl := Option.some.inj hexec
          -- The counter is back at zero, so the flag is set before `switch_thread`.
          have hkinit : .kinit ∉ callers := fun hmem =>
            Bool.noConfusion (hmasked.orderly.init
              (by simp [hstack, hmem]) .sleepUnlock (by simp [hstack]))
          have hflag := hguarded.1 (by simp [hkinit]) .switchPick rfl rfl
          simp [State.unlockScheduler, hmasks.1] at hflag
      | handleTest event =>
          simp only [staysGuarded, Bool.decide_or, Bool.or_eq_true, decide_eq_true_eq]
          obtain ⟨-, ⟨hlater, -⟩ | ⟨-, rfl⟩⟩ := exec_handleTest_iff.mp hexec
          · exact Or.inr (Or.inr hlater)
          · by_cases hkinit : .kinit ∈ callers
            · exact Or.inr (Or.inl hkinit)
            · exact Or.inl (hguarded.1 (by simp [hkinit]) (.handleRemove event) rfl rfl)
      | _ => rfl

end Masked

theorem disableCounter_iterate (count : ℕ) (state : State) :
    (State.createReady^[count] state).disableCounter = state.disableCounter := by
  induction count with
  | zero => rfl
  | succ count ih =>
      rw [Function.iterate_succ_apply']
      exact ih

theorem State.Masked.enqueueEvent {state : State} (hmasked : state.Masked) :
    (state.enqueueEvent state.stack).Masked := by
  rcases enqueueEvent_cases state state.stack with heq | ⟨queue, heq⟩ <;> rw [heq]
  · exact hmasked.panic (fun _ => rfl) rfl rfl
  · exact ⟨hmasked.control, hmasked.counter, hmasked.orderly, hmasked.saved⟩

theorem schedInit_masked (count calibration : ℕ) :
    (State.schedInit count calibration).Masked := by
  have hcreated := created_iterate count calibration
  have hcounter := disableCounter_iterate count (State.schedInitIdle calibration)
  set created := State.createReady^[count] (State.schedInitIdle calibration)
  have hsaved : ∀ thread old, Orderly ((created.threads thread).saved.frames old) ∧
      ∀ caller ∈ ((created.threads thread).saved.frames old).tail, caller.waits = true := by
    intro thread old
    rw [hcreated.saved]
    refine ⟨⟨?_, ?_⟩, ?_⟩ <;>
      simp [SavedStack.frames, SavedStack.initial, Frame.starts, Frame.handles, Frame.waits]
  have hbefore : created.Masked := by
    constructor
    · intro frame callers hstack
      obtain ⟨rfl, rfl⟩ := List.cons.inj (hcreated.stack.symm.trans hstack)
      exact ⟨hcounter, by simp [Frame.waits]⟩
    · exact fun _ => hcounter
    · rw [hcreated.stack]
      constructor <;> simp [Frame.handles, Frame.ofThread]
    · exact hsaved
  apply State.Masked.enqueueEvent
  exact ⟨hbefore.control, hbefore.counter, hbefore.orderly, hbefore.saved⟩

/-- As long as no step is one of the three exceptions the scheduler is guarded, and
the first exception breaks the guard. -/
theorem guarded_iff_staysGuarded {count calibration : ℕ} {state after : State}
    {input : Input} (hrun : RunsTo StaysGuarded (State.schedInit count calibration) state)
    (hstep : state.step input = some after) :
    state.Guarded ∧ (after.Guarded ↔ StaysGuarded state input) := by
  have hmasked : state.Masked :=
    hrun.keeps (schedInit_masked count calibration) fun _ _ _ => step_masked
  exact ⟨hmasked.guarded, staysGuarded_of_guarded hmasked hstep,
    fun hguarded => (step_masked hmasked hguarded hstep).guarded⟩

/-- Thread 2 is interrupted for the first time, and the interrupt is allowed. -/
theorem guarded_at_first_interrupt :
    ∃ state after, RunsTo StaysGuarded (State.schedInit 2 100000) state ∧
      state.stack = [.threadCode] ∧ state.current = 2 ∧
        state.step .interrupt = some after ∧ state.Guarded ∧ after.Guarded := by
  have hinputs : ((State.schedInit 2 100000).runInputs StaysGuarded
      (List.replicate 20 (Input.run 10))).map (fun state =>
        (state.stack, state.current, state.interruptFlag)) =
          some ([.threadCode], 2, true) := by
    decide +kernel
  obtain ⟨state, hstate, hread⟩ := Option.map_eq_some_iff.mp hinputs
  simp only [Prod.mk.injEq] at hread
  obtain ⟨hstack, hcurrent, hflag⟩ := hread
  have hrun := runsTo_of_runInputs StaysGuarded hstate
  have hstep : state.step .interrupt = some state.interrupt := by
    rw [State.step, if_pos hflag]
  obtain ⟨hguarded, hiff⟩ := guarded_iff_staysGuarded hrun hstep
  refine ⟨state, _, hrun, hstack, hcurrent, hstep, hguarded, hiff.mpr ?_⟩
  rw [StaysGuarded, hstack]
  rfl

/-- Thread 2 is interrupted and gives way to thread 3.  Thread 3 calls `thread_sleep`
shortly before the one-shot fires: `switch_thread` changes `ready_threads` with the
flag set.  Thread 2 is resumed inside `handle_next_event` with the flag set, too, and
the next interrupt enters `handle_next_event` a second time. -/
theorem flag_set_in_switch_and_nested_handler :
    ∃ switching nested, RunsTo (fun _ _ => True) (State.schedInit 2 100000) switching ∧
      switching.current = 3 ∧ switching.stack = [.switchPick, .threadCode] ∧
        switching.interruptFlag = true ∧ ¬switching.Guarded ∧
          RunsTo (fun _ _ => True) switching nested ∧ nested.current = 2 ∧
            nested.stack = [.handleEoi, .interruptReturn true, .handlePeek,
              .interruptReturn true, .threadCode] ∧ ¬nested.Guarded := by
  have hinputs : ((State.schedInit 2 100000).runInputs (fun _ _ => True)
      (List.replicate 20 (Input.run 10) ++
        Input.interrupt :: (List.replicate 20 (Input.run 3100000) ++
        Input.sleep 1000 :: List.replicate 3 (Input.run 6000000)))).bind (fun switching =>
          (switching.runInputs (fun _ _ => True) (List.replicate 9 (Input.run 6000000) ++
            [Input.interrupt])).map fun nested =>
              ((switching.current, switching.stack, switching.interruptFlag,
                decide switching.Guarded), (nested.current, nested.stack,
                  decide nested.Guarded))) =
        some ((3, [.switchPick, .threadCode], true, false), (2, [.handleEoi,
          .interruptReturn true, .handlePeek, .interruptReturn true, .threadCode],
            false)) := by
    decide +kernel
  obtain ⟨switching, hswitching, hread⟩ := Option.bind_eq_some_iff.mp hinputs
  obtain ⟨nested, hnested, hread⟩ := Option.map_eq_some_iff.mp hread
  simp only [Prod.mk.injEq, decide_eq_false_iff_not] at hread
  obtain ⟨⟨hcurrent, hstack, hflag, hopen⟩, hresumed, htwice, hnot⟩ := hread
  exact ⟨switching, nested, runsTo_of_runInputs _ hswitching, hcurrent, hstack, hflag, hopen,
    runsTo_of_runInputs _ hnested, hresumed, htwice, hnot⟩

end Flurry.Sched
