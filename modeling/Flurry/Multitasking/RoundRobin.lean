import Flurry.Multitasking.ThreadPlacement

/-!
# The order in which threads are dispatched

`ready_threads` is a queue: threads are taken from its front and put back at its end.
A run is followed together with the threads that its calls of `switch_thread` take
off the list and the threads that they make current.
-/

namespace Flurry.Sched

open ByteMemory Events

/-- `thread_list_get_next` has found a thread. -/
def Frame.takes : Frame → Bool
  | switchTake head => head.isSome
  | _ => false

/-- The thread that a step takes off `ready_threads`. -/
def State.taken (state : State) : Input → List ThreadPtr
  | .run _ => if state.stack.head?.any Frame.takes then state.ready.take 1 else []
  | _ => []

/-- The thread that is about to be made current. -/
def State.pending (state : State) : List ThreadPtr :=
  match state.stack with
  | .switchCurrent _ next :: _ => [next]
  | _ => []

/-- The thread that a step makes current. -/
def State.dispatched (state : State) : Input → List ThreadPtr
  | .run _ => state.pending
  | _ => []

/-- Runs with the threads they take off the list and the threads they dispatch. -/
inductive Dispatches (allowed : State → Input → Prop) (start : State) :
    List ThreadPtr → List ThreadPtr → State → Prop where
  | refl : Dispatches allowed start [] [] start
  | step {state after : State} {input : Input} {taken dispatched : List ThreadPtr} :
      Dispatches allowed start taken dispatched state → allowed state input →
        state.step input = some after →
          Dispatches allowed start (taken ++ state.taken input)
            (dispatched ++ state.dispatched input) after

/-- One input with what it takes and dispatches, added to what came before. -/
def dispatchInput : List ThreadPtr × List ThreadPtr × State → Input →
    Option (List ThreadPtr × List ThreadPtr × State)
  | (taken, dispatched, state), input =>
      if Uninterrupted state input then
        (state.step input).map fun after =>
          (taken ++ state.taken input, dispatched ++ state.dispatched input, after)
      else none

theorem Dispatches.dispatchInputs {start state after : State} {inputs : List Input}
    {taken dispatched taken' dispatched' : List ThreadPtr}
    (hrun : Dispatches Uninterrupted start taken dispatched state)
    (hinputs : inputs.foldlM dispatchInput (taken, dispatched, state) =
      some (taken', dispatched', after)) :
    Dispatches Uninterrupted start taken' dispatched' after := by
  induction inputs generalizing taken dispatched state with
  | nil =>
      simp only [List.foldlM_nil, Option.pure_def, Option.some.injEq, Prod.mk.injEq] at hinputs
      obtain ⟨rfl, rfl, rfl⟩ := hinputs
      exact hrun
  | cons input inputs ih =>
      simp only [List.foldlM_cons, dispatchInput, Option.bind_eq_bind, Option.bind_eq_some_iff,
        Option.ite_none_right_eq_some, Option.map_eq_some_iff] at hinputs
      obtain ⟨_, ⟨hallowed, middle, hstep, rfl⟩, hrest⟩ := hinputs
      exact ih (hrun.step hallowed hstep) hrest

/-- `switch_thread` up to the assignment of `current_thread`. -/
def State.SwitchThread (state after : State) : Prop :=
  ∃ read picked now now' now'', state.step (.run now) = some read ∧
    read.step (.run now') = some picked ∧ picked.step (.run now'') = some after

theorem Dispatches.runsTo {allowed : State → Input → Prop} {start state : State}
    {taken dispatched : List ThreadPtr}
    (hrun : Dispatches allowed start taken dispatched state) :
    RunsTo allowed start state := by
  induction hrun with
  | refl => exact .refl
  | step _ hallowed hstep ih => exact ih.step hallowed hstep

section Steps

variable {state after : State} {frame : Frame} {callers : List Frame} {now : ℕ}

/-- A control point takes the first thread off the list or adds threads at its
end. -/
theorem exec_ready (hexec : frame.exec callers state now = some after) :
    after.idle = state.idle ∧ ∃ added, state.ready ++ added =
      (if frame.takes then state.ready.take 1 else []) ++ after.ready := by
  have hsame : ∀ {after : State}, after.idle = state.idle → after.ready = state.ready →
      after.idle = state.idle ∧ ∃ added, state.ready ++ added = [] ++ after.ready :=
    fun hidle hready => ⟨hidle, [], by rw [hready, List.append_nil, List.nil_append]⟩
  cases frame with
  | switchTake head =>
      obtain rfl := exec_switchTake_iff.mp hexec
      cases head with
      | none => exact hsame rfl rfl
      | some thread =>
          refine ⟨rfl, [], ?_⟩
          change state.ready ++ [] = state.ready.take 1 ++ state.ready.tail
          rw [List.append_nil, ← List.drop_one, List.take_append_drop]
  | rescheduleRequeue thread =>
      obtain rfl := Option.some.inj hexec
      rcases requeue_cases state thread with heq | heq <;> rw [heq]
      · exact hsame rfl rfl
      · exact ⟨rfl, [thread], rfl⟩
  | wakeAdd thread =>
      obtain rfl := Option.some.inj hexec
      exact ⟨rfl, [thread], rfl⟩
  | switchEnqueue =>
      obtain rfl := Option.some.inj hexec
      rcases enqueueEvent_cases state callers with heq | ⟨queue, heq⟩ <;> rw [heq]
      · exact hsame rfl rfl
      · exact hsame rfl rfl
  | rescheduleEnqueue =>
      obtain ⟨-, rfl⟩ := exec_rescheduleEnqueue_iff.mp hexec
      rcases enqueueEvent_cases _ _ with heq | ⟨queue, heq⟩
      · exact hsame (heq ▸ rfl) (heq ▸ rfl)
      · exact hsame (heq ▸ rfl) (heq ▸ rfl)
  | sleepEnqueue _ =>
      obtain ⟨-, rfl⟩ := exec_sleepEnqueue_iff.mp hexec
      rcases enqueueEvent_cases _ _ with heq | ⟨queue, heq⟩
      · exact hsame (heq ▸ rfl) (heq ▸ rfl)
      · exact hsame (heq ▸ rfl) (heq ▸ rfl)
  | handleTest _ =>
      rcases exec_handleTest_iff.mp hexec with ⟨-, ⟨-, rfl⟩ | ⟨-, rfl⟩⟩ <;> exact hsame rfl rfl
  | handleArm _ =>
      obtain ⟨-, rfl⟩ := exec_handleArm_iff.mp hexec
      exact hsame rfl rfl
  | switchRearm =>
      obtain ⟨-, rfl⟩ := exec_switchRearm_iff.mp hexec
      exact hsame rfl rfl
  | handlePeek | handleNext | handleRemove _ | handleCallback _ | wakeStatus _ =>
      simp only [Frame.exec] at hexec
      split at hexec <;> obtain rfl := Option.some.inj hexec <;> exact hsame rfl rfl
  | _ =>
      obtain rfl := Option.some.inj hexec
      exact hsame rfl rfl

theorem pending_of_return (hreturn : ∀ caller ∈ state.stack, caller.IsReturn = true) :
    state.pending = [] := by
  cases hstack : state.stack with
  | nil => simp [State.pending, hstack]
  | cons frame callers =>
      have hframe := hreturn frame (by simp [hstack])
      cases frame <;> first
        | exact Bool.noConfusion hframe
        | simp [State.pending, hstack]

theorem pending_of_stack (hstack : state.stack = frame :: callers)
    (hframe : ∀ this next, frame ≠ .switchCurrent this next) : state.pending = [] := by
  cases frame <;> first
    | exact absurd rfl (hframe _ _)
    | simp [State.pending, hstack]

/-- Only `get_next_thread` decides which thread is dispatched next. -/
theorem exec_pending (hreturn : ∀ caller ∈ callers, caller.IsReturn = true)
    (hstack : state.stack = frame :: callers) (htake : ∀ head, frame ≠ .switchTake head)
    (hcurrent : ∀ this next, frame ≠ .switchCurrent this next)
    (hexec : frame.exec callers state now = some after) : after.pending = [] := by
  cases frame with
  | switchTake head => exact absurd rfl (htake head)
  | switchCurrent this next => exact absurd rfl (hcurrent this next)
  | threadCode | kinit | panic =>
      obtain rfl := Option.some.inj hexec
      exact pending_of_stack hstack hcurrent
  | interruptReturn _ | wakeAdd _ | rescheduleUnlock =>
      obtain rfl := Option.some.inj hexec
      exact pending_of_return hreturn
  | switchContext this next =>
      obtain rfl := Option.some.inj hexec
      obtain ⟨resumed, hframes, -⟩ := (state.threads next).saved.frames_eq this
      exact pending_of_stack hframes (by simp)
  | switchEnqueue =>
      obtain rfl := Option.some.inj hexec
      rcases enqueueEvent_cases state callers with heq | ⟨queue, heq⟩ <;> rw [heq]
      · rfl
      · exact pending_of_return hreturn
  | rescheduleEnqueue =>
      obtain ⟨-, rfl⟩ := exec_rescheduleEnqueue_iff.mp hexec
      rcases enqueueEvent_cases _ _ with heq | ⟨queue, heq⟩ <;> exact heq ▸ rfl
  | sleepEnqueue _ =>
      obtain ⟨-, rfl⟩ := exec_sleepEnqueue_iff.mp hexec
      rcases enqueueEvent_cases _ _ with heq | ⟨queue, heq⟩ <;> exact heq ▸ rfl
  | handleTest _ =>
      rcases exec_handleTest_iff.mp hexec with ⟨-, ⟨-, rfl⟩ | ⟨-, rfl⟩⟩ <;> rfl
  | handleArm _ =>
      obtain ⟨-, rfl⟩ := exec_handleArm_iff.mp hexec
      exact pending_of_return hreturn
  | switchRearm =>
      obtain ⟨-, rfl⟩ := exec_switchRearm_iff.mp hexec
      rfl
  | handleNext =>
      simp only [Frame.exec] at hexec
      split at hexec <;> obtain rfl := Option.some.inj hexec
      · rfl
      · exact pending_of_return hreturn
      · rfl
  | handlePeek | handleRemove _ | handleCallback _ | wakeStatus _ =>
      simp only [Frame.exec] at hexec
      split at hexec <;> obtain rfl := Option.some.inj hexec <;> rfl
  | _ =>
      obtain rfl := Option.some.inj hexec
      rfl

theorem step_ready {input : Input} (hstep : state.step input = some after) :
    after.idle = state.idle ∧
      ∃ added, state.ready ++ added = state.taken input ++ after.ready := by
  cases stepped_of_step hstep with
  | @run now frame callers _ hstack hexec =>
      have htaken : state.taken (.run now) =
          if frame.takes then state.ready.take 1 else [] := by
        simp [State.taken, hstack]
      rw [htaken]
      exact exec_ready hexec
  | sleep _ _ => exact ⟨rfl, [], List.append_nil _⟩
  | interrupt _ => exact ⟨rfl, [], List.append_nil _⟩

/-- What `switch_thread` finds when it has read the head of the list. -/
theorem State.Invariant.switchTake {head : Option ThreadPtr} (hinv : state.Invariant)
    (hstack : state.stack = .switchTake head :: callers) :
    head = state.ready.head? ∧
      ∃ role : Role, role.Outgoing ∧ state.Arranged (only state.current role) := by
  obtain ⟨hhead, ⟨harranged, -⟩ | ⟨harranged, -⟩⟩ := (hinv.control.expects hstack).1
  · exact ⟨hhead, .detached, Or.inl rfl, harranged⟩
  · exact ⟨hhead, .asleep, Or.inr rfl, harranged⟩

/-- What `get_next_thread` leaves: the thread that it has taken off the list will be
dispatched, and the idle thread only if there was none. -/
theorem switchTake_pending {head : Option ThreadPtr} (hinv : state.Invariant)
    (hstack : state.stack = .switchTake head :: callers)
    (hexec : Frame.exec callers state now (.switchTake head) = some after) :
    state.taken (.run now) = after.pending.filter (· ≠ state.idle) ∧
      (state.idle ∈ after.pending → after.ready = []) := by
  obtain ⟨rfl, role, hrole, harranged⟩ := hinv.switchTake hstack
  obtain rfl := exec_switchTake_iff.mp hexec
  cases hready : state.ready with
  | nil =>
      rw [hready, List.head?_nil] at hstack
      refine ⟨?_, fun _ => rfl⟩
      by_cases hidle : state.idle = state.current <;>
        simp [State.taken, hstack, Frame.takes, State.pending, hidle]
  | cons thread ready =>
      obtain ⟨hthread, hordinary, -⟩ :=
        harranged.of_listed hrole (show thread ∈ state.ready by simp [hready])
      rw [hready, List.head?_cons] at hstack
      simp [State.taken, hstack, Frame.takes, State.pending, hready, hthread,
        hordinary.not_idle, hordinary.not_idle.symm]

/-- A step is a choice of `get_next_thread`, or it takes no thread and leaves none
to be dispatched. -/
theorem step_take_or {input : Input} (hinv : state.Invariant)
    (hallowed : Uninterrupted state input) (hstep : state.step input = some after) :
    (∃ head callers now, input = .run now ∧ state.stack = .switchTake head :: callers ∧
      Frame.exec callers state now (.switchTake head) = some after) ∨
    (state.taken input = [] ∧ state.dispatched input = state.pending ∧
      after.pending = []) := by
  cases stepped_of_step hstep with
  | @run now frame callers _ hstack hexec =>
      by_cases htake : ∃ head, frame = .switchTake head
      · obtain ⟨head, rfl⟩ := htake
        exact Or.inl ⟨head, callers, now, rfl, hstack, hexec⟩
      · have hnot : ∀ head, frame ≠ .switchTake head := fun head heq => htake ⟨head, heq⟩
        refine Or.inr ⟨?_, rfl, ?_⟩
        · have htakes : frame.takes = false := by
            cases frame with
            | switchTake head => exact absurd rfl (hnot head)
            | _ => rfl
          simp [State.taken, hstack, htakes]
        by_cases hcurrent : ∃ this next, frame = .switchCurrent this next
        · obtain ⟨this, next, rfl⟩ := hcurrent
          obtain rfl := Option.some.inj hexec
          rfl
        · exact exec_pending (hinv.control.expects hstack).2 hstack hnot
            (fun this next heq => hcurrent ⟨this, next, heq⟩) hexec
  | sleep hstack _ => exact Or.inr ⟨rfl, (pending_of_stack hstack (by simp)).symm, rfl⟩
  | interrupt _ =>
      obtain ⟨callers, hstack⟩ := List.head?_eq_some_iff.mp (hallowed rfl)
      exact Or.inr ⟨rfl, (pending_of_stack hstack (by simp)).symm, rfl⟩

/-- A thread that is taken off the list is dispatched by the same call. -/
theorem step_pending {input : Input} (hinv : state.Invariant)
    (hallowed : Uninterrupted state input) (hstep : state.step input = some after) :
    state.pending.filter (· ≠ state.idle) ++ state.taken input =
      (state.dispatched input).filter (· ≠ state.idle) ++
        after.pending.filter (· ≠ state.idle) := by
  rcases step_take_or hinv hallowed hstep with
    ⟨head, callers, now, rfl, hstack, hexec⟩ | ⟨htaken, hdispatched, hafter⟩
  · have hnone : state.pending = [] := pending_of_stack hstack (by simp)
    rw [State.dispatched, hnone, List.filter_nil, List.nil_append, List.nil_append]
    exact (switchTake_pending hinv hstack hexec).1
  · rw [htaken, hdispatched, hafter, List.filter_nil]

/-- The idle thread is dispatched with an empty list. -/
theorem step_pending_idle {input : Input} (hinv : state.Invariant)
    (hallowed : Uninterrupted state input) (hstep : state.step input = some after)
    (hpending : after.idle ∈ after.pending) : after.ready = [] := by
  rcases step_take_or hinv hallowed hstep with
    ⟨head, callers, now, rfl, hstack, hexec⟩ | ⟨-, -, hafter⟩
  · rw [(exec_ready hexec).1] at hpending
    exact (switchTake_pending hinv hstack hexec).2 hpending
  · simp [hafter] at hpending

/-- The thread that was chosen is current afterwards. -/
theorem State.SwitchThread.current_eq (hswitch : state.SwitchThread after)
    (hstack : state.stack = .switchPick :: callers) :
    after.current = state.ready.head?.getD state.idle := by
  obtain ⟨read, picked, now, now', now'', hread, htake, hnext⟩ := hswitch
  simp only [State.step, hstack, Frame.exec, Option.some.injEq] at hread
  subst hread
  simp only [State.step] at htake
  obtain rfl := exec_switchTake_iff.mp htake
  by_cases hsame : state.ready.head?.getD state.idle = state.current
  · simp only [State.step, if_pos hsame] at hnext
    obtain ⟨-, rfl⟩ := exec_switchRearm_iff.mp hnext
    exact hsame.symm
  · simp only [State.step, if_neg hsame] at hnext
    obtain rfl := Option.some.inj hnext
    rfl

end Steps

/-! ## Whole runs -/

section Runs

variable {start state : State} {taken dispatched : List ThreadPtr}

/-- First in, first out. -/
theorem Dispatches.fifo {allowed : State → Input → Prop}
    (hrun : Dispatches allowed start taken dispatched state) :
    state.idle = start.idle ∧
      ∃ added, start.ready ++ added = taken ++ state.ready := by
  induction hrun with
  | refl => exact ⟨rfl, [], List.append_nil _⟩
  | step _ _ hstep ih =>
      obtain ⟨hidle, added, hadded⟩ := ih
      obtain ⟨hidle', added', hadded'⟩ := step_ready hstep
      refine ⟨hidle'.trans hidle, added ++ added', ?_⟩
      rw [← List.append_assoc, hadded, List.append_assoc, hadded', List.append_assoc]

/-- The threads that are taken are the threads that are dispatched, in the same
order, apart from the idle thread. -/
theorem Dispatches.taken_eq (hinv : start.Invariant)
    (hrun : Dispatches Uninterrupted start taken dispatched state) :
    start.pending.filter (· ≠ start.idle) ++ taken =
      dispatched.filter (· ≠ start.idle) ++ state.pending.filter (· ≠ start.idle) := by
  induction hrun with
  | refl => simp
  | @step state after input taken dispatched hbefore hallowed hstep ih =>
      have hstate : state.Invariant := hbefore.runsTo.keeps hinv
        fun _ _ _ hinv hallowed hstep => step_invariant hinv hallowed hstep
      have hpending := step_pending hstate hallowed hstep
      rw [hbefore.fifo.1] at hpending
      calc
        start.pending.filter (· ≠ start.idle) ++ (taken ++ state.taken input) =
            dispatched.filter (· ≠ start.idle) ++
              (state.pending.filter (· ≠ start.idle) ++ state.taken input) := by
          rw [← List.append_assoc, ih, List.append_assoc]
        _ = (dispatched ++ state.dispatched input).filter (· ≠ start.idle) ++
              after.pending.filter (· ≠ start.idle) := by
          rw [hpending, List.filter_append, List.append_assoc]

theorem Frame.Expects.arranged {frame : Frame} {callers : List Frame}
    (hexpects : frame.Expects callers state) : ∃ role, state.Arranged role := by
  cases frame with
  | panic => exact hexpects.elim
  | handleTest _ | handleArm _ | handleRemove _ | switchRearm | switchEnqueue | sleepLock _
  | sleepEnqueue _ | sleepUnlock => exact ⟨_, hexpects.1⟩
  | handleCallback _ =>
      rcases hexpects with ⟨-, harranged, -⟩ | ⟨-, harranged, -⟩ <;> exact ⟨_, harranged⟩
  | switchPick =>
      rcases hexpects with ⟨harranged, -⟩ | ⟨harranged, -⟩ <;> exact ⟨_, harranged⟩
  | switchTake _ =>
      rcases hexpects.2 with ⟨harranged, -⟩ | ⟨harranged, -⟩ <;> exact ⟨_, harranged⟩
  | wakeStatus _ => exact ⟨_, hexpects.2.1⟩
  | wakeAdd _ => exact ⟨_, hexpects.2.2.1⟩
  | switchCurrent _ _ | switchStatus _ _ =>
      obtain ⟨-, -, role, -, harranged⟩ := hexpects
      exact ⟨_, harranged⟩
  | switchContext _ _ =>
      obtain ⟨-, -, -, role, -, harranged⟩ := hexpects
      exact ⟨_, harranged⟩
  | rescheduleLock _ | rescheduleRequeue _ =>
      obtain ⟨-, role, -, harranged⟩ := hexpects
      exact ⟨_, harranged⟩
  | _ => exact ⟨_, hexpects⟩

/-- Whatever the scheduler is doing, a listed thread is listed once and is not the
idle thread. -/
theorem State.Arranged.listed_once {role : ThreadPtr → Role} {thread : ThreadPtr}
    (harranged : state.Arranged role) (hmem : thread ∈ state.ready) :
    state.ready.count thread = 1 ∧ Ordinary state.queue.created state.idle thread := by
  have hlisted : (state.place thread).listed ≠ 0 := (List.count_pos_iff.mpr hmem).ne'
  have hplace := harranged thread
  cases hrole : role thread with
  | resting =>
      rw [hrole] at hplace
      obtain ⟨hordinary, hone, -⟩ := Resting.of_listed hplace hlisted
      exact ⟨hone, hordinary⟩
  | picked =>
      rw [hrole] at hplace
      exact absurd hplace.2.2.1 hlisted
  | _ =>
      rw [hrole] at hplace
      exact absurd hplace.2.1 hlisted

/-- A thread that is about to be dispatched is not on the list. -/
theorem State.Invariant.pending_not_listed {thread : ThreadPtr} (hinv : state.Invariant)
    (hpending : thread ∈ state.pending) : thread ∉ state.ready := by
  unfold State.pending at hpending
  split at hpending
  · rename_i this next callers hstack
    obtain rfl := List.mem_singleton.mp hpending
    obtain ⟨-, hne, role, -, harranged⟩ := (hinv.control.expects hstack).1
    have hpicked := harranged.role_right hne
    exact List.count_eq_zero.mp hpicked.2.2.1
  · simp at hpending

theorem pending_eq {thread : ThreadPtr} (hpending : thread ∈ state.pending) :
    state.pending = [thread] ∧
      ∃ this callers, state.stack = .switchCurrent this thread :: callers := by
  unfold State.pending at hpending ⊢
  split at hpending
  · rename_i this next callers hstack
    obtain rfl := List.mem_singleton.mp hpending
    exact ⟨rfl, this, callers, hstack⟩
  · simp at hpending

/-- A listed thread is dispatched before the thread that is being dispatched is
dispatched again. -/
theorem Dispatches.mem_dispatched {after again : State} {now : ℕ} {thread waiting : ThreadPtr}
    (hinv : state.Invariant) (hidle : state.idle ∈ state.pending → state.ready = [])
    (hthread : thread ∈ state.pending) (hwaiting : waiting ∈ state.ready)
    (hstep : state.step (.run now) = some after)
    (hrun : Dispatches Uninterrupted after taken dispatched again)
    (hagain : thread ∈ again.pending) : waiting ∈ dispatched := by
  obtain ⟨-, this, callers, hstack⟩ := pending_eq hthread
  have hafterInv : after.Invariant := step_invariant hinv (by simp [Uninterrupted]) hstep
  simp only [State.step, hstack, Frame.exec, Option.some.injEq] at hstep
  have hready : after.ready = state.ready := hstep ▸ rfl
  have hnone : after.pending = [] := hstep ▸ rfl
  have hafterIdle : after.idle = state.idle := hstep ▸ rfl
  have hne : thread ≠ state.idle := by
    rintro rfl
    simp [hidle hthread] at hwaiting
  have hunlisted := hinv.pending_not_listed hthread
  obtain ⟨-, added, hfifo⟩ := hrun.fifo
  have htaken := hrun.taken_eq hafterInv
  rw [hnone, (pending_eq hagain).1, hafterIdle, List.filter_nil, List.nil_append,
    List.filter_singleton, decide_eq_true hne, cond_true] at htaken
  rw [htaken, hready, List.append_assoc] at hfifo
  -- The list is used up before the thread comes round again.
  rcases List.append_eq_append_iff.mp hfifo with ⟨rest, hrest, -⟩ | ⟨rest, hrest, hsplit⟩
  · have hmem : waiting ∈ dispatched.filter (· ≠ state.idle) := by
      rw [hrest]
      exact List.mem_append_left _ hwaiting
    exact (List.mem_filter.mp hmem).1
  · cases rest with
    | nil =>
        rw [List.append_nil] at hrest
        rw [hrest] at hwaiting
        exact (List.mem_filter.mp hwaiting).1
    | cons first rest =>
        obtain rfl : thread = first := (List.cons.inj hsplit).1
        exact absurd (by simp [hrest]) hunlisted

/-- Nothing happens on an empty stack. -/
theorem Dispatches.eq_of_nil (hrun : Dispatches Uninterrupted start taken dispatched state)
    (hstack : start.stack = []) : state = start := by
  induction hrun with
  | refl => rfl
  | @step state after input _ _ _ hallowed hstep ih =>
      subst ih
      cases input with
      | run now => simp [State.step, hstack] at hstep
      | sleep time => simp [State.step, hstack] at hstep
      | interrupt => simpa [hstack] using hallowed rfl

/-- A thread waits for exactly the threads before it. -/
theorem Dispatches.current_at_position {picking : State} {position : ℕ} {thread : ThreadPtr}
    (hinv : start.Invariant) (hposition : start.ready[position]? = some thread)
    (hrun : Dispatches Uninterrupted start taken dispatched picking)
    (htaken : taken.length = position) (hpick : picking.stack.head? = some .switchPick) :
    thread ∉ dispatched ∧ ∀ after, picking.SwitchThread after → after.current = thread := by
  obtain ⟨frame, callers, hstack⟩ : ∃ frame callers, start.stack = frame :: callers := by
    cases hstack : start.stack with
    | nil => simp [hrun.eq_of_nil hstack, hstack] at hpick
    | cons frame callers => exact ⟨frame, callers, rfl⟩
  obtain ⟨role, harranged⟩ := (hinv.control.expects hstack).1.arranged
  have hmem : thread ∈ start.ready := List.mem_of_getElem? hposition
  obtain ⟨hcount, hordinary⟩ := harranged.listed_once hmem
  obtain ⟨-, added, hfifo⟩ := hrun.fifo
  have hlt : position < start.ready.length := (List.getElem?_eq_some_iff.mp hposition).1
  constructor
  · intro hdispatched
    have hboth : thread ∈ start.pending.filter (· ≠ start.idle) ++ taken := by
      rw [hrun.taken_eq hinv]
      exact List.mem_append_left _ (List.mem_filter.mpr ⟨hdispatched, by simpa using hordinary.not_idle⟩)
    rcases List.mem_append.mp hboth with hpending | hbefore
    · exact hinv.pending_not_listed (List.mem_filter.mp hpending).1 hmem
    · have htake : taken = start.ready.take position := by
        rw [← htaken, ← List.take_append_of_le_length (by omega), hfifo,
          List.take_left]
      rw [← List.take_append_drop position start.ready, List.count_append, ← htake,
        List.drop_eq_getElem_cons hlt] at hcount
      have hself : start.ready[position] = thread :=
        (List.getElem?_eq_some_iff.mp hposition).2
      rw [hself, List.count_cons_self] at hcount
      have hpositive := List.count_pos_iff.mpr hbefore
      omega
  · intro after hswitch
    obtain ⟨callers', hpicking⟩ := List.head?_eq_some_iff.mp hpick
    have hhead : picking.ready.head? = some thread := by
      rw [List.head?_eq_getElem?]
      have hboth := congrArg (fun threads => threads[position]?) hfifo
      simp only [List.getElem?_append_left hlt, hposition,
        List.getElem?_append_right htaken.le, htaken, Nat.sub_self] at hboth
      exact hboth.symm
    rw [hswitch.current_eq hpicking, hhead, Option.getD_some]

end Runs

theorem pending_idle_of_runsTo {count calibration : ℕ} {state : State}
    (hrun : RunsTo Uninterrupted (State.schedInit count calibration) state)
    (hpending : state.idle ∈ state.pending) : state.ready = [] := by
  cases hrun with
  | refl =>
      have hstack := (created_iterate count calibration).stack
      obtain ⟨-, this, callers, hpicked⟩ := pending_eq hpending
      simp only [State.schedInit] at hpicked
      rcases enqueueEvent_cases _ _ with heq | ⟨queue, heq⟩ <;> rw [heq] at hpicked
      · simp [State.kpanic] at hpicked
      · simp [hstack] at hpicked
  | step hbefore hallowed hstep =>
      exact step_pending_idle (invariant_of_runsTo hbefore) hallowed hstep hpending

/-- Threads take turns.  If a thread is dispatched while another one is listed, the
listed one is dispatched before it is dispatched again.  A listed thread with
`position` threads before it is not dispatched by the next `position` calls of
`switch_thread` that take a thread, and it is made current by the call after them. -/
theorem round_robin {count calibration : ℕ} {state : State}
    (hrun : RunsTo Uninterrupted (State.schedInit count calibration) state) :
    (∀ thread waiting now after taken dispatched again,
      thread ∈ state.pending → waiting ∈ state.ready →
        state.step (.run now) = some after →
          Dispatches Uninterrupted after taken dispatched again →
            thread ∈ again.pending → waiting ∈ dispatched) ∧
    (∀ position thread taken dispatched picking,
      state.ready[position]? = some thread →
        Dispatches Uninterrupted state taken dispatched picking →
          taken.length = position → picking.stack.head? = some .switchPick →
            thread ∉ dispatched ∧
              ∀ after, picking.SwitchThread after → after.current = thread) := by
  have hinv := invariant_of_runsTo hrun
  constructor
  · intro thread waiting now after taken dispatched again hthread hwaiting hstep hlater hagain
    exact hlater.mem_dispatched hinv (pending_idle_of_runsTo hrun) hthread hwaiting hstep
      hagain
  · intro position thread taken dispatched picking hposition hlater htaken hpick
    exact hlater.current_at_position hinv hposition htaken hpick

/-- Three threads.  Thread 2 is dispatched while 3 and 4 are listed: 3 is dispatched
before 2 is dispatched again.  Thread 4 has 3 before it: once 3 has been taken, the next
call of `switch_thread` makes 4 current. -/
theorem round_robin_three_threads :
    ∃ state, RunsTo Uninterrupted (State.schedInit 3 100000) state ∧ state.pending = [2] ∧
      state.ready = [3, 4] ∧
        (∃ after taken dispatched again, state.step (.run 10) = some after ∧
          Dispatches Uninterrupted after taken dispatched again ∧ again.pending = [2] ∧
            3 ∈ dispatched) ∧
        ∃ dispatched picking after,
          Dispatches Uninterrupted state [3] dispatched picking ∧ 4 ∉ dispatched ∧
            picking.SwitchThread after ∧ after.current = 4 := by
  let toPicking : List Input := List.replicate 12 (.run 10) ++ .interrupt ::
    (List.replicate 20 (.run 3100000) ++ .interrupt :: List.replicate 5 (.run 6200000))
  let toAgain : List Input := toPicking ++
    (List.replicate 15 (.run 6200000) ++ .interrupt :: List.replicate 7 (.run 9300000))
  have hinputs : (do
      let state ← (State.schedInit 3 100000).runInputs Uninterrupted
        (List.replicate 7 (.run 10))
      let after ← state.step (.run 10)
      let (taken, dispatched, again) ← toAgain.foldlM dispatchInput ([], [], after)
      let (taken', dispatched', picking) ←
        (.run 10 :: toPicking).foldlM dispatchInput ([], [], state)
      let read ← picking.step (.run 6200000)
      let chosen ← read.step (.run 6200000)
      let switched ← chosen.step (.run 6200000)
      some (state.pending, state.ready, again.pending, taken', picking.stack.head?)) =
        some ([2], [3, 4], [2], [3], some .switchPick) := by
    decide +kernel
  simp only [Option.bind_eq_bind, Option.bind_eq_some_iff, Option.some.injEq,
    Prod.mk.injEq] at hinputs
  obtain ⟨state, hstate, after, hstep, ⟨taken, dispatched, again⟩, hagain,
    ⟨taken', dispatched', picking⟩, hpicking, read, hread, chosen, hchosen, switched,
    hswitched, hpending, hready, hpendingAgain, htaken, hhead⟩ := hinputs
  have hrun := runsTo_of_runInputs Uninterrupted hstate
  have hlater := Dispatches.refl.dispatchInputs hagain
  have hbefore := Dispatches.refl.dispatchInputs hpicking
  have hswitch : picking.SwitchThread switched :=
    ⟨read, chosen, _, _, _, hread, hchosen, hswitched⟩
  simp only at hpendingAgain htaken hhead
  subst htaken
  obtain ⟨hturn, hposition⟩ := round_robin hrun
  obtain ⟨hnot, hcurrent⟩ := hposition 1 4 [3] dispatched' picking (by rw [hready]; rfl)
    hbefore rfl hhead
  refine ⟨state, hrun, hpending, hready, ⟨after, taken, dispatched, again, hstep, hlater,
    hpendingAgain, ?_⟩, dispatched', picking, switched, hbefore, hnot, hswitch,
    hcurrent switched hswitch⟩
  exact hturn 2 3 10 after taken dispatched again (by simp [hpending]) (by simp [hready])
    hstep hlater (by simp [hpendingAgain])

end Flurry.Sched
