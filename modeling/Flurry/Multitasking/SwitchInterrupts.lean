import Flurry.Multitasking.ThreadPlacement

/-!
# Interrupts inside `switch_thread`

`thread_sleep` calls `switch_thread` with interrupts enabled, and so does a
`handle_next_event` that has gone on after a switch.  A timer interrupt that arrives
before `current_thread` is assigned finds no quantum in the queue: the event of the
running thread has been taken out, or has become its wake-up call.  So the handler
wakes threads and returns, and it never calls `unlock_scheduler`, which alone would let
another interrupt in.
-/

namespace Flurry.Sched

open ByteMemory Events

/-! ## Handlers -/

/-- The clock readings that the loop of `handle_next_event` compares with. -/
def Frame.testReading (now : ℕ) : Frame → List ℕ
  | handleTest _ => [now]
  | _ => []

/-- Run until a control point of the given kind has been executed.  There is one clock
value for each step.  The result is what the loop of `handle_next_event` read and the
state. -/
def State.runUntil (last : Frame → Bool) (state : State) :
    List ℕ → Option (List ℕ × State)
  | [] => none
  | now :: nows =>
      match state.stack with
      | [] => none
      | frame :: _ => do
          let after ← state.step (.run now)
          if last frame then
            if nows = [] then some ([], after) else none
          else
            let (readings, final) ← after.runUntil last nows
            some (frame.testReading now ++ readings, final)

def Frame.isInterruptReturn : Frame → Bool
  | interruptReturn _ => true
  | _ => false

/-- A timer interrupt is taken and its handler returns. -/
def State.Handles (state : State) (readings : List ℕ) (after : State) : Prop :=
  ∃ interrupted nows, state.step .interrupt = some interrupted ∧
    interrupted.runUntil Frame.isInterruptReturn nows = some (readings, after)

/-- Any number of interrupts arrive at one control point. -/
inductive State.HandlesAll : State → List ℕ → State → Prop where
  | none {state : State} : HandlesAll state [] state
  | more {state middle after : State} {first rest : List ℕ}
      (hfirst : state.Handles first middle) (hrest : HandlesAll middle rest after) :
      HandlesAll state (first ++ rest) after

/-- Interrupts with the clock values for the steps of each handler. -/
def State.handleAll (state : State) : List (List ℕ) → Option (List ℕ × State)
  | [] => some ([], state)
  | nows :: interrupts => do
      let interrupted ← state.step .interrupt
      let (first, middle) ← interrupted.runUntil Frame.isInterruptReturn nows
      let (rest, after) ← middle.handleAll interrupts
      some (first ++ rest, after)

theorem handlesAll_of_handleAll {state after : State} {interrupts : List (List ℕ)}
    {readings : List ℕ} (hhandle : state.handleAll interrupts = some (readings, after)) :
    state.HandlesAll readings after := by
  induction interrupts generalizing state readings with
  | nil =>
      obtain ⟨rfl, rfl⟩ := Prod.mk.inj (Option.some.inj hhandle)
      exact .none
  | cons nows interrupts ih =>
      simp only [State.handleAll, Option.bind_eq_bind, Option.bind_eq_some_iff] at hhandle
      obtain ⟨interrupted, hstep, ⟨first, middle⟩, hfirst, ⟨rest, after'⟩, hrest, hpair⟩ :=
        hhandle
      obtain ⟨rfl, rfl⟩ := Prod.mk.inj (Option.some.inj hpair)
      exact .more ⟨interrupted, nows, hstep, hfirst⟩ (ih hrest)

/-- The events a loop takes out of the queue: each one is compared with a new
reading of the clock. -/
def drained : Schedule → List ℕ → List EventPtr
  | (event, time) :: schedule, now :: readings =>
      if now < time then [] else event :: drained schedule readings
  | _, _ => []

/-- Some reading of the clock finds the earliest event due. -/
def SomeDue (schedule : Schedule) (readings : List ℕ) : Prop :=
  ∃ entry ∈ schedule.head?, ∃ reading ∈ readings, entry.2 ≤ reading

theorem someDue_append {schedule : Schedule} {first rest : List ℕ} :
    SomeDue schedule (first ++ rest) ↔ SomeDue schedule first ∨ SomeDue schedule rest := by
  simp only [SomeDue, List.mem_append, or_and_right, exists_or, and_or_left]

theorem someDue_of_drained {schedule : Schedule} {readings : List ℕ}
    (hdrained : drained schedule readings ≠ []) : SomeDue schedule readings := by
  cases schedule with
  | nil => simp [drained] at hdrained
  | cons entry schedule =>
      cases readings with
      | nil => simp [drained] at hdrained
      | cons now readings =>
          refine ⟨entry, rfl, now, List.mem_cons_self .., ?_⟩
          by_contra hlater
          simp [drained, not_le.mp hlater] at hdrained

section RunUntil

variable {last : Frame → Bool} {state final : State} {frame : Frame} {callers : List Frame}
variable {nows readings : List ℕ}

/-- One step before the end. -/
theorem runUntil_step (hstack : state.stack = frame :: callers)
    (hframe : last frame = false)
    (hrun : state.runUntil last nows = some (readings, final)) :
    ∃ now nows' readings' after, nows = now :: nows' ∧
      frame.exec callers state now = some after ∧
        after.runUntil last nows' = some (readings', final) ∧
          readings = frame.testReading now ++ readings' := by
  cases nows with
  | nil => simp [State.runUntil] at hrun
  | cons now nows =>
      simp only [State.runUntil, hstack, hframe, Option.bind_eq_bind,
        Option.bind_eq_some_iff, Bool.false_eq_true, if_false, Option.some.injEq,
        Prod.mk.injEq] at hrun
      obtain ⟨after, hstep, ⟨readings', final'⟩, hrest, hreadings, hfinal⟩ := hrun
      simp only at hreadings hfinal
      subst hfinal
      simp only [State.step, hstack] at hstep
      exact ⟨now, nows, readings', after, rfl, hstep, hrest, hreadings.symm⟩

/-- The last step. -/
theorem runUntil_last (hstack : state.stack = frame :: callers)
    (hframe : last frame = true)
    (hrun : state.runUntil last nows = some (readings, final)) :
    readings = [] ∧ ∃ now, frame.exec callers state now = some final := by
  cases nows with
  | nil => simp [State.runUntil] at hrun
  | cons now nows =>
      simp only [State.runUntil, hstack, hframe, Option.bind_eq_bind,
        Option.bind_eq_some_iff, if_true, Option.ite_none_right_eq_some,
        Option.some.injEq, Prod.mk.injEq] at hrun
      obtain ⟨after, hstep, -, hreadings, rfl⟩ := hrun
      simp only [State.step, hstack] at hstep
      exact ⟨hreadings.symm, now, hstep⟩

theorem runUntil_panic (hlast : last .panic = false) (hstack : state.stack = [.panic]) :
    state.runUntil last nows = none := by
  induction nows with
  | nil => rfl
  | cons now nows ih =>
      simp [State.runUntil, State.step, hstack, Frame.exec, hlast, ih]

/-- What every step keeps up to the last one. -/
theorem runUntil_keeps {property goal : State → Prop} (hpanic : last .panic = false)
    (hkeeps : ∀ {state after : State} {frame : Frame} {callers : List Frame} {now : ℕ},
      property state → state.stack = frame :: callers → last frame = false →
        frame.exec callers state now = some after →
          property after ∨ after.stack = [.panic])
    (hlast : ∀ {state final : State} {frame : Frame} {callers : List Frame} {now : ℕ},
      property state → state.stack = frame :: callers → last frame = true →
        frame.exec callers state now = some final → goal final)
    (hstate : property state) (hrun : state.runUntil last nows = some (readings, final)) :
    goal final := by
  induction nows generalizing state readings with
  | nil => simp [State.runUntil] at hrun
  | cons now nows ih =>
      cases hstack : state.stack with
      | nil => simp [State.runUntil, hstack] at hrun
      | cons frame callers =>
          cases hframe : last frame with
          | true =>
              obtain ⟨-, now, hexec⟩ := runUntil_last hstack hframe hrun
              exact hlast hstate hstack hframe hexec
          | false =>
              obtain ⟨_, _, readings', after, hnows, hexec, hrest, -⟩ :=
                runUntil_step hstack hframe hrun
              obtain ⟨rfl, rfl⟩ := List.cons.inj hnows
              rcases hkeeps hstate hstack hframe hexec with hafter | hstopped
              · exact ih hafter hrest
              · rw [runUntil_panic hpanic hstopped] at hrest
                simp at hrest

end RunUntil

/-! ## What a handler does -/

/-- Such a thread has no event in the queue, unless it rests. -/
def Role.Quiet (role : Role) : Prop :=
  role = .resting ∨ role = .detached ∨ role = .picked

theorem Role.Quiet.resting {role : Role} {limit idle thread : ThreadPtr} {place : Place}
    {alarm : Alarm} (hquiet : role.Quiet) (hplace : role.Holds limit idle thread place)
    (halarm : place.alarm = some alarm) : role = .resting := by
  rcases hquiet with rfl | rfl | rfl
  · rfl
  · exact absurd (halarm.symm.trans hplace.2.2.2) (by simp)
  · exact absurd (halarm.symm.trans hplace.2.2.2.1) (by simp)

/-- A thread that sleeps rests. -/
theorem State.Arranged.rest {state : State} {roles roles' : ThreadPtr → Role}
    {thread : ThreadPtr} (harranged : state.Arranged roles) (hasleep : roles thread = .asleep)
    (hrest : roles' thread = .resting)
    (hothers : ∀ other, other ≠ thread → roles' other = roles other) :
    state.Arranged roles' := by
  apply harranged.change (Function.update_eq_self thread state.place).symm rfl rfl _ hothers
  have hplace := harranged thread
  rw [hasleep] at hplace
  obtain ⟨hordinary, hlisted, hstatus, hwake⟩ := hplace
  rw [hrest]
  exact Resting.asleep hordinary hlisted hwake hstatus

/-- Since the state `window`, handlers have put some threads on the list and done nothing
else. -/
structure State.Woke (window : State) (roles : ThreadPtr → Role) (woken : List ThreadPtr)
    (left : Schedule) (state : State) : Prop where
  sound : state.Sound
  quiet : ∀ thread, (roles thread).Quiet
  arranged : state.Arranged roles
  keeps : state.queue.Keeps left
  ready : state.ready = window.ready ++ woken
  current : state.current = window.current
  idle : state.idle = window.idle
  created : state.queue.created = window.queue.created

section Woke

variable {window state after final : State} {frame : Frame} {callers : List Frame}
variable {roles : ThreadPtr → Role} {woken : List ThreadPtr} {left : Schedule}
variable {nows readings : List ℕ} {flag : Bool}

theorem State.Woke.start (hsound : state.Sound) (hquiet : ∀ thread, (roles thread).Quiet)
    (harranged : state.Arranged roles) (hkeeps : state.queue.Keeps left) :
    State.Woke state roles [] left state :=
  ⟨hsound, hquiet, harranged, hkeeps, (List.append_nil _).symm, rfl, rfl, rfl⟩

theorem State.Woke.of_same (hwoke : State.Woke window roles woken left state)
    (hthreads : after.threads = state.threads) (hqueue : after.queue = state.queue)
    (hready : after.ready = state.ready) (hcurrent : after.current = state.current)
    (hidle : after.idle = state.idle) : State.Woke window roles woken left after where
  sound := hwoke.sound.of_same hthreads hqueue hidle
  quiet := hwoke.quiet
  arranged := by
    intro thread
    have hplace : after.place thread = state.place thread := by
      simp only [State.place, hthreads, hqueue, hready]
    rw [hqueue, hidle, hplace]
    exact hwoke.arranged thread
  keeps := hqueue ▸ hwoke.keeps
  ready := hready.trans hwoke.ready
  current := hcurrent.trans hwoke.current
  idle := hidle.trans hwoke.idle
  created := (congrArg EventQueue.created hqueue).trans hwoke.created

/-- A thread with an event in the queue sleeps. -/
theorem State.Woke.of_alarm {event : EventPtr} {alarm : Alarm}
    (hwoke : State.Woke window roles woken left state)
    (halarm : state.queue.alarm event = some alarm) :
    roles event = .resting ∧ Ordinary state.queue.created state.idle event ∧
      (state.place event).listed = 0 ∧ (state.place event).status = .sleeping ∧
        alarm.callback = some .threadWake ∧ alarm.arg = some event := by
  have hrole := (hwoke.quiet event).resting (hwoke.arranged event) halarm
  have hplace := hwoke.arranged event
  rw [hrole] at hplace
  exact ⟨hrole, Resting.of_alarm hplace halarm⟩

theorem State.Woke.wake {queue : EventQueue} {schedule : Schedule} {event : EventPtr}
    {alarm : Alarm} (hwoke : State.Woke window roles woken schedule state)
    (halarm : state.queue.alarm event = some alarm) (hkeeps : queue.Keeps left)
    (hcreated : queue.created = state.queue.created)
    (halarms : queue.alarm = Function.update state.queue.alarm event none) :
    State.Woke window roles (woken ++ [event]) left
      ((({ state with queue := queue } : State).setStatus event .ready).threadListAdd
        event) := by
  obtain ⟨hrole, hordinary, hlisted, -⟩ := hwoke.of_alarm halarm
  have hsound : ({ state with queue := queue } : State).Sound :=
    hwoke.sound.withQueue (fun _ => rfl) rfl hkeeps hcreated rfl
  have hplace : ((({ state with queue := queue } : State).setStatus event
      .ready).threadListAdd event).place =
        Function.update state.place event ⟨.ready, 1, none⟩ := by
    rw [place_threadListAdd, place_setStatus, place_queue halarms]
    simp [hlisted]
  constructor
  · exact (hsound.setStatus event .ready).of_same rfl rfl rfl
  · exact hwoke.quiet
  · apply hwoke.arranged.change hplace hcreated rfl _ fun _ _ => rfl
    rw [hrole]
    exact Resting.ready hordinary rfl rfl rfl
  · exact hkeeps
  · change state.ready ++ [event] = window.ready ++ (woken ++ [event])
    rw [hwoke.ready, List.append_assoc]
  · exact hwoke.current
  · exact hwoke.idle
  · exact hcreated.trans hwoke.created

/-- The first event is taken out and its thread is put on the list. -/
theorem handler_due {event : EventPtr} {time : ℕ}
    (hrun : state.runUntil Frame.isInterruptReturn nows = some (readings, final))
    (hstack : state.stack = .handleRemove event :: callers)
    (hwoke : State.Woke window roles woken ((event, time) :: left) state) :
    ∃ after nows', State.Woke window roles (woken ++ [event]) left after ∧
      after.stack = .handlePeek :: callers ∧
        after.runUntil Frame.isInterruptReturn nows' = some (readings, final) := by
  obtain ⟨alarm, halarm, -⟩ := hwoke.keeps.mem_iff.mp (List.mem_cons_self ..)
  obtain ⟨-, -, -, hstatus, hcallback, harg⟩ := hwoke.of_alarm halarm
  have hsleeping : (state.threads event).status = .sleeping := hstatus
  obtain ⟨queue, hremove, hkeeps, hcreated, halarms, hpayload⟩ := hwoke.keeps.remove_head
  obtain ⟨hwake, hthread⟩ := wakes_of_payload halarm (hpayload event) hcallback harg
  -- `event_remove`, the call of `thread_wake` and its two steps
  obtain ⟨_, _, _, removed, -, hexec, hremoved, rfl⟩ := runUntil_step hstack rfl hrun
  simp only [Frame.exec, hremove, Option.some.injEq] at hexec
  subst hexec
  obtain ⟨_, _, _, called, -, hexec, hcalled, rfl⟩ := runUntil_step rfl rfl hremoved
  simp only [Frame.exec, hwake, hthread, Option.some.injEq] at hexec
  subst hexec
  obtain ⟨_, _, _, readied, -, hexec, hreadied, rfl⟩ := runUntil_step rfl rfl hcalled
  simp only [Frame.exec, hsleeping, if_true, Option.some.injEq] at hexec
  subst hexec
  obtain ⟨_, nows', _, added, -, hexec, hadded, rfl⟩ := runUntil_step rfl rfl hreadied
  obtain rfl := Option.some.inj hexec
  refine ⟨_, nows', ?_, rfl, hadded⟩
  exact (hwoke.wake halarm hkeeps hcreated halarms).of_same rfl rfl rfl rfl rfl

theorem handler_return
    (hrun : state.runUntil Frame.isInterruptReturn nows = some (readings, final))
    (hstack : state.stack = .interruptReturn flag :: callers)
    (hwoke : State.Woke window roles woken left state) :
    readings = [] ∧ final.stack = callers ∧ State.Woke window roles woken left final := by
  obtain ⟨hreadings, now, hexec⟩ := runUntil_last hstack rfl hrun
  obtain rfl := Option.some.inj hexec
  exact ⟨hreadings, rfl, hwoke.of_same rfl rfl rfl rfl rfl⟩

/-- After its loop the handler arms the timer and returns. -/
theorem handler_next
    (hrun : state.runUntil Frame.isInterruptReturn nows = some (readings, final))
    (hstack : state.stack = .handleNext :: .interruptReturn flag :: callers)
    (hwoke : State.Woke window roles woken left state) :
    readings = [] ∧ final.stack = callers ∧ State.Woke window roles woken left final := by
  obtain ⟨_, _, _, peeked, -, hexec, hpeeked, rfl⟩ := runUntil_step hstack rfl hrun
  have hpeek := hwoke.keeps.peekNext
  cases left with
  | nil =>
      simp only [Frame.exec, hpeek, List.head?_nil, Option.map_none,
        Option.some.injEq] at hexec
      subst hexec
      exact handler_return hpeeked rfl (hwoke.of_same rfl rfl rfl rfl rfl)
  | cons entry left =>
      simp only [Frame.exec, hpeek, List.head?_cons, Option.map_some,
        Option.some.injEq] at hexec
      subst hexec
      obtain ⟨_, _, _, armed, -, hexec, harmed, rfl⟩ := runUntil_step rfl rfl hpeeked
      obtain ⟨-, rfl⟩ := exec_handleArm_iff.mp hexec
      exact handler_return harmed rfl (hwoke.of_same rfl rfl rfl rfl rfl)

/-- The loop of the handler wakes the threads whose events are due. -/
theorem handler_loop
    (hrun : state.runUntil Frame.isInterruptReturn nows = some (readings, final))
    (hstack : state.stack = .handlePeek :: .interruptReturn flag :: callers)
    (hwoke : State.Woke window roles woken left state) :
    ∃ left', final.stack = callers ∧
      State.Woke window roles (woken ++ drained left readings) left' final ∧
        (drained left readings = [] → left' = left ∧ ¬SomeDue left readings) := by
  induction left generalizing state woken nows readings with
  | nil =>
      obtain ⟨_, _, _, peeked, -, hexec, hpeeked, rfl⟩ := runUntil_step hstack rfl hrun
      simp only [Frame.exec, hwoke.keeps.peekNext, List.head?_nil, Option.map_none,
        Option.some.injEq] at hexec
      subst hexec
      obtain ⟨rfl, hcallers, hfinal⟩ :=
        handler_next hpeeked rfl (hwoke.of_same rfl rfl rfl rfl rfl)
      refine ⟨[], hcallers, ?_, fun _ => ⟨rfl, by simp [SomeDue]⟩⟩
      simpa [drained] using hfinal
  | cons entry left ih =>
      obtain ⟨event, time⟩ := entry
      obtain ⟨_, _, _, peeked, -, hexec, hpeeked, rfl⟩ := runUntil_step hstack rfl hrun
      simp only [Frame.exec, hwoke.keeps.peekNext, List.head?_cons, Option.map_some,
        Option.some.injEq] at hexec
      subst hexec
      obtain ⟨alarm, halarm, rfl⟩ := hwoke.keeps.mem_iff.mp (List.mem_cons_self ..)
      have htime : (state.queue.events event).time = alarm.time :=
        congrArg Alarm.time (alarm_eq_some halarm)
      obtain ⟨now, _, readings', tested, -, hexec, htested, rfl⟩ :=
        runUntil_step rfl rfl hpeeked
      obtain ⟨-, ⟨hdue, rfl⟩ | ⟨hdue, rfl⟩⟩ := exec_handleTest_iff.mp hexec
      · obtain ⟨rfl, hcallers, hfinal⟩ :=
          handler_next htested rfl (hwoke.of_same rfl rfl rfl rfl rfl)
        have hlater : now < alarm.time := htime ▸ hdue
        refine ⟨(event, alarm.time) :: left, hcallers, ?_, fun _ => ⟨rfl, ?_⟩⟩
        · simpa [Frame.testReading, drained, hlater] using hfinal
        · simpa [Frame.testReading, SomeDue] using hlater
      · obtain ⟨after, nows', hafter, hcallers, hrest⟩ :=
          handler_due htested rfl (hwoke.of_same rfl rfl rfl rfl rfl)
        obtain ⟨left', hcallers, hfinal, -⟩ := ih hrest hcallers hafter
        have hpast : alarm.time ≤ now := htime ▸ hdue
        refine ⟨left', hcallers, ?_, ?_⟩
        · simpa [Frame.testReading, drained, hpast.not_gt] using hfinal
        · simp [Frame.testReading, drained, hpast.not_gt]

/-- One interrupt. -/
theorem State.Handles.woke (hhandles : state.Handles readings final)
    (hwoke : State.Woke window roles woken left state) :
    ∃ left', final.stack = state.stack ∧
      State.Woke window roles (woken ++ drained left readings) left' final ∧
        (drained left readings = [] → left' = left ∧ ¬SomeDue left readings) := by
  obtain ⟨interrupted, nows, hinterrupt, hrun⟩ := hhandles
  rw [State.step, Option.ite_none_right_eq_some] at hinterrupt
  obtain rfl := Option.some.inj hinterrupt.2
  obtain ⟨_, _, _, entered, -, hexec, hentered, rfl⟩ := runUntil_step rfl rfl hrun
  obtain rfl := Option.some.inj hexec
  exact handler_loop hentered rfl (hwoke.of_same rfl rfl rfl rfl rfl)

/-- All interrupts at one control point: they wake a thread exactly if one of them finds
the earliest event due. -/
theorem State.HandlesAll.woke (hhandles : state.HandlesAll readings final)
    (hwoke : State.Woke window roles woken left state) :
    ∃ more left', final.stack = state.stack ∧
      State.Woke window roles (woken ++ more) left' final ∧ (more = [] → left' = left) ∧
        (more ≠ [] ↔ SomeDue left readings) := by
  induction hhandles generalizing woken left with
  | none =>
      refine ⟨[], left, rfl, ?_, fun _ => rfl, by simp [SomeDue]⟩
      rwa [List.append_nil]
  | @more _ _ _ first rest hfirst _ ih =>
      obtain ⟨left₁, hstack₁, hwoke₁, hnone₁⟩ := hfirst.woke hwoke
      obtain ⟨more, left₂, hstack₂, hwoke₂, hsame₂, hdue₂⟩ := ih hwoke₁
      refine ⟨_, left₂, hstack₂.trans hstack₁, List.append_assoc .. ▸ hwoke₂, ?_, ?_⟩
      · intro hnil
        obtain ⟨hnil₁, hnil₂⟩ := List.append_eq_nil_iff.mp hnil
        exact (hsame₂ hnil₂).trans (hnone₁ hnil₁).1
      · rw [someDue_append, ne_eq, List.append_eq_nil_iff, not_and_or]
        by_cases hnil₁ : drained left first = []
        · obtain ⟨rfl, hnot⟩ := hnone₁ hnil₁
          simp only [hnil₁, not_true_eq_false, false_or, hnot]
          exact hdue₂
        · exact iff_of_true (Or.inl hnil₁) (Or.inl (someDue_of_drained hnil₁))

end Woke

end Flurry.Sched
