import Flurry.Multitasking.SleepOrder
import Flurry.Multitasking.TimerArming

/-!
# `handle_next_event` while the clock stands still

The loop takes one due event after another out of the queue and wakes its thread.
If the quantum of the running thread is not over, no other callback is called, and
the handler returns after it has armed the timer for the first event that is left.
-/

namespace Flurry.Sched

open ByteMemory Events Lapic

/-! ## Calls that return -/

/-- Run with a clock that stands still until no more than `depth` control points are
left on the stack. -/
def State.runCall (now depth : ℕ) : ℕ → State → Option State
  | 0, _ => none
  | fuel + 1, state =>
      if state.stack.length ≤ depth then some state
      else (state.step (.run now)).bind (State.runCall now depth fuel)

/-- The call on top of `depth` control points returns. -/
def State.Returns (state : State) (now depth : ℕ) (final : State) : Prop :=
  ∃ fuel, State.runCall now depth fuel state = some final

section Returns

variable {state after final : State} {frame : Frame} {callers : List Frame}
variable {now depth : ℕ}

theorem returns_self (hstack : state.stack.length ≤ depth) :
    state.Returns now depth state :=
  ⟨1, by rw [State.runCall, if_pos hstack]⟩

theorem State.Returns.step (hreturns : after.Returns now depth final)
    (hstack : state.stack = frame :: callers) (hdepth : depth ≤ callers.length)
    (hexec : frame.exec callers state now = some after) :
    state.Returns now depth final := by
  obtain ⟨fuel, hfuel⟩ := hreturns
  have hlong : ¬state.stack.length ≤ depth := by
    rw [hstack, List.length_cons]
    exact not_le.mpr (Nat.lt_succ_of_le hdepth)
  refine ⟨fuel + 1, ?_⟩
  rw [State.runCall, if_neg hlong, State.step, hstack]
  simp only [hexec, Option.bind_some, hfuel]

end Returns

/-! ## The loop -/

/-- What waking some threads does. -/
structure State.Woken (before after : State) (woken : List ThreadPtr) : Prop where
  ready : after.ready = before.ready ++ woken
  status : ∀ thread ∈ woken, (after.threads thread).status = .ready
  threads : ∀ thread, thread ∉ woken → after.threads thread = before.threads thread
  alarm : ∀ event, after.queue.alarm event =
    if event ∈ woken then none else before.queue.alarm event
  current : after.current = before.current
  calibration : after.calibration = before.calibration

section Loop

variable {state after : State} {callers : List Frame} {now : ℕ}

theorem woken_nil (hready : after.ready = state.ready)
    (hthreads : after.threads = state.threads) (hqueue : after.queue = state.queue)
    (hcurrent : after.current = state.current)
    (hcalibration : after.calibration = state.calibration) : state.Woken after [] where
  ready := by rw [hready, List.append_nil]
  status := fun thread hmem => absurd hmem List.not_mem_nil
  threads := fun thread _ => by rw [hthreads]
  alarm := fun event => by rw [hqueue, if_neg List.not_mem_nil]
  current := hcurrent
  calibration := hcalibration

theorem State.Woken.trans {middle : State} {first second : List ThreadPtr}
    (hfirst : state.Woken middle first) (hsecond : middle.Woken after second) :
    state.Woken after (first ++ second) where
  ready := by rw [hsecond.ready, hfirst.ready, List.append_assoc]
  status := by
    intro thread hmem
    by_cases hmem' : thread ∈ second
    · exact hsecond.status thread hmem'
    · rw [hsecond.threads thread hmem']
      exact hfirst.status thread ((List.mem_append.mp hmem).resolve_right hmem')
  threads := by
    intro thread hmem
    rw [List.mem_append, not_or] at hmem
    rw [hsecond.threads thread hmem.2, hfirst.threads thread hmem.1]
  alarm := by
    intro event
    rw [hsecond.alarm, hfirst.alarm]
    by_cases hmem : event ∈ first <;> by_cases hmem' : event ∈ second <;> simp [hmem, hmem']
  current := hsecond.current.trans hfirst.current
  calibration := hsecond.calibration.trans hfirst.calibration

/-- One round of the loop: the first event is due, and its thread is woken. -/
theorem wake_first {event : EventPtr} {time : ℕ} {left : Schedule} (hinv : state.Invariant)
    (hstack : state.stack = .handlePeek :: callers)
    (hkeeps : state.queue.Keeps ((event, time) :: left)) (hclock : state.clock ≤ now)
    (hword : now < 2 ^ 64) (hdue : time ≤ now) (hevent : event ≠ state.current) :
    ∃ after : State, after.Invariant ∧ after.stack = .handlePeek :: callers ∧
      after.queue.Keeps left ∧ after.clock = now ∧ state.Woken after [event] ∧
        ∀ final, after.Returns now callers.length final →
          state.Returns now callers.length final := by
  obtain ⟨alarm, halarm, rfl⟩ := hkeeps.mem_iff.mp (List.mem_cons_self ..)
  have harranged : state.Arranged (only state.current .running) :=
    (hinv.control.expects hstack).1
  obtain ⟨-, -, -, hstatus, hcallback, harg⟩ :=
    (harranged.alarm_cases halarm).resolve_left fun hquantum => hevent hquantum.1
  have hsleeping : (state.threads event).status = .sleeping := hstatus
  have htime : (state.queue.events event).time = alarm.time :=
    congrArg Alarm.time (alarm_eq_some halarm)
  obtain ⟨queue, hremove, hleft, -, halarms, hpayload⟩ := hkeeps.remove_head
  obtain ⟨hwake, hthread⟩ := wakes_of_payload halarm (hpayload event) hcallback harg
  -- the states at the six control points of the round
  let tested : State := { state with stack := .handleTest event :: callers }
  let due : State := { state with clock := now, stack := .handleRemove event :: callers }
  let removed : State := { due with queue := queue, stack := .handleCallback event :: callers }
  let called : State :=
    { removed with stack := .wakeStatus event :: .handlePeek :: callers }
  let readied : State :=
    { called.setStatus event .ready with stack := .wakeAdd event :: .handlePeek :: callers }
  let woken : State := { readied.threadListAdd event with stack := .handlePeek :: callers }
  have hread : tested.tscReadNs now = some { tested with clock := now } :=
    tscReadNs_eq_some.mpr ⟨⟨hclock, hword⟩, rfl⟩
  have htested : Frame.exec callers state now .handlePeek = some tested := by
    simp [Frame.exec, hkeeps.peekNext, tested]
  have hdueStep : Frame.exec callers tested now (.handleTest event) = some due := by
    simp [Frame.exec, hread, tested, due, htime, hdue]
  have hremoved : Frame.exec callers due now (.handleRemove event) = some removed := by
    simp [Frame.exec, due, removed, hremove]
  have hcalled : Frame.exec callers removed now (.handleCallback event) = some called := by
    simp [Frame.exec, removed, called, hwake, hthread]
  have hreadied : Frame.exec (.handlePeek :: callers) called now (.wakeStatus event) =
      some readied := by
    simp [Frame.exec, called, removed, due, readied, hsleeping]
  have hwoken : Frame.exec (.handlePeek :: callers) readied now (.wakeAdd event) =
      some woken := rfl
  refine ⟨woken, ?_, rfl, hleft, rfl, ?_, ?_⟩
  · have h1 := exec_invariant hinv hstack htested
    have h2 := exec_invariant h1 rfl hdueStep
    have h3 := exec_invariant h2 rfl hremoved
    have h4 := exec_invariant h3 rfl hcalled
    have h5 := exec_invariant h4 rfl hreadied
    exact exec_invariant h5 rfl hwoken
  · constructor
    · rfl
    · intro thread hmem
      obtain rfl := List.mem_singleton.mp hmem
      simp [woken, readied, State.setStatus, State.threadListAdd]
    · intro thread hmem
      have hne : thread ≠ event := fun heq => hmem (List.mem_singleton.mpr heq)
      simp [woken, readied, called, removed, due, State.setStatus, State.threadListAdd,
        Function.update_of_ne hne]
    · intro other
      change queue.alarm other = _
      rw [halarms, Function.update_apply]
      simp only [List.mem_singleton]
    · rfl
    · rfl
  · intro final hreturns
    have hdepth : callers.length ≤ (Frame.handlePeek :: callers).length :=
      Nat.le_succ callers.length
    have h5 := hreturns.step rfl hdepth hwoken
    have h4 := h5.step rfl hdepth hreadied
    have h3 := h4.step rfl le_rfl hcalled
    have h2 := h3.step rfl le_rfl hremoved
    have h1 := h2.step rfl le_rfl hdueStep
    exact h1.step hstack le_rfl htested

/-- The threads whose events are due, in the order of the schedule. -/
def dueThreads (now : ℕ) (schedule : Schedule) : List ThreadPtr :=
  (schedule.filter (·.2 ≤ now)).map Prod.fst

def laterEvents (now : ℕ) (schedule : Schedule) : Schedule :=
  schedule.filter (now < ·.2)

theorem dueThreads_cons_of_le {event : EventPtr} {time : ℕ} {schedule : Schedule}
    (hdue : time ≤ now) :
    dueThreads now ((event, time) :: schedule) = event :: dueThreads now schedule ∧
      laterEvents now ((event, time) :: schedule) = laterEvents now schedule := by
  simp [dueThreads, laterEvents, hdue]

/-- When the first event is not due, none is. -/
theorem dueThreads_cons_of_lt {event : EventPtr} {time : ℕ} {schedule : Schedule}
    (hsorted : List.Pairwise (fun left right : EventPtr × ℕ => left.2 ≤ right.2)
      ((event, time) :: schedule)) (hlater : now < time) :
    dueThreads now ((event, time) :: schedule) = [] ∧
      laterEvents now ((event, time) :: schedule) = (event, time) :: schedule := by
  have hall : ∀ entry ∈ (event, time) :: schedule, now < entry.2 := by
    intro entry hentry
    rcases List.mem_cons.mp hentry with rfl | hentry
    · exact hlater
    · exact hlater.trans_le ((List.pairwise_cons.mp hsorted).1 entry hentry)
  constructor
  · rw [dueThreads, List.filter_eq_nil_iff.mpr, List.map_nil]
    intro entry hentry
    simpa using hall entry hentry
  · rw [laterEvents, List.filter_eq_self]
    intro entry hentry
    simpa using hall entry hentry

/-- The whole loop, by induction on the schedule. -/
theorem wake_all {schedule : Schedule} (hinv : state.Invariant)
    (hstack : state.stack = .handlePeek :: callers) (hkeeps : state.queue.Keeps schedule)
    (hclock : state.clock ≤ now) (hword : now < 2 ^ 64)
    (hquantum : ∀ alarm, state.queue.alarm state.current = some alarm → now < alarm.time) :
    ∃ after : State, after.stack = .handleNext :: callers ∧
      after.queue.Keeps (laterEvents now schedule) ∧ after.clock ≤ now ∧
        state.Woken after (dueThreads now schedule) ∧
          ∀ final, after.Returns now callers.length final →
            state.Returns now callers.length final := by
  induction schedule generalizing state with
  | nil =>
      have hexec : Frame.exec callers state now .handlePeek =
          some { state with stack := .handleNext :: callers } := by
        simp [Frame.exec, hkeeps.peekNext]
      exact ⟨{ state with stack := .handleNext :: callers }, rfl, hkeeps, hclock,
        woken_nil rfl rfl rfl rfl rfl,
        fun final hreturns => hreturns.step hstack le_rfl hexec⟩
  | cons entry schedule ih =>
      obtain ⟨event, time⟩ := entry
      obtain ⟨alarm, halarm, htime⟩ := hkeeps.mem_iff.mp (List.mem_cons_self ..)
      by_cases hdue : time ≤ now
      · have hevent : event ≠ state.current := by
          rintro rfl
          have hlater := hquantum alarm halarm
          omega
        obtain ⟨middle, hinv', hstack', hkeeps', hclock', hwoken, hreturn⟩ :=
          wake_first hinv hstack hkeeps hclock hword hdue hevent
        have hquantum' : ∀ alarm, middle.queue.alarm middle.current = some alarm →
            now < alarm.time := by
          intro other hother
          rw [hwoken.current, hwoken.alarm, if_neg (by simpa using hevent.symm)] at hother
          exact hquantum other hother
        obtain ⟨after, hafter, hkeepsAfter, hclockAfter, hwokenAfter, hreturn'⟩ :=
          ih hinv' hstack' hkeeps' hclock'.le hquantum'
        obtain ⟨hdueThreads, hlaterEvents⟩ :=
          @dueThreads_cons_of_le now event time schedule hdue
        rw [hdueThreads, hlaterEvents]
        exact ⟨after, hafter, hkeepsAfter, hclockAfter, hwoken.trans hwokenAfter,
          fun final hreturns => hreturn final (hreturn' final hreturns)⟩
      · -- the loop is left at the first comparison
        have hlater : now < time := not_le.mp hdue
        have hfield : (state.queue.events event).time = time :=
          (congrArg Alarm.time (alarm_eq_some halarm)).trans htime
        have hpeek : Frame.exec callers state now .handlePeek =
            some { state with stack := .handleTest event :: callers } := by
          simp [Frame.exec, hkeeps.peekNext]
        have hread : ({ state with stack := .handleTest event :: callers } : State).tscReadNs
            now = some { state with clock := now, stack := .handleTest event :: callers } :=
          tscReadNs_eq_some.mpr ⟨⟨hclock, hword⟩, rfl⟩
        have htest : Frame.exec callers { state with stack := .handleTest event :: callers } now
            (.handleTest event) =
              some { state with clock := now, stack := .handleNext :: callers } := by
          simp [Frame.exec, hread, hfield, hlater]
        obtain ⟨hdueThreads, hlaterEvents⟩ := dueThreads_cons_of_lt hkeeps.sorted hlater
        rw [hdueThreads, hlaterEvents]
        exact ⟨{ state with clock := now, stack := .handleNext :: callers }, rfl, hkeeps,
          le_rfl, woken_nil rfl rfl rfl rfl rfl,
          fun final hreturns => (hreturns.step rfl le_rfl htest).step hstack le_rfl hpeek⟩

end Loop

/-! ## The handler -/

/-- `handle_next_event` has woken the threads whose events were due, and the timer is
armed for the first of the events that are left. -/
structure State.Drained (state : State) (now : ℕ) (final : State)
    (woken : List ThreadPtr) : Prop where
  ready : final.ready = state.ready ++ woken
  nodup : woken.Nodup
  mem_iff : ∀ thread, thread ∈ woken ↔
    ∃ time ≤ now, state.queue.alarm thread = some ⟨time, some .threadWake, some thread⟩
  status : ∀ thread ∈ woken, (final.threads thread).status = .ready
  threads : ∀ thread, thread ∉ woken → final.threads thread = state.threads thread
  alarm : ∀ event, final.queue.alarm event =
    (state.queue.alarm event).filter fun alarm => now < alarm.time
  timer : ∃ event, final.IsNext event ∧
    final.oneShot = (state.timerFireAt now (final.queue.events event).time).oneShot

section Handler

variable {state : State} {callers : List Frame} {now : ℕ} {schedule : Schedule}

theorem mem_dueThreads (hkeeps : state.queue.Keeps schedule) {thread : ThreadPtr} :
    thread ∈ dueThreads now schedule ↔
      ∃ alarm, state.queue.alarm thread = some alarm ∧ alarm.time ≤ now := by
  simp only [dueThreads, List.mem_map, List.mem_filter, decide_eq_true_eq]
  constructor
  · rintro ⟨⟨event, time⟩, ⟨hmem, hdue⟩, rfl⟩
    obtain ⟨alarm, halarm, rfl⟩ := hkeeps.mem_iff.mp hmem
    exact ⟨alarm, halarm, hdue⟩
  · rintro ⟨alarm, halarm, hdue⟩
    exact ⟨(thread, alarm.time), ⟨hkeeps.mem_iff.mpr ⟨alarm, halarm, rfl⟩, hdue⟩, rfl⟩

/-- Without the events that are due, the later ones are left. -/
theorem alarm_without_due (hkeeps : state.queue.Keeps schedule) (event : EventPtr) :
    (if event ∈ dueThreads now schedule then none else state.queue.alarm event) =
      (state.queue.alarm event).filter fun alarm => now < alarm.time := by
  simp only [mem_dueThreads hkeeps]
  cases state.queue.alarm event with
  | none => simp
  | some alarm =>
      by_cases hdue : alarm.time ≤ now
      · simp [Option.filter, hdue]
      · simp [Option.filter, not_le.mp hdue]

/-- The threads that are woken are sorted by time and then by their calls of
`thread_sleep`. -/
theorem dueThreads_pairwise {calls : List ThreadPtr} (hkeeps : state.queue.Keeps schedule)
    (horder : schedule.Pairwise (EntryOrder state.queue calls))
    (hwakes : ∀ thread ∈ dueThreads now schedule, IsWakeUp state.queue thread) :
    (dueThreads now schedule).Pairwise fun first second =>
      (state.queue.events first).time < (state.queue.events second).time ∨
        (state.queue.events first).time = (state.queue.events second).time ∧
          InCallOrder calls first second := by
  have htime : ∀ entry ∈ schedule, (state.queue.events entry.1).time = entry.2 := by
    intro entry hentry
    obtain ⟨alarm, halarm, htime⟩ := hkeeps.mem_iff.mp hentry
    exact (congrArg Alarm.time (alarm_eq_some halarm)).trans htime
  have hboth := (hkeeps.sorted.and horder).filter (fun entry => decide (entry.2 ≤ now))
  rw [dueThreads, List.pairwise_map]
  apply List.Pairwise.imp_of_mem _ hboth
  rintro first second hfirst hsecond ⟨hle, hentry⟩
  rw [htime first (List.mem_of_mem_filter hfirst), htime second (List.mem_of_mem_filter hsecond)]
  rcases hle.lt_or_eq with hlt | heq
  · exact Or.inl hlt
  · exact Or.inr ⟨heq, hentry heq (hwakes _ (List.mem_map_of_mem hfirst))
      (hwakes _ (List.mem_map_of_mem hsecond))⟩

/-- The threads whose events are due sleep. -/
theorem mem_dueThreads_iff_wakeUp (harranged : state.Arranged (only state.current .running))
    (hkeeps : state.queue.Keeps schedule)
    (hquantum : ∀ alarm, state.queue.alarm state.current = some alarm → now < alarm.time)
    {thread : ThreadPtr} :
    thread ∈ dueThreads now schedule ↔
      ∃ time ≤ now, state.queue.alarm thread =
        some ⟨time, some .threadWake, some thread⟩ := by
  rw [mem_dueThreads hkeeps]
  constructor
  · rintro ⟨alarm, halarm, hdue⟩
    rcases harranged.alarm_cases halarm with ⟨rfl, -⟩ | ⟨-, -, -, -, hcallback, harg⟩
    · exact absurd (hquantum alarm halarm) (not_lt.mpr hdue)
    · refine ⟨alarm.time, hdue, halarm.trans (congrArg some ?_)⟩
      exact Alarm.ext rfl hcallback harg
  · rintro ⟨time, hdue, halarm⟩
    exact ⟨_, halarm, hdue⟩

/-- The handler returns with all due events handled. -/
theorem handler_returns (hinv : state.Invariant)
    (hstack : state.stack = .handleEoi :: callers) (hkeeps : state.queue.Keeps schedule)
    (hclock : state.clock ≤ now) (hword : now < 2 ^ 64)
    (hquantum : ∀ alarm, state.queue.alarm state.current = some alarm → now < alarm.time) :
    ∃ final, state.Returns now callers.length final ∧ final.stack = callers ∧
      state.Drained now final (dueThreads now schedule) := by
  have harranged : state.Arranged (only state.current .running) :=
    (hinv.control.expects hstack).1
  have hexec : Frame.exec callers state now .handleEoi =
      some { state with stack := .handlePeek :: callers } := rfl
  obtain ⟨armed, harmed, hleft, hclock', hwoken, hreturn⟩ := wake_all
    (exec_invariant hinv hstack hexec) rfl hkeeps hclock hword hquantum
  -- the quantum of the running thread is left, so the timer is armed
  have hnonempty : laterEvents now schedule ≠ [] := by
    obtain ⟨-, -, -, time, halarm⟩ := harranged.role_self
    have hlater := hquantum _ halarm
    exact List.ne_nil_of_mem (List.mem_filter.mpr
      ⟨hkeeps.mem_iff.mpr ⟨_, halarm, rfl⟩, by simpa using hlater⟩)
  obtain ⟨⟨next, time⟩, left, hcons⟩ := List.exists_cons_of_ne_nil hnonempty
  rw [hcons] at hleft
  obtain ⟨hpeek, harm⟩ := step_handleNext harmed hleft hclock' hword now
  simp only [State.step, harmed] at hpeek harm
  let final : State := { armed.timerFireAt now time with clock := now, stack := callers }
  have hfinal : final.Returns now callers.length final := returns_self le_rfl
  have harming := (hfinal.step rfl le_rfl harm).step harmed le_rfl hpeek
  refine ⟨final, (hreturn final harming).step hstack le_rfl hexec, rfl, ?_⟩
  constructor
  · exact hwoken.ready
  · exact (List.filter_sublist.map Prod.fst).nodup hkeeps.nodup
  · exact fun thread => mem_dueThreads_iff_wakeUp harranged hkeeps hquantum
  · exact hwoken.status
  · exact hwoken.threads
  · intro event
    exact (hwoken.alarm event).trans (alarm_without_due hkeeps event)
  · obtain ⟨alarm, halarm, htime⟩ := hleft.mem_iff.mp (List.mem_cons_self ..)
    have hfield : (armed.queue.events next).time = time :=
      (congrArg Alarm.time (alarm_eq_some halarm)).trans htime
    refine ⟨next, isNext_of_keeps (show final.queue.Keeps _ from hleft), ?_⟩
    change (armed.timerFireAt now time).oneShot =
      (state.timerFireAt now (armed.queue.events next).time).oneShot
    rw [hfield, State.timerFireAt, State.timerFireAt, hwoken.calibration]

/-- While the clock stands still before the end of the current quantum, the handler
returns.  It wakes exactly the threads that are due, by time and then in the order of
their calls of `thread_sleep`, leaves the later events, and arms the timer for the first
of them. -/
theorem handle_next_event_drains {start : State} {inputs : List Input}
    (hinv : start.Invariant) (hrun : start.runInputs Uninterrupted inputs = some state)
    (hstack : state.stack = .handleEoi :: callers) (hclock : state.clock ≤ now)
    (hword : now < 2 ^ 64)
    (hquantum : ∀ alarm, state.queue.alarm state.current = some alarm → now < alarm.time) :
    ∃ final woken, state.Returns now callers.length final ∧ final.stack = callers ∧
      state.Drained now final woken ∧
        woken.Pairwise fun first second =>
          (state.queue.events first).time < (state.queue.events second).time ∨
            (state.queue.events first).time = (state.queue.events second).time ∧
              InCallOrder (start.sleepCalls inputs) first second := by
  obtain ⟨hinv', hlogged⟩ := runInputs_logged hinv hinv.logged_nil hrun
  obtain ⟨schedule, hkeeps, horder⟩ := hlogged.order
  rw [List.nil_append] at horder
  obtain ⟨final, hreturns, hfinal, hdrained⟩ :=
    handler_returns hinv' hstack hkeeps hclock hword hquantum
  refine ⟨final, dueThreads now schedule, hreturns, hfinal, hdrained,
    dueThreads_pairwise hkeeps horder fun thread hthread => ?_⟩
  obtain ⟨time, -, halarm⟩ := (hdrained.mem_iff thread).mp hthread
  exact ⟨_, halarm, rfl⟩

/-- Threads 2 and 3 go to sleep one after the other until the same time, and thread 4 is
interrupted after that time. -/
theorem handle_next_event_drains_two_sleepers :
    ∃ state final woken,
      RunsTo Uninterrupted (State.schedInit 3 1000) state ∧
        state.Returns 2000 2 final ∧ final.stack = [.interruptReturn true, .threadCode] ∧
          state.Drained 2000 final woken ∧ 2 ∈ woken ∧ 3 ∈ woken := by
  have hinputs : ((State.schedInit 3 1000).runInputs Uninterrupted
      (List.replicate 20 (Input.run 10) ++
        Input.sleep 1000 :: (List.replicate 20 (Input.run 10) ++
          Input.sleep 1000 :: (List.replicate 20 (Input.run 10) ++ [Input.interrupt])))).map
        (fun state => (state.stack, state.clock, state.queue.alarm 2, state.queue.alarm 3,
          state.queue.alarm state.current)) =
      some ([.handleEoi, .interruptReturn true, .threadCode], 10,
        some ⟨1010, some .threadWake, some 2⟩, some ⟨1010, some .threadWake, some 3⟩,
        some ⟨3000010, some .switchThread, none⟩) := by
    decide +kernel
  obtain ⟨state, hstate, hread⟩ := Option.map_eq_some_iff.mp hinputs
  simp only [Prod.mk.injEq] at hread
  obtain ⟨hstack, hclock, hfirst, hsecond, hcurrent⟩ := hread
  have hquantum : ∀ alarm, state.queue.alarm state.current = some alarm →
      2000 < alarm.time := by
    intro alarm halarm
    obtain rfl := Option.some.inj (hcurrent.symm.trans halarm)
    decide
  obtain ⟨final, woken, hreturns, hfinal, hdrained, -⟩ := handle_next_event_drains
    (schedInit_invariant 3 1000) hstate hstack (by rw [hclock]; decide) (by decide) hquantum
  exact ⟨state, final, woken, runsTo_of_runInputs Uninterrupted hstate, hreturns, hfinal,
    hdrained, (hdrained.mem_iff 2).mpr ⟨1010, by decide, hfirst⟩,
    (hdrained.mem_iff 3).mpr ⟨1010, by decide, hsecond⟩⟩

end Handler

end Flurry.Sched
