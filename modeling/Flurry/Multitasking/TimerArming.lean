import Flurry.Hardware.Tsc
import Flurry.Multitasking.ThreadPlacement

/-!
# The end of `handle_next_event`

The loop has compared the earliest event with one reading of the clock, and
`timer_fire_at` subtracts another one.  If the clock passes the event in between,
the difference wraps and the timer is armed for a time far away.
-/

namespace Flurry.Sched

open ByteMemory Events Lapic

variable {state : State} {callers : List Frame} {now : ℕ}

/-- A time stamp counter that goes on counting gives readings that the scheduler
accepts. -/
theorem tscReadNs_of_ticks {freq earlier ticks : ℕ} (hfreq : 1 ≤ freq)
    (hbound : freq ≤ 18446744073) (hfits : ticks * 10 ^ 9 / freq < 2 ^ 64)
    (hle : earlier ≤ ticks) (hclock : state.clock = Tsc.tscTicksToNs freq earlier) :
    state.tscReadNs (Tsc.tscTicksToNs freq ticks) =
      some { state with clock := Tsc.tscTicksToNs freq ticks } := by
  refine tscReadNs_eq_some.mpr ⟨⟨?_, ?_⟩, rfl⟩
  · rw [hclock]
    exact Tsc.tscTicksToNs_mono hfreq hbound hfits hle
  · rw [(Tsc.tscTicksToNs_exact hfreq hbound hfits).2]
    exact hfits

/-- The event that `event_peek_next` finds is the first of the schedule. -/
theorem keeps_cons_of_peekNext {queue : EventQueue} {schedule : Schedule} {event : EventPtr}
    (hkeeps : queue.Keeps schedule) (hpeek : eventPeekNext queue = some (some event)) :
    ∃ rest, schedule = (event, (queue.events event).time) :: rest := by
  have hfirst := hkeeps.peekNext.symm.trans hpeek
  cases schedule with
  | nil => simp at hfirst
  | cons entry rest =>
      obtain ⟨other, time⟩ := entry
      obtain rfl : other = event := by simpa using hfirst
      obtain ⟨alarm, halarm, rfl⟩ := hkeeps.mem_iff.mp (List.mem_cons_self ..)
      exact ⟨rest, by rw [← congrArg Alarm.time (alarm_eq_some halarm)]; rfl⟩

/-- The last two steps: the earliest event is looked up and the timer is armed. -/
theorem step_handleNext {event : EventPtr} {time : ℕ} {schedule : Schedule}
    (hstack : state.stack = .handleNext :: callers)
    (hkeeps : state.queue.Keeps ((event, time) :: schedule)) (hclock : state.clock ≤ now)
    (hword : now < 2 ^ 64) (peeked : ℕ) :
    state.step (.run peeked) = some { state with stack := .handleArm event :: callers } ∧
      ({ state with stack := .handleArm event :: callers } : State).step (.run now) =
        some { state.timerFireAt now time with clock := now, stack := callers } := by
  obtain ⟨alarm, halarm, rfl⟩ := hkeeps.mem_iff.mp (List.mem_cons_self ..)
  have htime : (state.queue.events event).time = alarm.time :=
    congrArg Alarm.time (alarm_eq_some halarm)
  constructor
  · simp [State.step, hstack, Frame.exec, hkeeps.peekNext]
  · have hread : ({ state with stack := .handleArm event :: callers } : State).tscReadNs now =
        some { state with clock := now, stack := .handleArm event :: callers } :=
      tscReadNs_eq_some.mpr ⟨⟨hclock, hword⟩, rfl⟩
    simp [State.step, Frame.exec, hread, State.timerFireAt, htime]

/-- The count that is written does not exceed the delay exactly if the clock has not
passed the event, or the wrapped difference happens to give the smallest count. -/
theorem timer_not_armed_past_event_iff {event : EventPtr} {time peeked : ℕ}
    {schedule : Schedule} (hstack : state.stack = .handleNext :: callers)
    (hkeeps : state.queue.Keeps ((event, time) :: schedule)) (htime : time < 2 ^ 64)
    (hclock : state.clock ≤ now) (hword : now < 2 ^ 64) :
    ∃ after timer, (state.step (.run peeked)).bind (·.step (.run now)) = some after ∧
      after.oneShot = some ⟨now, timer⟩ ∧
        (timer.initCount ≤ saturatedCount state.calibration (time - now) ↔
          now ≤ time ∨
            (2 ^ 64 - (now - time)) * state.calibration % 2 ^ 64 < 2 * 100000000) := by
  obtain ⟨hpeek, harm⟩ := step_handleNext hstack hkeeps hclock hword peeked
  refine ⟨_, _, by rw [hpeek, Option.bind_some, harm], rfl, ?_⟩
  rw [lapicTimerOneShot]
  by_cases hpast : now ≤ time
  · rw [sub64_of_le htime hpast]
    exact iff_of_true (lapicTimer_initCount_le _ _ _ _) (Or.inl hpast)
  · have hlate : time < now := not_le.mp hpast
    rw [sub64_of_lt hlate hword, Nat.sub_eq_zero_of_le hlate.le, saturatedCount_zero,
      lapicTimer_initCount_le_one_iff, or_iff_right hpast]

/-- Thread 2 has just got its first quantum, and the loop of `handle_next_event` is
left. -/
theorem run_to_first_quantum :
    ∃ state, (State.schedInit 1 62500).runInputs Uninterrupted
        (List.replicate 18 (Input.run 1000)) = some state ∧
      state.stack = [.handleNext, .threadCode] ∧ state.clock = 1000 ∧
        eventPeekNext state.queue = some (some 2) ∧
          (state.queue.events 2).time = 3001000 := by
  have hinputs : ((State.schedInit 1 62500).runInputs Uninterrupted
      (List.replicate 18 (Input.run 1000))).map (fun state =>
        (state.stack, state.clock, eventPeekNext state.queue,
          (state.queue.events 2).time)) =
        some ([.handleNext, .threadCode], 1000, some (some 2), 3001000) := by
    decide +kernel
  obtain ⟨state, hstate, hread⟩ := Option.map_eq_some_iff.mp hinputs
  simp only [Prod.mk.injEq] at hread
  exact ⟨state, hstate, hread⟩

theorem timer_not_armed_past_event_at_once :
    ∃ state after timer,
      RunsTo Uninterrupted (State.schedInit 1 62500) state ∧
        state.stack = [.handleNext, .threadCode] ∧
          (state.step (.run 1000)).bind (·.step (.run 1000)) = some after ∧
            after.oneShot = some ⟨1000, timer⟩ ∧
              timer.initCount ≤ saturatedCount state.calibration (3001000 - 1000) := by
  obtain ⟨state, hstate, hstack, hclock, hpeek, htime⟩ := run_to_first_quantum
  have hrun := runsTo_of_runInputs Uninterrupted hstate
  obtain ⟨schedule, hkeeps⟩ := (invariant_of_runsTo hrun).sound.queue
  obtain ⟨rest, rfl⟩ := keeps_cons_of_peekNext hkeeps hpeek
  rw [htime] at hkeeps
  obtain ⟨after, timer, hsteps, harmed, hiff⟩ := @timer_not_armed_past_event_iff state
    [.threadCode] 1000 2 3001000 1000 rest hstack hkeeps (by decide) hclock.le (by decide)
  exact ⟨state, after, timer, hrun, hstack, hsteps, harmed,
    hiff.mpr (Or.inl (by decide))⟩

/-- The quantum of thread 2 ends at 3001000.  The loop reads 1000, and `timer_fire_at`
reads 3001001: the largest count is written, which takes almost two hours. -/
theorem timer_armed_past_event :
    ∃ state after timer,
      RunsTo Uninterrupted (State.schedInit 1 62500) state ∧
        state.stack = [.handleNext, .threadCode] ∧ state.clock = 1000 ∧
          eventPeekNext state.queue = some (some 2) ∧
            (state.queue.events 2).time = 3001000 ∧
              (state.step (.run 1000)).bind (·.step (.run 3001001)) = some after ∧
                after.oneShot = some ⟨3001001, timer⟩ ∧ timer.initCount = 4294967295 ∧
                  saturatedCount 62500 (3001000 - 3001001) = 1 := by
  obtain ⟨state, hstate, hstack, hclock, hpeek, htime⟩ := run_to_first_quantum
  have harmed : (((State.schedInit 1 62500).runInputs Uninterrupted
      (List.replicate 18 (Input.run 1000))).bind fun state =>
        (state.step (.run 1000)).bind (·.step (.run 3001001))).map (·.oneShot) =
          some (some ⟨3001001, ⟨32, 4294967295⟩⟩) := by
    decide +kernel
  rw [hstate, Option.bind_some] at harmed
  obtain ⟨after, hsteps, harmed⟩ := Option.map_eq_some_iff.mp harmed
  exact ⟨state, after, _, runsTo_of_runInputs Uninterrupted hstate, hstack, hclock, hpeek,
    htime, hsteps, harmed, rfl, by decide⟩

end Flurry.Sched
