import Flurry.Multitasking.PlacementSteps

/-!
# No thread is lost or duplicated

The invariant holds when `sched_init` first calls `handle_next_event`, so it holds
in every run without interrupts inside the scheduler.  Read in a state in which a
thread's own code runs it says where each thread is.
-/

namespace Flurry.Sched

open ByteMemory Events

/-! ## The state after `sched_init` -/

theorem keeps_nil {queue : EventQueue} (hroot : queue.eventRoot = none)
    (henqueued : ∀ event, (queue.events event).enqueued = false) : queue.Keeps [] := by
  refine ⟨.nil, ⟨⟨hroot, trivial, List.nodup_nil⟩, ?_, ?_⟩, trivial, rfl⟩
  · intro event
    simp [henqueued event]
  · simp

/-- `sched_init` after it has created `count` threads. -/
structure Created (count : ℕ) (state : State) : Prop where
  root : state.queue.eventRoot = none
  enqueued : ∀ event, (state.queue.events event).enqueued = false
  initEvent : state.queue.events State.initThread = {}
  created : state.queue.created = count + 2
  idle : state.idle = 1
  ready : state.ready = List.range' 2 count
  init : (state.threads State.initThread).status = .done
  others : ∀ thread, thread ≠ State.initThread → (state.threads thread).status = .ready
  saved : ∀ thread, (state.threads thread).saved = SavedStack.initial
  stack : state.stack = [.handleEoi, .kinit]

theorem created_schedInitIdle (calibration : ℕ) :
    Created 0 (State.schedInitIdle calibration) := by
  have hevents : ∀ event, (State.schedInitIdle calibration).queue.events event =
      if event = 1 then { owner := some 1 } else {} := by
    intro event
    simp only [State.schedInitIdle, State.boot, State.threadKcreate, State.setStatus,
      eventCreate, EventQueue.modify, EventQueue.empty, Function.update_apply]
    split <;> simp
  have hthreads : ∀ thread, (State.schedInitIdle calibration).threads thread =
      if thread = State.initThread then ⟨.done, SavedStack.initial⟩
      else ⟨.ready, SavedStack.initial⟩ := by
    intro thread
    simp only [State.schedInitIdle, State.boot, State.threadKcreate, State.setStatus,
      eventCreate, EventQueue.empty, State.initThread, Function.update_apply]
    split
    · simp_all
    · rfl
  constructor
  · rfl
  · intro event
    rw [hevents]
    split <;> rfl
  · exact hevents State.initThread
  · rfl
  · rfl
  · rfl
  · rw [hthreads, if_pos rfl]
  · intro thread hthread
    rw [hthreads, if_neg hthread]
  · intro thread
    rw [hthreads]
    split <;> rfl
  · rfl

theorem Created.createReady {count : ℕ} {state : State} (hcreated : Created count state) :
    Created (count + 1) state.createReady := by
  have hevent : state.threadKcreate.2 = count + 2 := hcreated.created
  have hother : ∀ event, event ≠ count + 2 →
      state.threadKcreate.1.queue.events event = state.queue.events event := by
    intro event hne
    have hne' : event ≠ state.queue.created := hcreated.created ▸ hne
    simp [State.threadKcreate, eventCreate, EventQueue.modify, Function.update_of_ne hne']
  have hself : state.threadKcreate.1.queue.events (count + 2) =
      { owner := some (count + 2) } := by
    simp [State.threadKcreate, eventCreate, EventQueue.modify, ← hcreated.created]
  have hthread : ∀ thread, thread ≠ count + 2 →
      state.threadKcreate.1.threads thread = state.threads thread := by
    intro thread hne
    have hne' : thread ≠ state.queue.created := hcreated.created ▸ hne
    simp [State.threadKcreate, eventCreate, Function.update_of_ne hne']
  have hnew : state.threadKcreate.1.threads (count + 2) = ⟨.ready, SavedStack.initial⟩ := by
    simp [State.threadKcreate, eventCreate, ← hcreated.created]
  have hinit : State.initThread ≠ count + 2 := by simp [State.initThread]
  constructor
  · exact hcreated.root
  · intro event
    change (state.threadKcreate.1.queue.events event).enqueued = false
    by_cases hne : event = count + 2
    · rw [hne, hself]
    · rw [hother event hne]
      exact hcreated.enqueued event
  · exact (hother _ hinit).trans hcreated.initEvent
  · exact congrArg (· + 1) hcreated.created
  · exact hcreated.idle
  · change state.ready ++ [state.threadKcreate.2] = List.range' 2 (count + 1)
    rw [hcreated.ready, hevent, List.range'_concat]
    simp [Nat.add_comm]
  · change (state.threadKcreate.1.threads State.initThread).status = .done
    rw [hthread _ hinit]
    exact hcreated.init
  · intro thread hne
    change (state.threadKcreate.1.threads thread).status = .ready
    by_cases hnew' : thread = count + 2
    · rw [hnew', hnew]
    · rw [hthread thread hnew']
      exact hcreated.others thread hne
  · intro thread
    change (state.threadKcreate.1.threads thread).saved = SavedStack.initial
    by_cases hnew' : thread = count + 2
    · rw [hnew', hnew]
    · rw [hthread thread hnew']
      exact hcreated.saved thread
  · exact hcreated.stack

theorem created_iterate (count calibration : ℕ) :
    Created count (State.createReady^[count] (State.schedInitIdle calibration)) := by
  induction count with
  | zero => exact created_schedInitIdle calibration
  | succ count ih =>
      rw [Function.iterate_succ_apply']
      exact ih.createReady

theorem count_range' (count thread : ℕ) :
    (List.range' 2 count).count thread =
      if 2 ≤ thread ∧ thread < count + 2 then 1 else 0 := by
  rw [List.Nodup.count (List.nodup_range' ..)]
  simp only [List.mem_range'_1, Nat.add_comm 2 count]

/-- The invariant holds when `sched_init` calls `handle_next_event`. -/
theorem schedInit_invariant (count calibration : ℕ) :
    (State.schedInit count calibration).Invariant := by
  have hcreated := created_iterate count calibration
  unfold State.schedInit
  generalize State.createReady^[count] (State.schedInitIdle calibration) = state at hcreated
  have hkeeps := keeps_nil hcreated.root hcreated.enqueued
  obtain ⟨enqueued, heq, hkeeps', hlimit, halarms⟩ := @enqueueEvent_eq
    { state with
      current := State.initThread
      queue := state.queue.modify State.initThread fun fields =>
        { fields with callback := some .switchThread } }
    state.queue [] (fun fields => { fields with callback := some .switchThread }) hkeeps rfl
    (by simp) (by simp [hcreated.created, State.initThread]) state.stack
  have halarm : ∀ event, enqueued.alarm event =
      if event = State.initThread then some ⟨0, some .switchThread, none⟩ else none := by
    intro event
    rw [halarms, Function.update_apply]
    split
    · rw [hcreated.initEvent]
      rfl
    · simp [EventQueue.alarm, hcreated.enqueued event]
  dsimp only at heq ⊢
  rw [heq]
  refine ⟨⟨?_, ?_, ⟨_, hkeeps'⟩, ?_⟩, control_of_expects hcreated.stack ?_ ?_, ?_⟩
  · dsimp only
    rw [hcreated.idle, hlimit, hcreated.created]
    exact Nat.lt_add_left count Nat.one_lt_two
  · dsimp only
    rw [hcreated.idle]
    decide
  · intro thread
    simp [hcreated.saved thread, SavedStack.initial, Frame.IsReturn]
  · intro thread
    simp only [only, State.place, hcreated.ready, halarm, hlimit, hcreated.created,
      hcreated.idle, count_range']
    by_cases hinit : thread = State.initThread
    · subst hinit
      simp only [if_true]
      exact ⟨by simp [State.initThread], by simp [State.initThread],
        Or.inr ⟨rfl, hcreated.init⟩, 0, rfl⟩
    · rw [if_neg hinit, if_neg hinit]
      by_cases hidle : thread = 1
      · exact Resting.idle hidle (by simp [hidle]) rfl
      · by_cases hlt : thread < count + 2
        · have htwo : 2 ≤ thread := (Nat.two_le_iff thread).mpr ⟨hinit, hidle⟩
          exact Resting.ready ⟨hlt, hidle, hinit⟩ (if_pos ⟨htwo, hlt⟩) rfl
            (hcreated.others thread hinit)
        · exact Resting.absent (not_lt.mp hlt) (if_neg fun hand => hlt hand.2) rfl
  · simp [Frame.IsReturn]
  · simp [hcreated.stack]

theorem invariant_of_runsTo {count calibration : ℕ} {state : State}
    (hrun : RunsTo Uninterrupted (State.schedInit count calibration) state) :
    state.Invariant :=
  hrun.keeps (schedInit_invariant count calibration) fun _ _ _ hinv hallowed hstep =>
    step_invariant hinv hallowed hstep

/-! ## Where the threads are in thread code -/

/-- In `ready_threads` once, with its event out of the queue. -/
def State.IsReady (state : State) (thread : ThreadPtr) : Prop :=
  (state.threads thread).status = .ready ∧ state.ready.count thread = 1 ∧
    (state.queue.events thread).enqueued = false

/-- Out of `ready_threads`, with its event set to wake it. -/
def State.IsAsleep (state : State) (thread : ThreadPtr) : Prop :=
  (state.threads thread).status = .sleeping ∧ thread ∉ state.ready ∧
    (state.queue.events thread).enqueued = true ∧
      (state.queue.events thread).callback = some .threadWake ∧
        (state.queue.events thread).callbackArg = some thread

/-- Every thread is in one place. -/
structure State.ThreadsInPlace (state : State) : Prop where
  placed : ∀ thread, Ordinary state.queue.created state.idle thread →
    (thread = state.current ∧ ¬state.IsReady thread ∧ ¬state.IsAsleep thread) ∨
    (thread ≠ state.current ∧ state.IsReady thread ∧ ¬state.IsAsleep thread) ∨
    (thread ≠ state.current ∧ ¬state.IsReady thread ∧ state.IsAsleep thread)
  idle : state.idle ∉ state.ready
  init : state.current ≠ initThread
  quantum : ∀ event, (state.queue.events event).enqueued = true →
    (state.queue.events event).callback = some .switchThread → event = state.current

theorem State.Arranged.threadsInPlace {state : State}
    (harranged : state.Arranged (only state.current .running))
    (hidle : state.idle < state.queue.created) (hidleInit : state.idle ≠ State.initThread)
    (hinit : state.current ≠ State.initThread) : state.ThreadsInPlace := by
  have hcurrent := harranged.role_self
  obtain ⟨-, hlisted, hactive, time, hquantum⟩ := hcurrent
  have hrunning : (state.threads state.current).status = .running := by
    rcases hactive with ⟨-, hstatus⟩ | ⟨heq, -⟩
    · exact hstatus
    · exact absurd heq hinit
  constructor
  · intro thread hordinary
    by_cases hthread : thread = state.current
    · subst hthread
      exact Or.inl ⟨rfl, fun hready => by simp [hready.1] at hrunning,
        fun hasleep => by simp [hasleep.1] at hrunning⟩
    · right
      have hplace := harranged.resting hthread
      cases hplace with
      | absent hlimit _ _ => exact absurd hordinary.created (not_lt.mpr hlimit)
      | init heq _ _ _ => exact absurd heq hordinary.not_init
      | idle heq _ _ => exact absurd heq hordinary.not_idle
      | ready _ hone halarm hstatus =>
          have hstatus' : (state.threads thread).status = .ready := hstatus
          exact Or.inl ⟨hthread, ⟨hstatus, hone, alarm_eq_none halarm⟩,
            fun hasleep => by simp [hasleep.1] at hstatus'⟩
      | asleep _ hzero hwake hstatus =>
          have hstatus' : (state.threads thread).status = .sleeping := hstatus
          obtain ⟨wakeTime, hwake⟩ := hwake
          have hfields := alarm_eq_some hwake
          exact Or.inr ⟨hthread, fun hready => by simp [hready.1] at hstatus',
            hstatus, List.count_eq_zero.mp hzero, enqueued_of_alarm hwake,
            congrArg Alarm.callback hfields, congrArg Alarm.arg hfields⟩
  · by_cases heq : state.idle = state.current
    · rw [heq]
      exact List.count_eq_zero.mp hlisted
    · have hplace := harranged.resting heq
      cases hplace with
      | absent hlimit _ _ => exact absurd hidle (not_lt.mpr hlimit)
      | init hinit _ _ _ => exact absurd hinit hidleInit
      | idle _ hzero _ => exact List.count_eq_zero.mp hzero
      | ready hordinary _ _ _ => exact absurd rfl hordinary.not_idle
      | asleep hordinary _ _ _ => exact absurd rfl hordinary.not_idle
  · exact hinit
  · intro event hflag hcallback
    rcases harranged.alarm_cases (alarm_of_enqueued hflag) with ⟨heq, -⟩ |
      ⟨-, -, -, -, hwake, -⟩
    · exact heq
    · exact absurd (hcallback.symm.trans hwake) (by simp)

/-- No thread is lost or duplicated, and no assertion fails: for any number of
threads and in every run without interrupts inside the scheduler.  `sched_init` is
never dispatched. -/
theorem threads_never_lost {count calibration : ℕ} {state : State}
    (hrun : RunsTo Uninterrupted (State.schedInit count calibration) state) :
    .panic ∉ state.stack ∧
    (∀ this next callers, state.stack = .switchCurrent this next :: callers →
      next ≠ State.initThread) ∧
    (state.stack.head? = some .threadCode → state.ThreadsInPlace) := by
  have hinv := invariant_of_runsTo hrun
  refine ⟨?_, ?_, ?_⟩
  · intro hpanic
    cases hstack : state.stack with
    | nil => simp [hstack] at hpanic
    | cons frame callers =>
        obtain ⟨hexpects, hcallers⟩ := hinv.control.expects hstack
        rw [hstack] at hpanic
        rcases List.mem_cons.mp hpanic with rfl | hmem
        · exact hexpects
        · exact absurd (hcallers _ hmem) (by simp [Frame.IsReturn])
  · intro this next callers hstack
    obtain ⟨-, hnext, role, -, harranged⟩ := (hinv.control.expects hstack).1
    have hpicked := harranged.role_right hnext
    exact hpicked.2.1
  · intro hhead
    obtain ⟨callers, hstack⟩ := List.head?_eq_some_iff.mp hhead
    have harranged : state.Arranged (only state.current .running) :=
      (hinv.control.expects hstack).1
    exact harranged.threadsInPlace hinv.sound.idle_created hinv.sound.idle_ne_init
      fun hcurrent => hinv.init hcurrent (by simp [hstack])

/-- Two threads: the first goes to sleep and the second gets the processor. -/
theorem threads_never_lost_after_sleep :
    ∃ state, RunsTo Uninterrupted (State.schedInit 2 1000) state ∧
      state.stack = [.threadCode] ∧ state.current = 3 ∧ state.ThreadsInPlace := by
  have hinputs : ((State.schedInit 2 1000).runInputs Uninterrupted
      (List.replicate 20 (Input.run 10) ++
        Input.sleep 1000 :: List.replicate 21 (Input.run 10))).map
        (fun state => (state.stack, state.current)) = some ([.threadCode], 3) := by
    decide +kernel
  obtain ⟨state, hstate, hread⟩ := Option.map_eq_some_iff.mp hinputs
  obtain ⟨hstack, hcurrent⟩ := Prod.mk.inj hread
  have hrun := runsTo_of_runInputs Uninterrupted hstate
  exact ⟨state, hrun, hstack, hcurrent,
    (threads_never_lost hrun).2.2 (by rw [hstack]; rfl)⟩

end Flurry.Sched
