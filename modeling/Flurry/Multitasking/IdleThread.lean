import Flurry.Multitasking.SwitchInterrupts

/-!
# When the idle thread runs

`get_next_thread` falls back on the idle thread when `ready_threads` is empty.  The
thread that calls `switch_thread` is not on the list at that time: it is put back by
`maybe_reschedule_thread`, after the switch.  So a running thread whose quantum is
over gives way to the idle thread when it is the only one.  And a thread that an
interrupt wakes after the list was found empty has to wait for the idle thread, too.
-/

namespace Flurry.Sched

open ByteMemory Events

/-- `switch_thread` from its look at the list until the thread it has chosen is
current, with the interrupts that arrive on the way and what their loops read. -/
inductive State.Chooses (state : State) : List ℕ → State → Prop where
  /-- the current thread goes on -/
  | same {read taking after : State} {now now' : ℕ} {readings : List ℕ}
      (hread : state.step (.run now) = some read)
      (hhandles : read.HandlesAll readings taking)
      (htake : taking.step (.run now') = some after)
      (hafter : after.stack.head? = some .switchRearm) : Chooses state readings after
  /-- another thread is made current -/
  | other {read taking chosen assigning after : State} {now now' now'' : ℕ}
      {first rest : List ℕ} {this next : ThreadPtr}
      (hread : state.step (.run now) = some read)
      (hfirst : read.HandlesAll first taking)
      (htake : taking.step (.run now') = some chosen)
      (hchosen : chosen.stack.head? = some (.switchCurrent this next))
      (hrest : chosen.HandlesAll rest assigning)
      (hassign : assigning.step (.run now'') = some after) :
      Chooses state (first ++ rest) after

/-- No created thread but the idle thread is ready or running. -/
def State.NoneRunnable (state : State) : Prop :=
  ∀ thread, thread < state.queue.created → thread ≠ state.idle →
    (state.threads thread).status ≠ .ready ∧ (state.threads thread).status ≠ .running

instance (state : State) : Decidable state.NoneRunnable :=
  inferInstanceAs (Decidable (∀ thread, thread < state.queue.created → _))

/-- A created thread that rests and is not on the list is done or asleep. -/
theorem Resting.status_of_unlisted {limit idle thread : ThreadPtr} {place : Place}
    (hrest : Resting limit idle thread place) (hcreated : thread < limit)
    (hidle : thread ≠ idle) (hlisted : place.listed = 0) :
    place.status = .done ∨ place.status = .sleeping := by
  cases hrest with
  | absent hlimit _ _ => exact absurd hcreated (not_lt.mpr hlimit)
  | init _ _ _ hstatus => exact Or.inl hstatus
  | idle heq _ _ => exact absurd heq hidle
  | ready _ hone _ _ => simp [hlisted] at hone
  | asleep _ _ _ hstatus => exact Or.inr hstatus

/-! ## The thread that calls -/

/-- A thread that calls `switch_thread` has the processor and no quantum, or has gone to
sleep and may have been woken. -/
inductive Role.Calls (limit idle thread : ThreadPtr) : Role → Prop where
  | detached : Calls limit idle thread .detached
  | resting (hordinary : Ordinary limit idle thread) : Calls limit idle thread .resting

section Calls

variable {state : State} {thread : ThreadPtr} {role : Role}

theorem Role.Calls.running_iff
    (hcalls : role.Calls state.queue.created state.idle thread)
    (harranged : state.Arranged (only thread role)) :
    (state.threads thread).status = .running ↔
      role = .detached ∧ thread ≠ State.initThread := by
  have hplace := harranged.role_self
  cases hcalls with
  | detached =>
      obtain ⟨-, -, ⟨hinit, hstatus⟩ | ⟨hinit, hstatus⟩, -⟩ := hplace
      · exact iff_of_true hstatus ⟨rfl, hinit⟩
      · have hdone : (state.threads thread).status = .done := hstatus
        exact iff_of_false (by simp [hdone]) (by simp [hinit])
  | resting hordinary =>
      apply iff_of_false _ (by simp)
      intro hrunning
      cases hplace with
      | absent hlimit _ _ => exact absurd hordinary.created (not_lt.mpr hlimit)
      | init hinit _ _ _ => exact hordinary.not_init hinit
      | idle hidle _ _ => exact hordinary.not_idle hidle
      | ready _ _ _ hstatus => exact absurd (hstatus.symm.trans hrunning) (by simp)
      | asleep _ _ _ hstatus => exact absurd (hstatus.symm.trans hrunning) (by simp)

theorem Role.Calls.created (hcalls : role.Calls state.queue.created state.idle thread)
    (harranged : state.Arranged (only thread role)) : thread < state.queue.created := by
  cases hcalls with
  | detached => exact harranged.role_self.1
  | resting hordinary => exact hordinary.created

/-- The threads on the list are ready. -/
theorem State.Arranged.ready_of_mem {listed : ThreadPtr}
    (harranged : state.Arranged (only thread role))
    (hcalls : role.Calls state.queue.created state.idle thread)
    (hmem : listed ∈ state.ready) :
    Ordinary state.queue.created state.idle listed ∧ (state.place listed).listed = 1 ∧
      (state.place listed).alarm = none ∧ (state.place listed).status = .ready := by
  have hcount : (state.place listed).listed ≠ 0 := (List.count_pos_iff.mpr hmem).ne'
  by_cases heq : listed = thread
  · subst heq
    have hplace := harranged.role_self
    cases hcalls with
    | detached => exact absurd hplace.2.1 hcount
    | resting _ => exact Resting.of_listed hplace hcount
  · exact (harranged.resting heq).of_listed hcount

/-- A thread could run exactly if the list holds one or the calling thread is not
asleep. -/
theorem State.Arranged.noneRunnable_iff (harranged : state.Arranged (only thread role))
    (hcalls : role.Calls state.queue.created state.idle thread) :
    state.NoneRunnable ↔ state.ready = [] ∧
      ¬(role = .detached ∧ thread ≠ State.initThread ∧ thread ≠ state.idle) := by
  constructor
  · intro hnone
    refine ⟨List.eq_nil_iff_forall_not_mem.mpr fun listed hmem => ?_, ?_⟩
    · obtain ⟨hordinary, -, -, hstatus⟩ := harranged.ready_of_mem hcalls hmem
      exact (hnone listed hordinary.created hordinary.not_idle).1 hstatus
    · rintro ⟨hrole, hinit, hidle⟩
      exact (hnone thread (hcalls.created harranged) hidle).2
        ((hcalls.running_iff harranged).mpr ⟨hrole, hinit⟩)
  · rintro ⟨hready, hcaller⟩ other hother hidle
    have hunlisted : (state.place other).listed = 0 := by simp [State.place, hready]
    have hresting (hplace : Resting state.queue.created state.idle other
        (state.place other)) : (state.threads other).status ≠ .ready ∧
          (state.threads other).status ≠ .running := by
      have hstatus : (state.threads other).status = .done ∨
          (state.threads other).status = .sleeping :=
        hplace.status_of_unlisted hother hidle hunlisted
      rcases hstatus with hstatus | hstatus <;> simp [hstatus]
    by_cases heq : other = thread
    · subst heq
      have hplace := harranged.role_self
      cases hcalls with
      | resting _ => exact hresting hplace
      | detached =>
          obtain ⟨-, -, ⟨hinit, -⟩ | ⟨-, hstatus⟩, -⟩ := hplace
          · exact absurd ⟨rfl, hinit, hidle⟩ hcaller
          · have hdone : (state.threads other).status = .done := hstatus
            simp [hdone]
    · exact hresting (harranged.resting heq)

end Calls

/-- What `switch_thread` finds when it is called, as far as interrupts leave it alone. -/
theorem State.Invariant.calls {call : State} {callers : List Frame} {schedule : Schedule}
    (hinv : call.Invariant) (hstack : call.stack = .switchPick :: callers)
    (hkeeps : call.queue.Keeps schedule) :
    ∃ role : Role, role.Calls call.queue.created call.idle call.current ∧
      State.Woke call (only call.current role) [] schedule call := by
  have hquiet : ∀ {role : Role}, role.Quiet →
      ∀ thread, (only call.current role thread).Quiet := by
    intro role hrole thread
    by_cases hthread : thread = call.current
    · rwa [hthread, only_self]
    · rw [only_of_ne hthread]
      exact Or.inl rfl
  rcases (hinv.control.expects hstack).1 with ⟨harranged, -⟩ | ⟨harranged, -⟩
  · exact ⟨.detached, .detached, .start hinv.sound (hquiet (Or.inr (Or.inl rfl)))
      harranged hkeeps⟩
  · have hordinary := harranged.role_self.1
    refine ⟨.resting, .resting hordinary, .start hinv.sound (hquiet (Or.inl rfl))
      (harranged.rest (only_self ..) (only_self ..) fun other hother => ?_) hkeeps⟩
    rw [only_of_ne hother, only_of_ne hother]

/-! ## The choice -/

section Choice

variable {state after : State} {callers : List Frame} {role : Role} {schedule : Schedule}
variable {readings : List ℕ}

/-- Interrupts since the list was looked at have only added to it. -/
theorem woke_of_read {read taking : State} {now : ℕ}
    (hwoke : State.Woke state (only state.current role) [] schedule state)
    (hstack : state.stack = .switchPick :: callers)
    (hread : state.step (.run now) = some read) (hhandles : read.HandlesAll readings taking) :
    ∃ woken left, taking.stack = .switchTake state.ready.head? :: callers ∧
      State.Woke state (only state.current role) woken left taking ∧
        (woken = [] → left = schedule) ∧ (woken ≠ [] ↔ SomeDue schedule readings) := by
  simp only [State.step, hstack, Frame.exec, Option.some.injEq] at hread
  subst hread
  exact hhandles.woke (hwoke.of_same rfl rfl rfl rfl rfl)

/-- The list was empty: the idle thread becomes current, or stays it. -/
theorem chooses_of_empty
    (hwoke : State.Woke state (only state.current role) [] schedule state)
    (hcalls : role.Calls state.queue.created state.idle state.current)
    (hstack : state.stack = .switchPick :: callers) (hready : state.ready = [])
    (hchooses : state.Chooses readings after) :
    after.current = after.idle ∧ (after.NoneRunnable ↔
      ¬SomeDue schedule readings ∧
        ¬(role = .detached ∧ state.current ≠ State.initThread ∧
          state.current ≠ state.idle)) := by
  -- What is known once the list has been looked at and some threads have been woken.
  have hnone {woken : List ThreadPtr} {left : Schedule} {later : State}
      (hlater : State.Woke state (only state.current role) woken left later)
      (hdue : woken ≠ [] ↔ SomeDue schedule readings) :
      later.NoneRunnable ↔ ¬SomeDue schedule readings ∧
        ¬(role = .detached ∧ state.current ≠ State.initThread ∧
          state.current ≠ state.idle) := by
    have hcalls' : role.Calls later.queue.created later.idle state.current := by
      rw [hlater.created, hlater.idle]
      exact hcalls
    rw [hlater.arranged.noneRunnable_iff hcalls', hlater.ready, hready, hlater.idle, ← hdue,
      List.nil_append, not_not]
  cases hchooses with
  | same hread hhandles htake hafter =>
      obtain ⟨woken, left, htaking, hwoken, -, hdue⟩ :=
        woke_of_read hwoke hstack hread hhandles
      rw [hready, List.head?_nil] at htaking
      simp only [State.step, htaking] at htake
      obtain rfl := exec_switchTake_iff.mp htake
      refine ⟨?_, hnone (hwoken.of_same rfl rfl rfl rfl rfl) hdue⟩
      by_contra hcurrent
      simp [if_neg (Ne.symm hcurrent)] at hafter
  | @other _ taking _ _ _ _ _ _ first rest _ _ hread hfirst htake hchosen hrest hassign =>
      obtain ⟨woken, left, htaking, hwoken, hsame, hdue⟩ :=
        woke_of_read hwoke hstack hread hfirst
      rw [hready, List.head?_nil] at htaking
      simp only [State.step, htaking] at htake
      obtain rfl := exec_switchTake_iff.mp htake
      obtain ⟨more, left', hstack', hassigning, -, hdue'⟩ :=
        hrest.woke (hwoken.of_same rfl rfl rfl rfl rfl)
      have hidle : taking.idle ≠ taking.current := by
        intro hidle
        simp [if_pos hidle] at hchosen
      rw [Option.getD_none, if_neg hidle] at hstack'
      simp only [State.step, hstack'] at hassign
      obtain rfl := Option.some.inj hassign
      refine ⟨hwoken.idle.trans hassigning.idle.symm, ?_⟩
      apply hnone hassigning
      rw [someDue_append, ← hdue, ne_eq, List.append_eq_nil_iff, not_and_or]
      by_cases hnil : woken = []
      · obtain rfl := hsame hnil
        exact or_congr_right hdue'
      · exact iff_of_true (Or.inl hnil) (Or.inl hnil)

/-- The first thread of the list has been taken off it: handlers leave it alone. -/
theorem State.Woke.taken {taking : State} {thread : ThreadPtr} {rest woken : List ThreadPtr}
    {left : Schedule} (hwoken : State.Woke state (only state.current role) woken left taking)
    (hcalls : role.Calls taking.queue.created taking.idle state.current)
    (hready : taking.ready = thread :: rest) (hthread : thread ≠ state.current) :
    State.Woke { taking with ready := rest } (both state.current role thread .picked) [] left
      { taking with ready := rest } := by
  obtain ⟨hordinary, hone, halarm, hstatus⟩ :=
    hwoken.arranged.ready_of_mem hcalls (show thread ∈ taking.ready by simp [hready])
  refine State.Woke.start (hwoken.sound.of_same rfl rfl rfl) ?_ ?_ hwoken.keeps
  · intro other
    have hother := hwoken.quiet other
    unfold both
    unfold only at hother
    split_ifs at hother ⊢
    · exact hother
    · exact Or.inr (Or.inr rfl)
    · exact hother
  · apply hwoken.arranged.change (place_tail hready) rfl rfl
    · rw [both_right hthread]
      exact ⟨hordinary.created, hordinary.not_init, congrArg (· - 1) hone, halarm,
        Or.inr hstatus⟩
    · intro other hother
      simp [both, only, hother]

/-- The list was not empty: an ordinary thread becomes current, or stays it. -/
theorem chooses_of_nonempty
    (hwoke : State.Woke state (only state.current role) [] schedule state)
    (hcalls : role.Calls state.queue.created state.idle state.current)
    (hstack : state.stack = .switchPick :: callers) (hready : state.ready ≠ [])
    (hchooses : state.Chooses readings after) : after.current ≠ after.idle := by
  obtain ⟨thread, ready, hready⟩ := List.exists_cons_of_ne_nil hready
  have hmem : thread ∈ state.ready := by simp [hready]
  obtain ⟨hordinary, -⟩ := hwoke.arranged.ready_of_mem hcalls hmem
  cases hchooses with
  | @same _ taking _ _ _ _ hread hhandles htake hafter =>
      obtain ⟨woken, left, htaking, hwoken, -⟩ := woke_of_read hwoke hstack hread hhandles
      rw [hready, List.head?_cons] at htaking
      simp only [State.step, htaking] at htake
      obtain rfl := exec_switchTake_iff.mp htake
      have hcurrent : thread = taking.current := by
        by_contra hne
        simp [if_neg hne] at hafter
      rw [← hcurrent, hwoken.idle]
      exact hordinary.not_idle
  | @other _ taking _ _ _ _ _ _ first rest _ _ hread hfirst htake hchosen hrest hassign =>
      obtain ⟨woken, left, htaking, hwoken, -⟩ := woke_of_read hwoke hstack hread hfirst
      rw [hready, List.head?_cons] at htaking
      simp only [State.step, htaking] at htake
      obtain rfl := exec_switchTake_iff.mp htake
      have hthread : thread ≠ taking.current := by
        intro heq
        simp [if_pos heq] at hchosen
      have htaken : taking.ready = thread :: (ready ++ woken) := by
        rw [hwoken.ready, hready, List.cons_append]
      have hcalls' : role.Calls taking.queue.created taking.idle state.current := by
        rw [hwoken.created, hwoken.idle]
        exact hcalls
      rw [Option.getD_some, if_neg hthread, Option.elim_some, htaken, List.tail_cons] at hrest
      rw [hwoken.current] at hthread
      obtain ⟨more, left', hstack', hassigning, -⟩ :=
        hrest.woke ((hwoken.taken hcalls' htaken hthread).of_same rfl rfl rfl rfl rfl)
      simp only [State.step, hstack'] at hassign
      obtain rfl := Option.some.inj hassign
      rw [hassigning.idle]
      exact hwoken.idle.symm ▸ hordinary.not_idle

end Choice

/-- `switch_thread` makes the idle thread current only if no other thread could run,
except when it finds `ready_threads` empty and is called by a running thread, or an
interrupt wakes a thread after that. -/
theorem idle_current_only_if_none_iff {count calibration : ℕ} {call state after : State}
    {callers : List Frame} {earlier readings : List ℕ} {schedule : Schedule}
    (hrun : RunsTo Uninterrupted (State.schedInit count calibration) call)
    (hstack : call.stack = .switchPick :: callers) (hearlier : call.HandlesAll earlier state)
    (hkeeps : state.queue.Keeps schedule) (hchooses : state.Chooses readings after) :
    (after.current = after.idle → after.NoneRunnable) ↔
      ¬(state.ready = [] ∧ ((state.threads state.current).status = .running ∧
        state.current ≠ state.idle ∨ SomeDue schedule readings)) := by
  have hinv := invariant_of_runsTo hrun
  obtain ⟨before, hbefore⟩ := hinv.sound.queue
  obtain ⟨role, hcalls, hwoke⟩ := hinv.calls hstack hbefore
  obtain ⟨woken, left, hstate, hwoken, -⟩ := hearlier.woke hwoke
  rw [← hwoken.created, ← hwoken.idle, ← hwoken.current] at hcalls
  have hstart : State.Woke state (only state.current role) [] schedule state := by
    rw [hwoken.current]
    exact .start hwoken.sound hwoken.quiet hwoken.arranged hkeeps
  rw [hstack] at hstate
  rw [hcalls.running_iff hstart.arranged]
  by_cases hready : state.ready = []
  · obtain ⟨hidle, hnone⟩ := chooses_of_empty hstart hcalls hstate hready hchooses
    rw [hnone, forall_prop_of_true hidle]
    tauto
  · apply iff_of_true
    · exact fun hidle =>
        absurd hidle (chooses_of_nonempty hstart hcalls hstate hready hchooses)
    · exact fun hempty => hready hempty.1

/-- Inputs that lead to `switch_thread` and through it, with interrupts after its look at
the list and what is read of the states before and after. -/
theorem chooses_of_runInputs {β : Type*} {start : State} {inputs : List Input} {now : ℕ}
    {interrupts : List (List ℕ)} {this next : ThreadPtr} {reading : State → State → β}
    {value : β}
    (hinputs : (start.runInputs Uninterrupted inputs).bind (fun state =>
      (state.step (.run now)).bind fun read =>
        ((read.handleAll interrupts).map Prod.snd).bind fun taking =>
          (taking.step (.run now)).bind fun chosen =>
            if chosen.stack.head? = some (.switchCurrent this next) then
              (chosen.step (.run now)).map fun after => reading state after
            else none) = some value) :
    ∃ state readings after, RunsTo Uninterrupted start state ∧
      state.Chooses readings after ∧ reading state after = value := by
  obtain ⟨state, hstate, hread⟩ := Option.bind_eq_some_iff.mp hinputs
  obtain ⟨read, hstep, hread⟩ := Option.bind_eq_some_iff.mp hread
  obtain ⟨taking, htaking, hread⟩ := Option.bind_eq_some_iff.mp hread
  obtain ⟨⟨readings, _⟩, hhandle, rfl⟩ := Option.map_eq_some_iff.mp htaking
  obtain ⟨chosen, htake, hread⟩ := Option.bind_eq_some_iff.mp hread
  obtain ⟨hchosen, hread⟩ := Option.ite_none_right_eq_some.mp hread
  obtain ⟨after, hassign, hread⟩ := Option.map_eq_some_iff.mp hread
  exact ⟨state, readings ++ [], after, runsTo_of_runInputs Uninterrupted hstate,
    .other hstep (handlesAll_of_handleAll hhandle) htake hchosen .none hassign, hread⟩

/-- A thread that goes to sleep gives way to the idle thread.  An interrupt arrives after
the list was found empty and finds nothing due. -/
theorem idle_current_only_if_none_after_sleep :
    ∃ state readings schedule after, RunsTo Uninterrupted (State.schedInit 1 100000) state ∧
      state.stack = [.switchPick, .threadCode] ∧ state.ready = [] ∧
        state.queue.Keeps schedule ∧ state.Chooses readings after ∧
          after.current = after.idle ∧ after.NoneRunnable ∧ ¬SomeDue schedule readings := by
  have hinputs : ((State.schedInit 1 100000).runInputs Uninterrupted
      (List.replicate 20 (Input.run 10) ++
        Input.sleep 1000 :: List.replicate 3 (Input.run 10))).bind (fun state =>
        (state.step (.run 20)).bind fun read =>
          ((read.handleAll [List.replicate 6 20]).map Prod.snd).bind fun taking =>
            (taking.step (.run 20)).bind fun chosen =>
              if chosen.stack.head? = some (.switchCurrent 2 1) then
                (chosen.step (.run 20)).map fun after =>
                  (state.stack, state.ready, decide (after.current = after.idle),
                    decide after.NoneRunnable)
              else none) = some ([.switchPick, .threadCode], [], true, true) := by
    decide +kernel
  obtain ⟨state, readings, after, hrun, hchooses, hread⟩ := chooses_of_runInputs hinputs
  simp only [Prod.mk.injEq, decide_eq_true_eq] at hread
  obtain ⟨hstack, hready, hmade, hnone⟩ := hread
  obtain ⟨schedule, hkeeps⟩ := (invariant_of_runsTo hrun).sound.queue
  have hexcept := (idle_current_only_if_none_iff hrun hstack .none hkeeps hchooses).mp
    fun _ => hnone
  exact ⟨state, readings, schedule, after, hrun, hstack, hready, hkeeps, hchooses, hmade,
    hnone, fun hdue => hexcept ⟨hready, Or.inr hdue⟩⟩

/-- The quantum of the only thread is over: the thread is `RUNNING`, the idle thread
is made current all the same.  And when the only thread goes to sleep, an interrupt that
arrives after the list was found empty makes it `READY`, and the idle thread is made
current. -/
theorem idle_current_while_thread_running :
    (∃ state readings after, RunsTo Uninterrupted (State.schedInit 1 100000) state ∧
      state.stack.head? = some .switchPick ∧ state.Chooses readings after ∧
        after.current = after.idle ∧ (2 : ThreadPtr) ≠ after.idle ∧
          (after.threads 2).status = .running) ∧
    ∃ state readings after, RunsTo Uninterrupted (State.schedInit 1 100000) state ∧
      state.stack.head? = some .switchPick ∧ state.Chooses readings after ∧
        after.current = after.idle ∧ (2 : ThreadPtr) ≠ after.idle ∧
          (after.threads 2).status = .ready := by
  have hexpired : ((State.schedInit 1 100000).runInputs Uninterrupted
      (List.replicate 20 (Input.run 10) ++
        Input.interrupt :: List.replicate 5 (Input.run 3100000))).bind (fun state =>
        (state.step (.run 3100000)).bind fun read =>
          ((read.handleAll []).map Prod.snd).bind fun taking =>
            (taking.step (.run 3100000)).bind fun chosen =>
              if chosen.stack.head? = some (.switchCurrent 2 1) then
                (chosen.step (.run 3100000)).map fun after =>
                  (state.stack.head?, after.current, after.idle, (after.threads 2).status)
              else none) = some (some .switchPick, 1, 1, .running) := by
    decide +kernel
  have hwoken : ((State.schedInit 1 100000).runInputs Uninterrupted
      (List.replicate 20 (Input.run 10) ++
        Input.sleep 1000 :: List.replicate 3 (Input.run 10))).bind (fun state =>
        (state.step (.run 2000)).bind fun read =>
          ((read.handleAll [List.replicate 10 2000]).map Prod.snd).bind fun taking =>
            (taking.step (.run 2000)).bind fun chosen =>
              if chosen.stack.head? = some (.switchCurrent 2 1) then
                (chosen.step (.run 2000)).map fun after =>
                  (state.stack.head?, after.current, after.idle, (after.threads 2).status)
              else none) = some (some .switchPick, 1, 1, .ready) := by
    decide +kernel
  constructor
  · obtain ⟨state, readings, after, hrun, hchooses, hread⟩ := chooses_of_runInputs hexpired
    simp only [Prod.mk.injEq] at hread
    obtain ⟨hhead, hcurrent, hidle, hstatus⟩ := hread
    exact ⟨state, readings, after, hrun, hhead, hchooses, hcurrent.trans hidle.symm,
      by simp [hidle], hstatus⟩
  · obtain ⟨state, readings, after, hrun, hchooses, hread⟩ := chooses_of_runInputs hwoken
    simp only [Prod.mk.injEq] at hread
    obtain ⟨hhead, hcurrent, hidle, hstatus⟩ := hread
    exact ⟨state, readings, after, hrun, hhead, hchooses, hcurrent.trans hidle.symm,
      by simp [hidle], hstatus⟩

end Flurry.Sched
