import Flurry.Multitasking.SwitchInterrupts

/-!
# An interrupt between `unlock_scheduler` and the switch

`thread_sleep` enables interrupts again before it gives up the processor.  If the
timer interrupt arrives there, `handle_next_event` may wake the very thread that is
about to switch away.  The thread is then ready while it still runs, and unless it
switches to itself, `maybe_reschedule_thread` puts it on the list a second time.
-/

namespace Flurry.Sched

open ByteMemory Events

/-! ## From the interrupt to the switch -/

/-- The last control points of `maybe_reschedule_thread`, and of `switch_thread` when
it stays with the same thread. -/
def Frame.settles : Frame → Bool
  | rescheduleUnlock | switchEnqueue => true
  | _ => false

/-- `maybe_reschedule_thread`, or `switch_thread` without a switch, has returned. -/
def State.Settles (state final : State) : Prop :=
  ∃ nows readings, state.runUntil Frame.settles nows = some (readings, final)

section Settle

variable {state after final : State} {frame : Frame} {callers : List Frame}

/-- One step before the end. -/
theorem State.Settles.step (hsettles : state.Settles final)
    (hstack : state.stack = frame :: callers) (hframe : frame.settles = false) :
    ∃ now after, frame.exec callers state now = some after ∧ after.Settles final := by
  obtain ⟨nows, readings, hrun⟩ := hsettles
  obtain ⟨now, nows', readings', after, -, hexec, hrest, -⟩ := runUntil_step hstack hframe hrun
  exact ⟨now, after, hexec, nows', readings', hrest⟩

/-- No thread is on the list twice, and the running thread is not on it. -/
def State.ListedOnce (state : State) : Prop :=
  state.ready.Nodup ∧ state.current ∉ state.ready

instance (state : State) : Decidable state.ListedOnce :=
  inferInstanceAs (Decidable (_ ∧ _))

/-! ## The switch -/

/-- Control points from the choice of another thread on. -/
def Frame.switching : Frame → Bool
  | switchCurrent _ _ | switchStatus _ _ | switchContext _ _ | rescheduleLock _
  | rescheduleRequeue _ | rescheduleEnqueue | rescheduleUnlock => true
  | _ => false

theorem exec_switching {now : ℕ} (hframe : frame.switching = true)
    (hlast : frame.settles = false) (hexec : frame.exec callers state now = some after) :
    (∃ frame' callers', after.stack = frame' :: callers' ∧ frame'.switching = true) ∨
      after.stack = [.panic] := by
  cases frame with
  | switchCurrent _ _ | switchStatus _ _ | rescheduleLock _ | rescheduleRequeue _ =>
      obtain rfl := Option.some.inj hexec
      exact Or.inl ⟨_, _, rfl, rfl⟩
  | switchContext this next =>
      obtain rfl := Option.some.inj hexec
      obtain ⟨resumed, hframes, -⟩ := (state.threads next).saved.frames_eq this
      exact Or.inl ⟨_, resumed, hframes, rfl⟩
  | rescheduleEnqueue =>
      obtain ⟨-, rfl⟩ := exec_rescheduleEnqueue_iff.mp hexec
      rcases enqueueEvent_cases _ (.rescheduleUnlock :: callers) with heq | ⟨queue, heq⟩
      · exact Or.inr (heq ▸ rfl)
      · exact Or.inl ⟨.rescheduleUnlock, callers, heq ▸ rfl, rfl⟩
  | rescheduleUnlock => simp [Frame.settles] at hlast
  | _ => simp [Frame.switching] at hframe

theorem State.Arranged.listedOnce (harranged : state.Arranged (only state.current .running)) :
    state.ListedOnce := by
  have hcurrent := harranged.role_self
  refine ⟨List.nodup_iff_count_le_one.mpr fun thread => ?_, ?_⟩
  · change (state.place thread).listed ≤ 1
    by_cases hthread : thread = state.current
    · rw [hthread, hcurrent.2.1]
      exact Nat.zero_le 1
    · exact (harranged.resting hthread).listed_le_one
  · exact List.count_eq_zero.mp hcurrent.2.1

/-- A switch that the invariant allows ends well. -/
theorem State.Settles.of_invariant (hsettles : state.Settles final) (hinv : state.Invariant)
    (hstack : state.stack = frame :: callers) (hframe : frame.switching = true) :
    final.ListedOnce := by
  obtain ⟨nows, readings, hrun⟩ := hsettles
  apply @runUntil_keeps Frame.settles state final nows readings (fun state =>
    state.Invariant ∧ ∃ frame callers, state.stack = frame :: callers ∧
      frame.switching = true)
    State.ListedOnce rfl _ _ ⟨hinv, frame, callers, hstack, hframe⟩ hrun
  · intro state after frame callers now hstate hstack hlast hexec
    obtain ⟨hinv, frame', callers', hstack', hframe⟩ := hstate
    obtain ⟨rfl, rfl⟩ := List.cons.inj (hstack'.symm.trans hstack)
    rcases exec_switching hframe hlast hexec with hnext | hpanic
    · exact Or.inl ⟨exec_invariant hinv hstack hexec, hnext⟩
    · exact Or.inr hpanic
  · intro state final frame callers now hstate hstack hlast hexec
    obtain ⟨hinv, frame', callers', hstack', hframe⟩ := hstate
    obtain ⟨rfl, rfl⟩ := List.cons.inj (hstack'.symm.trans hstack)
    cases frame' with
    | rescheduleUnlock =>
        have harranged : state.Arranged (only state.current .running) :=
          (hinv.control.expects hstack).1
        obtain rfl := Option.some.inj hexec
        exact harranged.listedOnce
    | switchEnqueue => simp [Frame.switching] at hframe
    | _ => simp [Frame.settles] at hlast

/-- A thread that stays with the processor is not requeued. -/
theorem State.Settles.of_rearm (hsettles : state.Settles final) (honce : state.ListedOnce)
    (hstack : state.stack = .switchRearm :: callers) : final.ListedOnce := by
  obtain ⟨now, after, hexec, nows, readings, hrest⟩ := hsettles.step hstack rfl
  obtain ⟨-, rfl⟩ := exec_switchRearm_iff.mp hexec
  obtain ⟨-, now', hlast⟩ := runUntil_last rfl rfl hrest
  obtain rfl := Option.some.inj hlast
  rcases enqueueEvent_cases _ callers with heq | ⟨queue, heq⟩ <;> rw [heq] <;> exact honce

/-- A thread that is ready and listed while it gives up the processor. -/
structure State.Relisted (state : State) (thread : ThreadPtr) : Prop where
  not_idle : thread ≠ state.idle
  status : (state.threads thread).status = .ready
  listed : thread ∈ state.ready

/-- Control points on the way to the second entry in the list. -/
def Frame.Doubles (thread : ThreadPtr) (state : State) : Frame → Prop
  | switchCurrent this next => this = thread ∧ next ≠ thread ∧ state.Relisted thread
  | switchStatus this _ => this = thread ∧ state.current ≠ thread ∧ state.Relisted thread
  | switchContext this _ => this = thread ∧ state.Relisted thread
  | rescheduleLock old | rescheduleRequeue old => old = thread ∧ state.Relisted thread
  | rescheduleEnqueue | rescheduleUnlock => ¬state.ready.Nodup
  | _ => False

theorem exec_doubles {now : ℕ} {thread : ThreadPtr} (hdoubles : frame.Doubles thread state)
    (hlast : frame.settles = false) (hexec : frame.exec callers state now = some after) :
    (∃ frame' callers', after.stack = frame' :: callers' ∧ frame'.Doubles thread after) ∨
      after.stack = [.panic] := by
  cases frame with
  | switchCurrent this next =>
      obtain ⟨rfl, hnext, hrelisted⟩ := hdoubles
      obtain rfl := Option.some.inj hexec
      exact Or.inl ⟨_, _, rfl, rfl, hnext, hrelisted.1, hrelisted.2, hrelisted.3⟩
  | switchStatus this next =>
      obtain ⟨rfl, hcurrent, hrelisted⟩ := hdoubles
      obtain rfl := Option.some.inj hexec
      refine Or.inl ⟨_, _, rfl, rfl, hrelisted.1, ?_, hrelisted.3⟩
      simpa [State.setStatus, Function.update_of_ne hcurrent.symm] using hrelisted.status
  | switchContext this next =>
      obtain ⟨rfl, hrelisted⟩ := hdoubles
      obtain rfl := Option.some.inj hexec
      obtain ⟨resumed, hframes, -⟩ := (state.threads next).saved.frames_eq this
      refine Or.inl ⟨_, resumed, hframes, rfl, hrelisted.1, ?_, hrelisted.3⟩
      simpa [State.switchContext] using hrelisted.status
  | rescheduleLock old =>
      obtain ⟨rfl, hrelisted⟩ := hdoubles
      obtain rfl := Option.some.inj hexec
      exact Or.inl ⟨_, _, rfl, rfl, hrelisted.1, hrelisted.2, hrelisted.3⟩
  | rescheduleRequeue old =>
      obtain ⟨rfl, hrelisted⟩ := hdoubles
      obtain rfl := Option.some.inj hexec
      refine Or.inl ⟨_, _, rfl, ?_⟩
      -- The thread is added although it is on the list.
      have hrequeue : (state.requeue old).ready = state.ready ++ [old] := by
        simp [State.requeue, hrelisted.not_idle, hrelisted.status, State.threadListAdd,
          State.setStatus]
      change ¬(state.requeue old).ready.Nodup
      rw [hrequeue, List.nodup_append]
      rintro ⟨-, -, hdisjoint⟩
      exact hdisjoint old hrelisted.listed old (by simp) rfl
  | rescheduleEnqueue =>
      obtain ⟨-, rfl⟩ := exec_rescheduleEnqueue_iff.mp hexec
      rcases enqueueEvent_cases _ (.rescheduleUnlock :: callers) with heq | ⟨queue, heq⟩
      · exact Or.inr (heq ▸ rfl)
      · exact Or.inl ⟨.rescheduleUnlock, callers, heq ▸ rfl, heq ▸ hdoubles⟩
  | rescheduleUnlock => simp [Frame.settles] at hlast
  | _ => exact hdoubles.elim

/-- A thread that is on the list when it gives up the processor ends up there
twice. -/
theorem State.Settles.of_doubles {thread : ThreadPtr} (hsettles : state.Settles final)
    (hstack : state.stack = frame :: callers) (hdoubles : frame.Doubles thread state) :
    ¬final.ListedOnce := by
  obtain ⟨nows, readings, hrun⟩ := hsettles
  apply @runUntil_keeps Frame.settles state final nows readings (fun state =>
    ∃ frame callers, state.stack = frame :: callers ∧ frame.Doubles thread state)
    (fun final => ¬final.ListedOnce) rfl _ _ ⟨frame, callers, hstack, hdoubles⟩ hrun
  · intro state after frame callers now hstate hstack hlast hexec
    obtain ⟨frame', callers', hstack', hdoubles⟩ := hstate
    obtain ⟨rfl, rfl⟩ := List.cons.inj (hstack'.symm.trans hstack)
    exact exec_doubles hdoubles hlast hexec
  · intro state final frame callers now hstate hstack hlast hexec
    obtain ⟨frame', callers', hstack', hdoubles⟩ := hstate
    obtain ⟨rfl, rfl⟩ := List.cons.inj (hstack'.symm.trans hstack)
    cases frame' with
    | rescheduleUnlock =>
        obtain rfl := Option.some.inj hexec
        exact fun honce => hdoubles honce.1
    | switchEnqueue => exact hdoubles.elim
    | _ => simp [Frame.settles] at hlast

/-- A thread that rests and is not on the list sleeps. -/
theorem Resting.holds_asleep {limit idle thread : ThreadPtr} {place : Place}
    (hrest : Resting limit idle thread place) (hordinary : Ordinary limit idle thread)
    (hlisted : place.listed = 0) : Role.asleep.Holds limit idle thread place := by
  cases hrest with
  | absent hlimit _ _ => exact absurd hordinary.created (not_lt.mpr hlimit)
  | init hinit _ _ _ => exact absurd hinit hordinary.not_init
  | idle hidle _ _ => exact absurd hidle hordinary.not_idle
  | ready _ hone _ _ => simp [hlisted] at hone
  | asleep _ _ hwake hstatus => exact ⟨hordinary, hlisted, hstatus, hwake⟩

/-! ## A thread that was to sleep

The other threads rest, and the thread that calls `thread_sleep` may have been
woken. -/

variable {rest : List Frame}

/-- It has chosen another thread. -/
theorem State.Settles.of_current {next : ThreadPtr} (hsettles : state.Settles final)
    (hsound : state.Sound) (harranged : state.Arranged (only next .picked))
    (hnext : next ≠ state.current)
    (hordinary : Ordinary state.queue.created state.idle state.current)
    (hstack : state.stack = .switchCurrent state.current next :: .threadCode :: rest)
    (hreturn : ∀ caller ∈ rest, caller.IsReturn = true) :
    final.ListedOnce ↔ state.current ∉ state.ready := by
  have hplace := harranged.resting hnext.symm
  by_cases hlisted : state.current ∈ state.ready
  · have hcount : (state.place state.current).listed ≠ 0 :=
      (List.count_pos_iff.mpr hlisted).ne'
    obtain ⟨-, -, -, hstatus⟩ := hplace.of_listed hcount
    have hdoubles : Frame.Doubles state.current state (.switchCurrent state.current next) :=
      ⟨rfl, hnext, hordinary.not_idle, hstatus, hlisted⟩
    exact iff_of_false (hsettles.of_doubles hstack hdoubles) (not_not_intro hlisted)
  · -- The thread still sleeps, as the invariant of the switch demands.
    have hboth : state.Arranged (both state.current .asleep next .picked) := by
      apply harranged.change (Function.update_eq_self state.current state.place).symm rfl rfl
      · rw [both_left]
        exact hplace.holds_asleep hordinary (List.count_eq_zero.mpr hlisted)
      · intro other hother
        simp [both, only, hother]
    have hinv : state.Invariant := by
      refine ⟨hsound, control_of_expects hstack
        ⟨rfl, hnext, .asleep, Or.inr ⟨rfl, rfl⟩, hboth⟩ ?_,
        fun hinit => absurd hinit hordinary.not_init⟩
      intro caller hcaller
      rcases List.mem_cons.mp hcaller with rfl | hcaller
      · rfl
      · exact hreturn caller hcaller
    exact iff_of_true (hsettles.of_invariant hinv hstack rfl) hlisted

/-- It has read the head of the list, and threads may have been woken since. -/
theorem State.Settles.of_take {head : Option ThreadPtr} (hsettles : state.Settles final)
    (hsound : state.Sound) (hrest : state.Arranged fun _ => .resting)
    (hordinary : Ordinary state.queue.created state.idle state.current)
    (hstack : state.stack = .switchTake head :: .threadCode :: rest)
    (hreturn : ∀ caller ∈ rest, caller.IsReturn = true)
    (hhead : head = none ∨ head = state.ready.head?) (hother : head ≠ some state.current) :
    final.ListedOnce ↔ state.current ∉ state.ready := by
  obtain ⟨now, after, hexec, hsettles'⟩ := hsettles.step hstack rfl
  obtain rfl := exec_switchTake_iff.mp hexec
  cases head with
  | none =>
      have hidle : state.idle ≠ state.current := hordinary.not_idle.symm
      have harranged : state.Arranged (only state.idle .picked) := by
        apply hrest.change (Function.update_eq_self state.idle state.place).symm rfl rfl
        · rw [only_self]
          have hall : state.Arranged (only state.current .resting) := by
            intro thread
            simpa [only] using hrest thread
          exact hall.idle_picked hsound hidle
        · intro other hne
          rw [only_of_ne hne]
      rw [Option.getD_none, if_neg hidle] at hsettles'
      exact hsettles'.of_current (hsound.of_same rfl rfl rfl) harranged hidle hordinary rfl
        hreturn
  | some thread =>
      obtain ⟨ready, hready⟩ :=
        List.head?_eq_some_iff.mp (hhead.resolve_left (by simp)).symm
      have hthread : thread ≠ state.current := fun heq => hother (heq ▸ rfl)
      have hcount : (state.place thread).listed ≠ 0 :=
        (List.count_pos_iff.mpr (show thread ∈ state.ready by simp [hready])).ne'
      obtain ⟨hpicked, hone, halarm, hstatus⟩ := Resting.of_listed (hrest thread) hcount
      have harranged : ({ state with ready := ready } : State).Arranged
          (only thread .picked) := by
        apply hrest.change (place_tail hready) rfl rfl
        · rw [only_self]
          exact ⟨hpicked.created, hpicked.not_init, congrArg (· - 1) hone, halarm,
            Or.inr hstatus⟩
        · intro other hne
          rw [only_of_ne hne]
      rw [Option.getD_some, if_neg hthread, Option.elim_some, hready, List.tail_cons]
        at hsettles'
      have hiff := hsettles'.of_current (hsound.of_same rfl rfl rfl) harranged hthread
        hordinary rfl hreturn
      rw [hiff, hready, List.mem_cons, not_or]
      exact (and_iff_right hthread.symm).symm

/-- It has not looked at the list yet. -/
theorem State.Settles.of_pick (hsettles : state.Settles final)
    (hsound : state.Sound) (hrest : state.Arranged fun _ => .resting)
    (hordinary : Ordinary state.queue.created state.idle state.current)
    (hstack : state.stack = .switchPick :: .threadCode :: rest)
    (hreturn : ∀ caller ∈ rest, caller.IsReturn = true) :
    final.ListedOnce ↔
      (state.current ∈ state.ready → state.ready.head? = some state.current) := by
  obtain ⟨now, after, hexec, hsettles'⟩ := hsettles.step hstack rfl
  obtain rfl := Option.some.inj hexec
  by_cases hhead : state.ready.head? = some state.current
  · -- The thread stays with the processor.
    obtain ⟨now', after', hexec', hsettles''⟩ := hsettles'.step rfl rfl
    obtain rfl := exec_switchTake_iff.mp hexec'
    obtain ⟨ready, hready⟩ := List.head?_eq_some_iff.mp hhead
    have hnodup : state.ready.Nodup :=
      List.nodup_iff_count_le_one.mpr fun thread => (hrest thread).listed_le_one
    rw [hready, List.nodup_cons] at hnodup
    rw [hhead, Option.getD_some, if_pos rfl, Option.elim_some, hready, List.tail_cons]
      at hsettles''
    exact iff_of_true (hsettles''.of_rearm ⟨hnodup.2, hnodup.1⟩ rfl) fun _ => hhead
  · have hiff := hsettles'.of_take (hsound.of_same rfl rfl rfl) hrest hordinary rfl hreturn
      (Or.inr rfl) hhead
    rw [hiff]
    exact (imp_iff_not hhead).symm

end Settle

/-! ## The window -/

/-- Control points of `switch_thread` before it has changed `current_thread`. -/
def Frame.choosing : Frame → Bool
  | switchPick | switchTake _ | switchCurrent _ _ => true
  | _ => false

/-- The roles of the threads in the window: all rest, the one that calls `thread_sleep`
too, except for a thread that has been taken off the list. -/
def Frame.windowRoles : Frame → ThreadPtr → Role
  | switchCurrent _ next => only next .picked
  | _ => fun _ => .resting

/-- What the window looks like before the interrupt. -/
theorem woke_of_window {window : State} {frame : Frame} {rest : List Frame}
    {schedule : Schedule} (hinv : window.Invariant)
    (hstack : window.stack = frame :: .threadCode :: rest) (hframe : frame.choosing = true)
    (hkeeps : window.queue.Keeps schedule) :
    Ordinary window.queue.created window.idle window.current ∧
      window.current ∉ window.ready ∧
        State.Woke window frame.windowRoles [] schedule window := by
  have hexpects := (hinv.control.expects hstack).1
  -- The first two control points expect the same of the threads.
  have hresting (harranged : window.Arranged (only window.current .asleep)) :
      Ordinary window.queue.created window.idle window.current ∧
        window.current ∉ window.ready ∧
          State.Woke window (fun _ => .resting) [] schedule window := by
    obtain ⟨hordinary, hlisted, -⟩ := harranged.role_self
    refine ⟨hordinary, List.count_eq_zero.mp hlisted, .start hinv.sound
      (fun _ => Or.inl rfl) (harranged.rest (only_self ..) rfl fun other hother => ?_) hkeeps⟩
    rw [only_of_ne hother]
  cases frame with
  | switchPick =>
      rcases hexpects with ⟨-, hcaller⟩ | ⟨harranged, -⟩
      · simp at hcaller
      · exact hresting harranged
  | switchTake head =>
      rcases hexpects.2 with ⟨-, hcaller⟩ | ⟨harranged, -⟩
      · simp at hcaller
      · exact hresting harranged
  | switchCurrent this next =>
      obtain ⟨rfl, hnext, role, hrole, harranged⟩ := hexpects
      obtain ⟨-, hcaller⟩ | ⟨rfl, -⟩ := hrole
      · simp at hcaller
      · obtain ⟨hordinary, hlisted, -⟩ := harranged.role_left
        refine ⟨hordinary, List.count_eq_zero.mp hlisted, .start hinv.sound (fun thread => ?_)
          (harranged.rest (both_left ..) (only_of_ne hnext.symm) fun other hother => ?_) hkeeps⟩
        · by_cases hthread : thread = next <;> simp [Frame.windowRoles, only, hthread, Role.Quiet]
        · simp [Frame.windowRoles, only, both, hother]
  | _ => simp [Frame.choosing] at hframe

/-- Inputs that lead to the window, through the handler and through the switch, with
what is read on the way. -/
theorem window_of_runInputs {β : Type*} {start : State} {inputs : List Input}
    {handler switch : List ℕ} {reading : State → State → β} {value : β}
    (hinputs : (start.runInputs Uninterrupted inputs).bind (fun window =>
      (window.step .interrupt).bind fun interrupted =>
        (interrupted.runUntil Frame.isInterruptReturn handler).bind fun handled =>
          ((handled.2.runUntil Frame.settles switch).map Prod.snd).map fun final =>
            reading window final) = some value) :
    ∃ window resumed final readings, RunsTo Uninterrupted start window ∧
      window.Handles readings resumed ∧ resumed.Settles final ∧
        reading window final = value := by
  obtain ⟨window, hwindow, hread⟩ := Option.bind_eq_some_iff.mp hinputs
  obtain ⟨interrupted, hinterrupt, hread⟩ := Option.bind_eq_some_iff.mp hread
  obtain ⟨⟨readings, resumed⟩, hhandler, hread⟩ := Option.bind_eq_some_iff.mp hread
  obtain ⟨final, hfinal, hread⟩ := Option.map_eq_some_iff.mp hread
  obtain ⟨⟨unread, _⟩, hswitch, rfl⟩ := Option.map_eq_some_iff.mp hfinal
  exact ⟨window, resumed, _, readings, runsTo_of_runInputs Uninterrupted hwindow,
    ⟨interrupted, handler, hinterrupt, hhandler⟩, ⟨switch, unread, hswitch⟩, hread⟩

end Flurry.Sched
