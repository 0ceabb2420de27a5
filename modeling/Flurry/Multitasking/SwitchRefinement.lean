import Flurry.Hardware.InterruptDelivery
import Flurry.Multitasking.ContextSwitch
import Flurry.Multitasking.Runner

/-!
# The scheduler on real stacks

The scheduler's model puts a whole stack away in one step and goes on with another
one.  On the machine this is `switch_context`, which only knows the words on two
stacks.  The two are run side by side: the scheduler takes a step, the machine runs
any code that respects the other threads' stacks, and where the scheduler switches
the machine executes `switch_context`.  What the scheduler has put away is then
what lies on the stacks.
-/

namespace Flurry.SwitchRefinement

open ByteMemory Processor ContextSwitch

variable {Thread : Type*} [DecidableEq Thread] {limit : ℕ}

/-! ## The scheduler and the machine side by side -/

structure System (Thread : Type*) where
  sched : Sched.State
  switching : SwitchState Thread

/-- The call `switch_context(old, new)`. -/
def switchCode (space : ThreadSpace Thread) (machine : Machine) (old new : Thread) :
    Machine :=
  let call := (machine.set .rdi (BitVec.ofNat 64 (space.ptr old))).set .rsi
    (BitVec.ofNat 64 (space.ptr new))
  (call.pushWord call.rip).run switchContext

/-- The frame of a call fits on the running thread's stack. -/
structure HasRoom (space : ThreadSpace Thread) (state : SwitchState Thread) : Prop where
  lower : space.low state.running + 64 ≤ (state.machine.regs .rsp).toNat
  upper : (state.machine.regs .rsp).toNat + (state.phase state.running).reserved ≤
    space.high state.running

/-- Steps of both.  `number` is the scheduler's number of a thread; the machine's code
leaves the interrupt flag as the scheduler's step does. -/
inductive Step (number : Thread ≃ Fin limit) (space : ThreadSpace Thread) :
    System Thread → System Thread → Prop
  | sched {system : System Thread} {input : Sched.Input} {after : Sched.State}
      (machine' : Machine) :
      Sched.Uninterrupted system.sched input →
      (∀ frame ∈ system.sched.stack.head?, frame.switches = false) →
      system.sched.step input = some after →
      system.switching.Keeps space machine'.memory →
      machine'.rflags.interrupts = after.interruptFlag →
        Step number space system ⟨after, { system.switching with machine := machine' }⟩
  /-- the return of `init_thread` to the entry function -/
  | initReturn {system : System Thread} (entry : Word) :
      system.switching.phase system.switching.running = .running (.initializing entry) →
      (system.switching.machine.regs .rsp).toNat + 8 =
        space.high system.switching.running →
        Step number space system { system with
          switching := { system.switching with
            machine := system.switching.machine.exec .ret
            phase := Function.update system.switching.phase system.switching.running
              (.running .started) } }
  | switch {system : System Thread} {callers : List Sched.Frame} (old new : Thread) :
      system.sched.stack = .switchContext (number old) (number new) :: callers →
      HasRoom space system.switching →
        Step number space system
          ⟨system.sched.switchContext callers (number old) (number new),
            { machine := switchCode space system.switching.machine old new
              running := new
              phase := (system.switching.switch space new).phase }⟩

/-- The threads when `sched_init` has created them. -/
structure Starts (number : Thread ≃ Fin limit) (start : SwitchState Thread) : Prop where
  running : (number start.running : ℕ) = Sched.State.initThread
  fresh : ∀ thread, thread ≠ start.running → ∃ entry, start.phase thread = .fresh entry
  flag : start.machine.rflags.interrupts = true

/-! ## The simulation -/

/-- A stack that the scheduler has put away, and the thread's record. -/
def HeldBy (phase : Phase) (saved : Sched.SavedStack) : Prop :=
  match saved.resume with
  | .initThread => (∃ entry, phase = .fresh entry) ∧ saved.interruptFlag = true
  | .switchThread => ∃ call stage, phase = .suspended call stage ∧
      call.rflags.interrupts = saved.interruptFlag

structure InSync (number : Thread ≃ Fin limit) (system : System Thread) : Prop where
  invariant : system.sched.Invariant
  created : system.sched.queue.created = limit
  running : (number system.switching.running : ℕ) = system.sched.runner
  flag : system.switching.machine.rflags.interrupts = system.sched.interruptFlag
  saved : ∀ thread, thread ≠ system.switching.running →
    HeldBy (system.switching.phase thread) (system.sched.threads (number thread)).saved

/-- The machine goes on where the scheduler does: a stack that was put away is taken up
at its own call, a new one in `init_thread`, and both are told which thread was left. -/
structure Resumes (space : ThreadSpace Thread) (phase : Phase) (saved : Sched.SavedStack)
    (old new : Thread) (machine : Machine) : Prop where
  flag : machine.rflags.interrupts = saved.interruptFlag
  suspended : saved.resume = .switchThread → ∃ call stage, phase = .suspended call stage ∧
    (∀ reg ∈ .rsp :: frameRegs, machine.regs reg = call.regs reg) ∧
    machine.rip = call.rip ∧ machine.regs .rax = BitVec.ofNat 64 (space.ptr old)
  fresh : saved.resume = .initThread →
    machine.rip = BitVec.ofNat 64 space.symbols.initThread ∧
    machine.regs .rdi = BitVec.ofNat 64 (space.ptr old) ∧
    (machine.regs .rsp).toNat + 8 = space.high new

section Simulation

variable {number : Thread ≃ Fin limit} {space : ThreadSpace Thread}
variable {system after : System Thread} {old new : Thread} {callers : List Sched.Frame}

theorem HeldBy.ne_absent {phase : Phase} {saved : Sched.SavedStack}
    (hheld : HeldBy phase saved) : phase ≠ .absent := by
  rintro rfl
  unfold HeldBy at hheld
  split at hheld
  · obtain ⟨⟨entry, hentry⟩, -⟩ := hheld
    exact absurd hentry (by simp)
  · obtain ⟨call, stage, hcall, -⟩ := hheld
    exact absurd hcall (by simp)

/-- `switch_context` takes up what the scheduler has put away. -/
theorem HeldBy.resumes {state : SwitchState Thread} {saved : Sched.SavedStack}
    (hheld : HeldBy (state.phase new) saved) (hsound : Sound space state)
    (hne : new ≠ state.running) (hroom : HasRoom space state) :
    Resumes space (state.phase new) saved state.running new
      (switchCode space state.machine state.running new) := by
  obtain ⟨machine, hrun, hrdi, hrsi, hholds⟩ :=
    hsound.parked ⟨hheld.ne_absent, hroom.lower, hroom.upper⟩
  have hnew := hholds new
  rw [SwitchState.parked_of_ne _ _ hne] at hnew
  change switchCode space state.machine state.running new = _ at hrun
  rw [hrun]
  unfold HeldBy at hheld
  split at hheld
  · rename_i hresume
    obtain ⟨⟨entry, hentry⟩, hflag⟩ := hheld
    rw [hentry] at hnew
    obtain ⟨cpu, hcpu, hparked, -⟩ := hnew
    have hrestored := hparked.restored hrsi
    constructor
    · rw [hrestored.rflags, Rflags.interrupts, hcpu.rflags, hflag]
      decide
    · rw [hresume]
      exact fun hfresh => absurd hfresh (by decide)
    · intro _
      refine ⟨?_, ?_, ?_⟩
      · rw [hrestored.rip, hcpu.rip]
      · rw [hrestored.rdi, hrdi]
      · rw [hrestored.regs .rsp List.mem_cons_self, hcpu.rsp]
  · rename_i hresume
    obtain ⟨call, stage, hcall, hflag⟩ := hheld
    rw [hcall] at hnew ⊢
    have hrestored := hnew.1.restored hrsi
    constructor
    · rw [hrestored.rflags, hflag]
    · intro _
      exact ⟨call, stage, rfl, hrestored.regs, hrestored.rip, hrestored.rax.trans hrdi⟩
    · rw [hresume]
      exact fun hsuspended => absurd hsuspended (by decide)

omit [DecidableEq Thread] in
/-- Where the scheduler switches, the running thread leaves and another one enters. -/
theorem InSync.switching (hsync : InSync number system)
    (hstack : system.sched.stack = .switchContext (number old) (number new) :: callers) :
    old = system.switching.running ∧ new ≠ old ∧
      system.sched.current = (number new : ℕ) := by
  obtain ⟨hcurrent, hne, -⟩ := (hsync.invariant.control.expects hstack).1
  have hrunner : system.sched.runner = (number old : ℕ) := by
    rw [Sched.State.runner, hstack]
    rfl
  refine ⟨number.injective (Fin.ext (hrunner.symm.trans hsync.running.symm)), ?_, hcurrent⟩
  rintro rfl
  exact hne rfl

theorem InSync.switch (hsync : InSync number system)
    (hsound : Sound space system.switching)
    (hstack : system.sched.stack = .switchContext (number old) (number new) :: callers)
    (hroom : HasRoom space system.switching) :
    InSync number ⟨system.sched.switchContext callers (number old) (number new),
        system.switching.switch space new⟩ ∧
      SwitchState.Step space system.switching (system.switching.switch space new) := by
  obtain ⟨rfl, hne, hcurrent⟩ := hsync.switching hstack
  have hheld := hsync.saved new hne
  have hresumes := hheld.resumes hsound hne hroom
  obtain ⟨resumed, hframes, -⟩ := (system.sched.threads (number new)).saved.frames_eq
    (number system.switching.running)
  refine ⟨⟨?_, hsync.created, ?_, hresumes.flag, ?_⟩,
    .switch new ⟨hheld.ne_absent, hroom.lower, hroom.upper⟩⟩
  · exact @Sched.exec_invariant _ _ _ _ 0 hsync.invariant hstack rfl
  · exact hcurrent.symm.trans (@Sched.runner_of_cons (system.sched.switchContext callers
      (number system.switching.running) (number new)) _ _ hframes rfl).symm
  · intro thread (hthread : thread ≠ new)
    dsimp only
    rw [SwitchState.switch_phase_of_ne _ _ hthread]
    by_cases hold : thread = system.switching.running
    · subst hold
      obtain ⟨stage, hphase, -⟩ := hsound.running
      rw [SwitchState.parked_running, hphase]
      have hput : ((system.sched.switchContext callers (number system.switching.running)
          (number new)).threads (number system.switching.running)).saved =
            ⟨.switchThread, callers, system.sched.interruptFlag⟩ := by
        simp [Sched.State.switchContext]
      rw [hput]
      exact ⟨_, stage, rfl, hsync.flag⟩
    · have hnumber : (number thread : ℕ) ≠ number system.switching.running := fun heq =>
        hold (number.injective (Fin.ext heq))
      have hkept : ((system.sched.switchContext callers (number system.switching.running)
          (number new)).threads (number thread)).saved =
            (system.sched.threads (number thread)).saved := by
        simp [Sched.State.switchContext, Function.update_of_ne hnumber]
      rw [SwitchState.parked_of_ne _ _ hold, hkept]
      exact hsync.saved thread hold

/-- One step of both is one step of the machine's record. -/
theorem InSync.step (hsync : InSync number system) (hsound : Sound space system.switching)
    (hstep : Step number space system after) :
    InSync number after ∧ SwitchState.Step space system.switching after.switching := by
  cases hstep with
  | sched machine' hallowed hhead hafter hkeeps hflag =>
      have hkept := Sched.step_kept hsync.invariant hallowed hhead hafter
      refine ⟨⟨?_, ?_, ?_, hflag, ?_⟩, .compute machine' hkeeps⟩
      · exact Sched.step_invariant hsync.invariant hallowed hafter
      · exact hkept.created.trans hsync.created
      · exact hsync.running.trans hkept.runner.symm
      · intro thread hthread
        rw [hkept.saved]
        exact hsync.saved thread hthread
  | initReturn entry hphase hrsp =>
      refine ⟨⟨hsync.invariant, hsync.created, hsync.running, hsync.flag, ?_⟩,
        .initReturn entry hphase hrsp⟩
      intro thread hthread
      simp only [Function.update_of_ne hthread]
      exact hsync.saved thread hthread
  | switch old new hstack hroom =>
      obtain ⟨rfl, -⟩ := hsync.switching hstack
      exact hsync.switch hsound hstack hroom

omit [DecidableEq Thread] in
theorem InSync.init {count : ℕ} (calibration : ℕ) {number : Thread ≃ Fin (count + 2)}
    {start : SwitchState Thread} (hstart : Starts number start) :
    InSync number ⟨Sched.State.schedInit count calibration, start⟩ := by
  obtain ⟨hrunner, hcreated, hflag, hsaved⟩ := Sched.schedInit_kept count calibration
  refine ⟨Sched.schedInit_invariant count calibration, hcreated, ?_, ?_, ?_⟩
  · exact hstart.running.trans hrunner.symm
  · exact hstart.flag.trans hflag.symm
  · intro thread hthread
    rw [hsaved]
    exact ⟨hstart.fresh thread hthread, rfl⟩

end Simulation

/-- The states that both go through from the call of `handle_next_event` in `sched_init`
on. -/
def Reaches (number : Thread ≃ Fin limit) (space : ThreadSpace Thread)
    (start system : System Thread) : Prop :=
  Relation.ReflTransGen (Step number space) start system

theorem InSync.reaches {count calibration : ℕ} {number : Thread ≃ Fin (count + 2)}
    {space : ThreadSpace Thread} {boot start : SwitchState Thread} {system : System Thread}
    (hboots : boot.Boots) (hreaches : SwitchState.Reaches space boot start)
    (hstart : Starts number start)
    (hrun : Reaches number space ⟨Sched.State.schedInit count calibration, start⟩ system) :
    InSync number system ∧ SwitchState.Reaches space boot system.switching := by
  induction hrun with
  | refl => exact ⟨InSync.init calibration hstart, hreaches⟩
  | tail _ hstep ih =>
      obtain ⟨hsync, hreached⟩ := ih
      obtain ⟨hsync', hstep'⟩ := hsync.step (Sound.reaches hboots hreached) hstep
      exact ⟨hsync', hreached.tail hstep'⟩

/-- In every run of both with interrupts in the threads' own code only, the machine's record
is a run of its own, the stack in use and the interrupt flag are those of the scheduler,
and wherever the scheduler calls `switch_context` the machine goes on at the stack that the
scheduler has put away. -/
theorem switch_context_refines_scheduler {count calibration : ℕ}
    {number : Thread ≃ Fin (count + 2)} {space : ThreadSpace Thread}
    {boot start : SwitchState Thread} {system : System Thread} (hboots : boot.Boots)
    (hreaches : SwitchState.Reaches space boot start) (hstart : Starts number start)
    (hrun : Reaches number space ⟨Sched.State.schedInit count calibration, start⟩ system) :
    SwitchState.Reaches space boot system.switching ∧
    (number system.switching.running : ℕ) = system.sched.runner ∧
    system.switching.machine.rflags.interrupts = system.sched.interruptFlag ∧
    ∀ this next callers, system.sched.stack = .switchContext this next :: callers →
      HasRoom space system.switching →
        ∃ old new, (number old : ℕ) = this ∧ (number new : ℕ) = next ∧
          Resumes space (system.switching.phase new) (system.sched.threads next).saved
            old new (switchCode space system.switching.machine old new) := by
  obtain ⟨hsync, hreached⟩ := InSync.reaches hboots hreaches hstart hrun
  refine ⟨hreached, hsync.running, hsync.flag, ?_⟩
  intro this next callers hstack hroom
  obtain ⟨hcurrent, hne, -, role, -, harranged⟩ :=
    (hsync.invariant.control.expects hstack).1
  -- the scheduler's numbers are those of threads that exist
  have hnext : next < count + 2 := by
    rw [← hsync.created]
    exact (harranged.role_right hne).1
  have hthis : (number system.switching.running : ℕ) = this := by
    rw [hsync.running, Sched.State.runner, hstack]
    rfl
  obtain ⟨new, hnew⟩ := number.surjective ⟨next, hnext⟩
  have hnumber : (number new : ℕ) = next := congrArg Fin.val hnew
  refine ⟨system.switching.running, new, hthis, hnumber, ?_⟩
  have hother : new ≠ system.switching.running := by
    rintro rfl
    exact hne (hnumber.symm.trans hthis)
  have hheld := hsync.saved new hother
  rw [hnumber] at hheld
  exact hheld.resumes (Sound.reaches hboots hreached) hother hroom

/-- Steps up to the first `switch_context` that the machine can sit out. -/
def Waits (state : Sched.State) (input : Sched.Input) : Prop :=
  Sched.Uninterrupted state input ∧
    (∀ frame ∈ state.stack.head?, frame.switches = false) ∧
      ∀ after ∈ state.step input, after.interruptFlag = true

instance (state : Sched.State) (input : Sched.Input) : Decidable (Waits state input) :=
  inferInstanceAs (Decidable (_ ∧ (∀ frame ∈ _, _) ∧ ∀ after ∈ _, _))

theorem reaches_of_waits {number : Thread ≃ Fin limit} {space : ThreadSpace Thread}
    {switching : SwitchState Thread} {sched sched' : Sched.State}
    (hflag : switching.machine.rflags.interrupts = true)
    (hrun : Sched.RunsTo Waits sched sched') :
    Reaches number space ⟨sched, switching⟩ ⟨sched', switching⟩ := by
  induction hrun with
  | refl => exact .refl
  | step _ hwaits hstep ih =>
      refine ih.tail (.sched switching.machine hwaits.1 hwaits.2.1 hstep ?_ ?_)
      · exact ⟨fun _ _ _ => ⟨fun _ _ _ => rfl, fun _ _ _ => rfl⟩, fun _ _ _ => rfl⟩
      · exact hflag.trans (hwaits.2.2 _ hstep).symm

/-- `sched_init` gives the processor to the idle thread. -/
theorem switch_context_refines_scheduler_idle :
    ∃ (space : ThreadSpace Bool) (start : SwitchState Bool) (system : System Bool),
      Reaches finTwoEquiv.symm space ⟨Sched.State.schedInit 0 100000, start⟩ system ∧
      system.sched.stack = [.switchContext 0 1, .handlePeek, .kinit] ∧
      (switchCode space system.switching.machine false true).rip =
        BitVec.ofNat 64 space.symbols.initThread ∧
      (switchCode space system.switching.machine false true).regs .rdi =
        BitVec.ofNat 64 (space.ptr false) := by
  obtain ⟨space, start, hreaches, hcpu, hrunning, hphase, hlow, hhigh, -⟩ := reaches_created
  have hflag : start.machine.rflags.interrupts = true := by
    rw [congrArg Cpu.rflags hcpu]
    decide
  have hstart : Starts finTwoEquiv.symm start := by
    refine ⟨by rw [hrunning]; rfl, ?_, hflag⟩
    intro thread hthread
    cases thread with
    | false => exact absurd hrunning.symm hthread
    | true => exact ⟨0x7000, by rw [hphase, Function.update_self]⟩
  have hinputs : ((Sched.State.schedInit 0 100000).runInputs Waits
      (List.replicate 9 (Sched.Input.run 10))).map (fun state =>
        (state.stack, (state.threads 1).saved)) =
          some ([.switchContext 0 1, .handlePeek, .kinit], Sched.SavedStack.initial) := by
    decide +kernel
  obtain ⟨sched, hsched, hread⟩ := Option.map_eq_some_iff.mp hinputs
  obtain ⟨hstack, hsaved⟩ := Prod.mk.inj hread
  have hrun := @reaches_of_waits Bool _ 2 finTwoEquiv.symm space start _ _ hflag
    (Sched.runsTo_of_runInputs Waits hsched)
  have hroom : HasRoom space start := by
    have hregs : start.machine.regs = bootThread.machine.regs := congrArg Cpu.regs hcpu
    constructor <;> rw [hrunning, hregs]
    · rw [hlow]
      decide
    · rw [hphase, hhigh]
      decide
  obtain ⟨old, new, hold, hnew, hresumes⟩ := (switch_context_refines_scheduler
    boots_bootThread hreaches hstart hrun).2.2.2 0 1 _ hstack hroom
  obtain rfl : old = false := by
    cases old with
    | false => rfl
    | true => exact absurd hold (by decide)
  obtain rfl : new = true := by
    cases new with
    | true => rfl
    | false => exact absurd hnew (by decide)
  obtain ⟨hrip, hrdi, -⟩ := hresumes.fresh (by rw [hsaved]; rfl)
  exact ⟨space, start, _, hrun, hstack, hrip, hrdi⟩

end Flurry.SwitchRefinement
