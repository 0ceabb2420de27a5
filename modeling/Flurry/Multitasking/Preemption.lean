import Flurry.Interrupts.Isr
import Flurry.Multitasking.ContextSwitch

/-!
# Threads that are interrupted

An interruption may come at any point of a thread but one, also in a handler, and the
handler may switch to other threads before it returns.  The exception is the part of
`switch_thread` from its first line to the `ret` of `switch_context`: `thread_sleep` and
`thread_yield` go through it with interrupts on, and an interruption there finds in
`current_thread` another thread than the one whose stack is in use.  Such an interruption
is not a step here.

Next to the machine a list of the activations that were put aside is kept for every
thread.  Each of them is still on its stack: the words that `iretq` needs, and all that
the thread had there.
-/

namespace Flurry.Preemption

open ByteMemory Processor Interrupts ContextSwitch

/-- An activation that was put aside, as it was at the interruption. -/
structure Frame where
  core : Core
  interruption : Interruption

/-- The address of the activation's `InterruptCtx`: the 176 bytes below the rounded stack
pointer. -/
def Frame.base (frame : Frame) : ℕ := ((frame.core.regs .rsp).toNat / 16 - 11) * 16

structure PreemptState (Thread : Type*) where
  switching : SwitchState Thread
  cs : BitVec 16
  ss : BitVec 16
  frames : Thread → List Frame

/-- The bytes at the top of its stack that a thread needs until `init_thread` returns. -/
def slot : Phase → ℕ
  | .running (.initializing _) => 8
  | .suspended _ (.initializing _) => 8
  | _ => 0

/-- Where the stack ends for the innermost activation. -/
def stackLimit (high : ℕ) (phase : Phase) : List Frame → ℕ
  | [] => high - slot phase
  | frame :: _ => frame.base

variable {Thread : Type*} [DecidableEq Thread]

namespace PreemptState

def core (state : PreemptState Thread) : Core where
  toMachine := state.switching.machine
  cs := state.cs
  ss := state.ss

/-- The limit of the running activation. -/
def limit (space : ThreadSpace Thread) (state : PreemptState Thread) : ℕ :=
  stackLimit (space.high state.switching.running)
    (state.switching.phase state.switching.running) (state.frames state.switching.running)

/-- The state with another processor and memory. -/
def withCore (state : PreemptState Thread) (core : Core) : PreemptState Thread :=
  { state with
    switching := { state.switching with machine := core.toMachine }
    cs := core.cs
    ss := core.ss }

/-- The running activation leaves alone the stacks of the other threads and, on its own
one, everything from its limit on. -/
structure Keeps (space : ThreadSpace Thread) (state : PreemptState Thread)
    (memory' : Memory) : Prop where
  others : ∀ thread, thread ≠ state.switching.running →
    state.switching.phase thread ≠ .absent →
      KeepsThread space state.switching.machine.memory memory' thread
  own : ∀ target, state.limit space ≤ target → target < space.high state.switching.running →
    memory' target = state.switching.machine.memory target

/-- The stack pointer is in the running activation's part of the stack, with `room` bytes
below it. -/
structure HasRoom (space : ThreadSpace Thread) (state : PreemptState Thread) (room : ℕ) :
    Prop where
  lower : space.low state.switching.running + room ≤
    (state.switching.machine.regs .rsp).toNat
  upper : (state.switching.machine.regs .rsp).toNat ≤ state.limit space

/-- What can happen: the steps of `SwitchState.Step`, and interruptions between them. -/
inductive Step (symbols : StubSymbols) (space : ThreadSpace Thread) :
    PreemptState Thread → PreemptState Thread → Prop
  /-- any code of the running activation -/
  | compute {state : PreemptState Thread} (core' : Core) :
      state.Keeps space core'.memory → Step symbols space state (state.withCore core')
  /-- a call of `thread_kcreate` -/
  | create {state : PreemptState Thread} (core' : Core) (thread : Thread) (entry : Word) :
      state.switching.phase thread = .absent → state.Keeps space core'.memory →
      Created space core'.memory thread entry →
        Step symbols space state
          { state.withCore core' with
            switching :=
              { state.switching with
                machine := core'.toMachine
                phase := Function.update state.switching.phase thread (.fresh entry) } }
  /-- `switch_thread` from its first line to the `ret` of `switch_context`, without an
  interruption, so that `current_thread` is still the thread on whose stack it runs -/
  | switch {state : PreemptState Thread} (new : Thread) :
      state.switching.phase new ≠ .absent → state.HasRoom space 64 →
        Step symbols space state
          { state with switching := state.switching.switch space new }
  /-- the return of `init_thread` -/
  | initReturn {state : PreemptState Thread} (entry : Word) :
      state.frames state.switching.running = [] →
      state.switching.phase state.switching.running = .running (.initializing entry) →
      (state.switching.machine.regs .rsp).toNat + 8 = space.high state.switching.running →
        Step symbols space state
          { state with
            switching :=
              { state.switching with
                machine := state.switching.machine.exec .ret
                phase := Function.update state.switching.phase state.switching.running
                  (.running .started) } }
  /-- an interruption, up to the call of `interrupt_dispatch` -/
  | interrupt {state : PreemptState Thread} (gate : Gate) (interruption : Interruption) :
      state.HasRoom space 200 →
        Step symbols space state
          { state.withCore (enterDispatch symbols state.core gate interruption) with
            frames := Function.update state.frames state.switching.running
              (⟨state.core, interruption⟩ :: state.frames state.switching.running) }
  /-- the end of an interruption, once `interrupt_dispatch` has returned -/
  | resume {state : PreemptState Thread} (frame : Frame) (rest : List Frame) :
      state.frames state.switching.running = frame :: rest →
      state.switching.machine.rip = symbols.afterCall →
      (state.switching.machine.regs .rsp).toNat = frame.base →
        Step symbols space state
          { state.withCore (leaveDispatch state.core) with
            frames := Function.update state.frames state.switching.running rest }

/-- The states that a run from `boot` goes through. -/
def Reaches (symbols : StubSymbols) (space : ThreadSpace Thread)
    (boot state : PreemptState Thread) : Prop :=
  Relation.ReflTransGen (Step symbols space) boot state

/-- At first one thread is running, and it is not interrupted. -/
structure Boots (state : PreemptState Thread) : Prop where
  switching : state.switching.Boots
  frames : ∀ thread, state.frames thread = []

end PreemptState

/-! ## Frames on a stack -/

/-- The activation is on the stack of its thread, below `limit`. -/
structure FrameHolds (low high : ℕ) (memory : Memory) (limit : ℕ) (frame : Frame) : Prop where
  lower : low + 200 ≤ (frame.core.regs .rsp).toNat
  upper : (frame.core.regs .rsp).toNat ≤ limit
  context : StackHolds memory frame.base (contextOf frame.core frame.interruption).words
  stack : ∀ target, (frame.core.regs .rsp).toNat ≤ target → target < high →
    memory target = frame.core.memory target

/-- All activations of a thread are, each below the ones that it interrupted. -/
def FramesHold (low high : ℕ) (phase : Phase) (memory : Memory) : List Frame → Prop
  | [] => True
  | frame :: rest =>
      FrameHolds low high memory (stackLimit high phase rest) frame ∧
        FramesHold low high phase memory rest

section Frames

variable {low high limit : ℕ} {phase phase' : Phase} {memory memory' : Memory}
variable {frame : Frame} {rest frames : List Frame}

theorem FrameHolds.base_add (hholds : FrameHolds low high memory limit frame) :
    frame.base + 176 = (frame.core.regs .rsp).toNat / 16 * 16 ∧ low ≤ frame.base := by
  have hlower := hholds.lower
  rw [Frame.base]
  omega

theorem FrameHolds.congr (hholds : FrameHolds low high memory limit frame)
    (hlimit : limit ≤ high)
    (hagree : ∀ target, frame.base ≤ target → target < high →
      memory' target = memory target) :
    FrameHolds low high memory' limit frame := by
  have hbase := hholds.base_add
  have hupper := hholds.upper
  refine ⟨hholds.lower, hupper, ?_, ?_⟩
  · apply hholds.context.congr
    intro target hfrom hto
    have hlength : (contextOf frame.core frame.interruption).words.length = 22 := rfl
    rw [hlength] at hto
    exact hagree target hfrom (by omega)
  · intro target hfrom hto
    rw [hagree target (by omega) hto]
    exact hholds.stack target hfrom hto

theorem FramesHold.limit_le (hholds : FramesHold low high phase memory frames) :
    stackLimit high phase frames ≤ high - slot phase := by
  induction frames with
  | nil => exact le_rfl
  | cons frame rest ih =>
      have hupper := hholds.1.upper
      have hbase := hholds.1.base_add
      have hrest := ih hholds.2
      change frame.base ≤ _
      omega

/-- Only the stack from the innermost activation on matters. -/
theorem FramesHold.congr (hholds : FramesHold low high phase memory frames)
    (hagree : ∀ target, stackLimit high phase frames ≤ target → target < high →
      memory' target = memory target) :
    FramesHold low high phase memory' frames := by
  induction frames with
  | nil => trivial
  | cons frame rest ih =>
      have hbase := hholds.1.base_add
      have hupper := hholds.1.upper
      have hlimit := hholds.2.limit_le
      refine ⟨hholds.1.congr (by omega) hagree, ih hholds.2 ?_⟩
      intro target hfrom hto
      change ∀ target, frame.base ≤ target → _ at hagree
      exact hagree target (by omega) hto

theorem FramesHold.of_slot_eq (hholds : FramesHold low high phase memory frames)
    (hslot : slot phase' = slot phase) : FramesHold low high phase' memory frames := by
  have hlimit : ∀ rest, stackLimit high phase' rest = stackLimit high phase rest := by
    intro rest
    cases rest with
    | nil => rw [stackLimit, stackLimit, hslot]
    | cons frame rest => rfl
  induction frames with
  | nil => trivial
  | cons frame rest ih => exact ⟨hlimit rest ▸ hholds.1, ih hholds.2⟩

theorem FramesHold.of_stack_eq (hholds : FramesHold low high phase memory frames)
    (hagree : ∀ target, low ≤ target → target < high → memory' target = memory target) :
    FramesHold low high phase memory' frames := by
  cases frames with
  | nil => trivial
  | cons frame rest =>
      apply hholds.congr
      intro target hfrom hto
      have hbase := hholds.1.base_add.2
      exact hagree target (hbase.trans hfrom) hto

end Frames

theorem slot_suspend (call : Cpu) (phase : Phase) : slot (phase.suspend call) = slot phase := by
  cases phase with
  | running stage => cases stage <;> rfl
  | absent => rfl
  | fresh entry => rfl
  | suspended call stage => rfl

theorem slot_resume {phase : Phase} (hfresh : ∀ entry, phase ≠ .fresh entry) :
    slot phase.resume = slot phase := by
  cases phase with
  | suspended call stage => cases stage <;> rfl
  | fresh entry => exact absurd rfl (hfresh entry)
  | absent => rfl
  | running stage => rfl

theorem reserved_le_slot (phase : Phase) : phase.reserved ≤ slot phase := by
  cases phase with
  | running stage => cases stage <;> exact le_rfl
  | absent => exact le_rfl
  | fresh entry => exact le_rfl
  | suspended call stage => exact Nat.zero_le _

/-- A thread that has not started yet. -/
def Unstarted (phase : Phase) : Prop := phase = .absent ∨ ∃ entry, phase = .fresh entry

theorem Unstarted.of_suspend {call : Cpu} {phase : Phase}
    (hunstarted : Unstarted (phase.suspend call)) : Unstarted phase := by
  cases phase with
  | running stage => simp [Unstarted, Phase.suspend] at hunstarted
  | absent => exact hunstarted
  | fresh entry => exact hunstarted
  | suspended call stage => exact hunstarted

theorem Unstarted.of_resume {phase : Phase} (hunstarted : Unstarted phase.resume) :
    Unstarted phase := by
  cases phase with
  | fresh entry => simp [Unstarted, Phase.resume] at hunstarted
  | suspended call stage => simp [Unstarted, Phase.resume] at hunstarted
  | absent => exact hunstarted
  | running stage => exact hunstarted

/-! ## The memory of a switch -/

omit [DecidableEq Thread] in
/-- Writes to its own stack leave the other threads alone. -/
theorem keepsThread_of_own_stack {space : ThreadSpace Thread} {memory memory' : Memory}
    {running thread : Thread} {start stop : ℕ} (hthread : thread ≠ running)
    (hlow : space.low running ≤ start) (hhigh : stop ≤ space.high running)
    (houtside : ∀ target, target < start ∨ stop ≤ target → memory' target = memory target) :
    KeepsThread space memory memory' thread := by
  have hstacks := space.stacks_apart thread running hthread
  have hfields := space.stack_apart thread running
  have hsize : KernelThread.sizeofThread = 136 := rfl
  constructor
  · intro target hfrom hto
    exact houtside target (by omega)
  · intro target hfrom hto
    exact houtside target (by omega)

theorem memory_restoreCode (machine : Machine) :
    (machine.run restoreCode).memory = machine.memory := rfl

omit [DecidableEq Thread] in
theorem call_rsp (space : ThreadSpace Thread) (state : SwitchState Thread) (new : Thread) :
    (state.call space new).regs .rsp = state.machine.regs .rsp := by
  rw [SwitchState.call, Machine.set_regs_of_ne _ _ _ (by decide),
    Machine.set_regs_of_ne _ _ _ (by decide)]

/-- A switch changes the stack of the thread that calls it below its stack pointer only. -/
theorem switch_memory {space : ThreadSpace Thread} {state : SwitchState Thread} {new : Thread}
    (hlower : space.low state.running + 64 ≤ (state.machine.regs .rsp).toNat)
    (hupper : (state.machine.regs .rsp).toNat ≤ space.high state.running) :
    (∀ thread, thread ≠ state.running → KeepsThread space state.machine.memory
      (state.switch space new).machine.memory thread) ∧
    ∀ target, (state.machine.regs .rsp).toNat ≤ target → target < space.high state.running →
      (state.switch space new).machine.memory target = state.machine.memory target := by
  have hrsp := call_rsp space state new
  obtain ⟨machine, hsaved, hrun⟩ := @saved_run Thread space (state.call space new)
    state.running (by
      rw [SwitchState.call, Machine.set_regs_of_ne _ _ _ (by decide), Machine.set_regs_self])
    (by rw [hrsp]; exact hlower) (by rw [hrsp]; exact hupper)
  have hmemory : (state.switch space new).machine.memory = machine.memory := by
    rw [SwitchState.switch, hrun, memory_restoreCode]
  rw [hmemory]
  refine ⟨hsaved.others, ?_⟩
  intro target hfrom hto
  exact hsaved.above target (by rw [hrsp]; exact hfrom) hto

/-! ## Every step keeps the frames -/

/-- The machine runs as it would without interruptions, and the frames are on the
stacks. -/
structure PreemptState.Holds (space : ThreadSpace Thread) (boot state : PreemptState Thread) :
    Prop where
  reaches : SwitchState.Reaches space boot.switching state.switching
  frames : ∀ thread, FramesHold (space.low thread) (space.high thread)
    (state.switching.phase thread) state.switching.machine.memory (state.frames thread)
  unstarted : ∀ thread, Unstarted (state.switching.phase thread) → state.frames thread = []

namespace PreemptState

variable {symbols : StubSymbols} {space : ThreadSpace Thread}
variable {boot state : PreemptState Thread}

theorem Holds.limit_le (hholds : Holds space boot state) :
    state.limit space ≤ space.high state.switching.running -
      slot (state.switching.phase state.switching.running) :=
  (hholds.frames state.switching.running).limit_le

theorem Keeps.switching {memory' : Memory} (hkeeps : state.Keeps space memory')
    (hholds : Holds space boot state) : state.switching.Keeps space memory' := by
  refine ⟨hkeeps.others, ?_⟩
  intro target hfrom hto
  have hlimit := hholds.limit_le
  have hslot := reserved_le_slot (state.switching.phase state.switching.running)
  exact hkeeps.own target (by omega) hto

/-- The frames stay on the stacks under any code of the running activation. -/
theorem Holds.frames_of_keeps {memory' : Memory} (hholds : Holds space boot state)
    (hkeeps : state.Keeps space memory') (thread : Thread) :
    FramesHold (space.low thread) (space.high thread) (state.switching.phase thread) memory'
      (state.frames thread) := by
  by_cases hthread : thread = state.switching.running
  · subst hthread
    exact (hholds.frames _).congr hkeeps.own
  · by_cases habsent : state.switching.phase thread = .absent
    · rw [hholds.unstarted thread (Or.inl habsent)]
      trivial
    · exact (hholds.frames thread).of_stack_eq (hkeeps.others thread hthread habsent).stack

theorem Holds.compute (hholds : Holds space boot state) {core' : Core}
    (hkeeps : state.Keeps space core'.memory) : Holds space boot (state.withCore core') where
  reaches := hholds.reaches.tail (.compute core'.toMachine (hkeeps.switching hholds))
  frames := hholds.frames_of_keeps hkeeps
  unstarted := hholds.unstarted

theorem Holds.create (hholds : Holds space boot state) {core' : Core} {thread : Thread}
    {entry : Word} (habsent : state.switching.phase thread = .absent)
    (hkeeps : state.Keeps space core'.memory)
    (hcreated : Created space core'.memory thread entry) :
    Holds space boot { state.withCore core' with
      switching :=
        { state.switching with
          machine := core'.toMachine
          phase := Function.update state.switching.phase thread (.fresh entry) } } := by
  have hnone := hholds.unstarted thread (Or.inl habsent)
  constructor
  · exact hholds.reaches.tail
      (.create core'.toMachine thread entry habsent (hkeeps.switching hholds) hcreated)
  · intro other
    by_cases hother : other = thread
    · subst hother
      change FramesHold _ _ _ _ (state.frames other)
      rw [hnone]
      trivial
    · change FramesHold _ _ (Function.update state.switching.phase thread _ other) _ _
      rw [Function.update_of_ne hother]
      exact hholds.frames_of_keeps hkeeps other
  · intro other hunstarted
    by_cases hother : other = thread
    · subst hother
      exact hnone
    · change Unstarted (Function.update state.switching.phase thread _ other) at hunstarted
      rw [Function.update_of_ne hother] at hunstarted
      exact hholds.unstarted other hunstarted

/-- What a switch does to the phases does not matter for the frames. -/
theorem Holds.switch (hholds : Holds space boot state) {new : Thread}
    (hexists : state.switching.phase new ≠ .absent) (hroom : state.HasRoom space 64) :
    Holds space boot { state with switching := state.switching.switch space new } := by
  have hlimit := hholds.limit_le
  have hlower := hroom.lower
  have hupper := hroom.upper
  have hslot := reserved_le_slot (state.switching.phase state.switching.running)
  obtain ⟨hothers, hown⟩ := @switch_memory Thread _ space state.switching new hlower
    (by omega)
  have hparked : ∀ thread,
      slot (state.switching.parked space new thread) = slot (state.switching.phase thread) ∧
      (Unstarted (state.switching.parked space new thread) →
        Unstarted (state.switching.phase thread)) := by
    intro thread
    by_cases hthread : thread = state.switching.running
    · subst hthread
      rw [SwitchState.parked_running]
      exact ⟨slot_suspend _ _, Unstarted.of_suspend⟩
    · rw [SwitchState.parked_of_ne _ _ hthread]
      exact ⟨rfl, id⟩
  have hswitched : ∀ thread, ¬Unstarted (state.switching.phase thread) →
      slot ((state.switching.switch space new).phase thread) =
        slot (state.switching.phase thread) ∧
      ¬Unstarted ((state.switching.switch space new).phase thread) := by
    intro thread hstarted
    obtain ⟨hsame, hback⟩ := hparked thread
    by_cases hthread : thread = new
    · subst hthread
      rw [SwitchState.switch_phase_new]
      refine ⟨?_, fun hunstarted => hstarted (hback hunstarted.of_resume)⟩
      rw [slot_resume, hsame]
      intro entry hfresh
      exact hstarted (hback (Or.inr ⟨entry, hfresh⟩))
    · rw [SwitchState.switch_phase_of_ne _ _ hthread]
      exact ⟨hsame, fun hunstarted => hstarted (hback hunstarted)⟩
  constructor
  · exact hholds.reaches.tail (.switch new ⟨hexists, hlower, by omega⟩)
  · intro thread
    by_cases hstarted : Unstarted (state.switching.phase thread)
    · change FramesHold _ _ _ _ (state.frames thread)
      rw [hholds.unstarted thread hstarted]
      trivial
    · apply FramesHold.of_slot_eq _ (hswitched thread hstarted).1
      by_cases hthread : thread = state.switching.running
      · subst hthread
        apply (hholds.frames _).congr
        intro target hfrom hto
        exact hown target (hupper.trans hfrom) hto
      · exact (hholds.frames thread).of_stack_eq (hothers thread hthread).stack
  · intro thread hunstarted
    by_cases hstarted : Unstarted (state.switching.phase thread)
    · exact hholds.unstarted thread hstarted
    · exact absurd hunstarted (hswitched thread hstarted).2

theorem Holds.initReturn (hholds : Holds space boot state) {entry : Word}
    (hnone : state.frames state.switching.running = [])
    (hphase : state.switching.phase state.switching.running = .running (.initializing entry))
    (hrsp : (state.switching.machine.regs .rsp).toNat + 8 =
      space.high state.switching.running) :
    Holds space boot { state with
      switching :=
        { state.switching with
          machine := state.switching.machine.exec .ret
          phase := Function.update state.switching.phase state.switching.running
            (.running .started) } } := by
  constructor
  · exact hholds.reaches.tail (.initReturn entry hphase hrsp)
  · intro thread
    by_cases hthread : thread = state.switching.running
    · subst hthread
      change FramesHold _ _ _ _ (state.frames state.switching.running)
      rw [hnone]
      trivial
    · change FramesHold _ _ (Function.update state.switching.phase _ _ thread) _ _
      rw [Function.update_of_ne hthread]
      exact hholds.frames thread
  · intro thread hunstarted
    by_cases hthread : thread = state.switching.running
    · subst hthread
      exact hnone
    · change Unstarted (Function.update state.switching.phase _ _ thread) at hunstarted
      rw [Function.update_of_ne hthread] at hunstarted
      exact hholds.unstarted thread hunstarted

/-- Delivery and stub write below the stack pointer of the running activation. -/
theorem keeps_enterDispatch (symbols : StubSymbols) (hholds : Holds space boot state)
    (gate : Gate) (interruption : Interruption) (hroom : state.HasRoom space 200) :
    state.Keeps space (enterDispatch symbols state.core gate interruption).memory := by
  have hlower := hroom.lower
  have hupper := hroom.upper
  have hlimit := hholds.limit_le
  have hcore : state.core.regs .rsp = state.switching.machine.regs .rsp := rfl
  have hentered := @entered_enterDispatch symbols state.core gate interruption
    (by rw [hcore]; omega)
  have hrsp := hentered.rsp
  have hrdi := hentered.rdi
  rw [hcore] at hrdi
  constructor
  · intro thread hthread _
    apply keepsThread_of_own_stack hthread _ _ hentered.outside
    · omega
    · rw [hcore]
      omega
  · intro target hfrom _
    exact hentered.outside target (Or.inr (hupper.trans hfrom))

/-- The interrupted activation is put aside on its own stack. -/
theorem Holds.interrupt (hholds : Holds space boot state) (hboots : boot.Boots)
    (gate : Gate) (interruption : Interruption) (hroom : state.HasRoom space 200) :
    Holds space boot
      { state.withCore (enterDispatch symbols state.core gate interruption) with
        frames := Function.update state.frames state.switching.running
          (⟨state.core, interruption⟩ :: state.frames state.switching.running) } := by
  have hlower := hroom.lower
  have hkeeps := keeps_enterDispatch symbols hholds gate interruption hroom
  have hcomputed := hholds.compute hkeeps
  have hcore : state.core.regs .rsp = state.switching.machine.regs .rsp := rfl
  have hentered := @entered_enterDispatch symbols state.core gate interruption
    (by rw [hcore]; omega)
  have hrdi := hentered.rdi
  have hbase : Frame.base ⟨state.core, interruption⟩ =
      ((enterDispatch symbols state.core gate interruption).regs .rdi).toNat := by
    rw [Frame.base]
    change ((state.core.regs .rsp).toNat / 16 - 11) * 16 = _
    omega
  constructor
  · exact hcomputed.reaches
  · intro thread
    by_cases hthread : thread = state.switching.running
    · subst hthread
      change FramesHold _ _ _ _ (Function.update state.frames _ _ _)
      rw [Function.update_self]
      refine ⟨⟨hlower, hroom.upper, ?_, ?_⟩, hcomputed.frames _⟩
      · rw [hbase]
        exact hentered.context
      · exact fun target hfrom _ => hentered.outside target (Or.inr hfrom)
    · change FramesHold _ _ _ _ (Function.update state.frames _ _ _)
      rw [Function.update_of_ne hthread]
      exact hcomputed.frames thread
  · intro thread hunstarted
    have hne : thread ≠ state.switching.running := by
      rintro rfl
      obtain ⟨stage, hphase, -⟩ := (Sound.reaches hboots.switching hholds.reaches).running
      have hunstarted' : Unstarted (state.switching.phase state.switching.running) :=
        hunstarted
      simp [Unstarted, hphase] at hunstarted'
    change Function.update state.frames _ _ _ = _
    rw [Function.update_of_ne hne]
    exact hholds.unstarted thread hunstarted

variable {frame : Frame} {rest : List Frame}

/-- The innermost activation of the running thread is all there when its handler has
returned. -/
theorem Holds.resumes (hholds : Holds space boot state)
    (hframes : state.frames state.switching.running = frame :: rest)
    (hrsp : (state.switching.machine.regs .rsp).toNat = frame.base) :
    frame.core.Resumes (leaveDispatch state.core) ∧
      (leaveDispatch state.core).memory = state.switching.machine.memory := by
  have hframe := hholds.frames state.switching.running
  rw [hframes] at hframe
  have hcore : state.core.regs .rsp = state.switching.machine.regs .rsp := rfl
  have hbase := hframe.1.base_add
  have hlt := (frame.core.regs .rsp).isLt
  apply resumes_leaveDispatch
  · rw [hcore, hrsp]
    exact hframe.1.context
  · rw [hcore]
    omega

theorem Holds.resume (hholds : Holds space boot state)
    (hframes : state.frames state.switching.running = frame :: rest)
    (hrsp : (state.switching.machine.regs .rsp).toNat = frame.base) :
    Holds space boot { state.withCore (leaveDispatch state.core) with
      frames := Function.update state.frames state.switching.running rest } := by
  have hmemory := (hholds.resumes hframes hrsp).2
  have hcomputed := @Holds.compute Thread _ space boot state hholds (leaveDispatch state.core) (by
    rw [hmemory]
    exact ⟨fun _ _ _ => ⟨fun _ _ _ => rfl, fun _ _ _ => rfl⟩, fun _ _ _ => rfl⟩)
  constructor
  · exact hcomputed.reaches
  · intro thread
    have hthread' := hcomputed.frames thread
    change FramesHold _ _ _ _ (state.frames thread) at hthread'
    change FramesHold _ _ _ _ (Function.update state.frames _ _ _)
    by_cases hthread : thread = state.switching.running
    · subst hthread
      rw [hframes] at hthread'
      rw [Function.update_self]
      exact hthread'.2
    · rw [Function.update_of_ne hthread]
      exact hthread'
  · intro thread hunstarted
    change Function.update state.frames _ _ _ = _
    have hnone := hholds.unstarted thread hunstarted
    have hne : thread ≠ state.switching.running := by
      rintro rfl
      rw [hframes] at hnone
      exact absurd hnone (by simp)
    rw [Function.update_of_ne hne]
    exact hnone

theorem Holds.step {next : PreemptState Thread} (hholds : Holds space boot state)
    (hboots : boot.Boots) (hstep : Step symbols space state next) :
    Holds space boot next := by
  cases hstep with
  | compute core' hkeeps => exact hholds.compute hkeeps
  | create core' thread entry habsent hkeeps hcreated =>
      exact hholds.create habsent hkeeps hcreated
  | switch new hexists hroom => exact hholds.switch hexists hroom
  | initReturn entry hnone hphase hrsp => exact hholds.initReturn hnone hphase hrsp
  | interrupt gate interruption hroom => exact hholds.interrupt hboots gate interruption hroom
  | resume frame rest hframes _ hrsp => exact hholds.resume hframes hrsp

theorem Holds.of_reaches (hboots : boot.Boots) (hreaches : Reaches symbols space boot state) :
    Holds space boot state := by
  induction hreaches with
  | refl =>
      refine ⟨.refl, ?_, fun thread _ => hboots.frames thread⟩
      intro thread
      rw [hboots.frames thread]
      trivial
  | tail _ hstep ih => exact ih.step hboots hstep

end PreemptState

/-- In every run with interruptions anywhere but inside a switch, nested or not, and with
switches in the handlers, the threads are switched as in a run without interruptions; and
whenever a handler has returned, the thread goes on with all registers, flags and segments
of the interruption and with its stack as it was. -/
theorem preempted_threads_resume {symbols : StubSymbols} {space : ThreadSpace Thread}
    {boot state : PreemptState Thread} (hboots : boot.Boots)
    (hreaches : PreemptState.Reaches symbols space boot state) :
    SwitchState.Reaches space boot.switching state.switching ∧
    ∀ frame rest, state.frames state.switching.running = frame :: rest →
      (state.switching.machine.regs .rsp).toNat = frame.base →
        frame.core.Resumes (leaveDispatch state.core) ∧
        ∀ target, (frame.core.regs .rsp).toNat ≤ target →
          target < space.high state.switching.running →
            (leaveDispatch state.core).memory target = frame.core.memory target := by
  have hholds := PreemptState.Holds.of_reaches hboots hreaches
  refine ⟨hholds.reaches, ?_⟩
  intro frame rest hframes hrsp
  obtain ⟨hresumes, hmemory⟩ := hholds.resumes hframes hrsp
  refine ⟨hresumes, ?_⟩
  have hframe := hholds.frames state.switching.running
  rw [hframes] at hframe
  intro target hfrom hto
  rw [hmemory]
  exact hframe.1.stack target hfrom hto

/-- One thread with a stack of two pages. -/
def oneThread : ThreadSpace Unit where
  symbols := sampleSymbols
  ptr _ := 0x1000
  low _ := 0x2000
  high _ := 0x4000
  ptr_lt _ := by decide
  high_lt _ := by decide
  stacks_apart _ _ hne := absurd rfl hne
  threads_apart _ _ hne := absurd rfl hne
  stack_apart _ _ := by decide

def oneRunning : PreemptState Unit where
  switching :=
    { machine := sampleCore.toMachine
      running := ()
      phase := fun _ => .running .started }
  cs := 0x08
  ss := 0x10
  frames _ := []

def timerInterruption : Interruption := ⟨32, none, by decide⟩

/-- The timer has interrupted the thread. -/
def oneInterrupted : PreemptState Unit :=
  { oneRunning.withCore (enterDispatch ⟨0x5000, 0x6000⟩ oneRunning.core ⟨0x7000, 0x08⟩
      timerInterruption) with
    frames := Function.update oneRunning.frames oneRunning.switching.running
      (⟨oneRunning.core, timerInterruption⟩ :: oneRunning.frames oneRunning.switching.running) }

/-- Its handler has cleared the registers and has returned. -/
def oneHandled : PreemptState Unit :=
  oneInterrupted.withCore
    { regs := fun reg => if reg = .rsp then 0x2f50 else 0
      rflags := ⟨0x2, by decide⟩
      rip := 0x6000
      memory := oneInterrupted.switching.machine.memory
      cs := 0x08
      ss := 0x10 }

theorem reaches_oneHandled :
    PreemptState.Reaches ⟨0x5000, 0x6000⟩ oneThread oneRunning oneHandled := by
  have hinterrupt : PreemptState.Step ⟨0x5000, 0x6000⟩ oneThread oneRunning oneInterrupted :=
    .interrupt ⟨0x7000, 0x08⟩ timerInterruption ⟨by decide, by decide⟩
  have hreturn : PreemptState.Step ⟨0x5000, 0x6000⟩ oneThread oneInterrupted oneHandled :=
    .compute _ ⟨fun _ hthread _ => absurd rfl hthread, fun _ _ _ => rfl⟩
  exact (Relation.ReflTransGen.single hinterrupt).tail hreturn

/-- The thread has its registers back. -/
theorem preempted_threads_resume_timer :
    PreemptState.Reaches ⟨0x5000, 0x6000⟩ oneThread oneRunning oneHandled ∧
      oneHandled.switching.machine.regs .rax = 0 ∧
      (leaveDispatch oneHandled.core).regs .rax = 7 ∧
      (leaveDispatch oneHandled.core).rflags.interrupts = true := by
  have hboots : oneRunning.Boots :=
    ⟨⟨rfl, fun thread hthread => absurd rfl hthread⟩, fun _ => rfl⟩
  obtain ⟨hresumes, -⟩ := (preempted_threads_resume hboots reaches_oneHandled).2
    ⟨oneRunning.core, timerInterruption⟩ [] rfl (by decide)
  refine ⟨reaches_oneHandled, rfl, ?_, ?_⟩
  · rw [hresumes.regs]
    rfl
  · rw [hresumes.rflags]
    decide

end Flurry.Preemption
