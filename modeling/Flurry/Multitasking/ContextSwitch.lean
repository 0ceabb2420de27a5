import Flurry.Hardware.Processor
import Flurry.Multitasking.ThreadStack

/-!
# Switching between threads

`switch_context` saves the processor on the stack of one thread and loads it from
the stack of another.  The threads are run against a record of where each of them
stands: a thread that has called `switch_context` is suspended with the processor
of its call.  In every run the stacks hold what the record says.
-/

namespace Flurry.ContextSwitch

open ByteMemory Processor KernelThread Kmalloc

/-- `switch_context`, with `old` in `rdi` and `new` in `rsi`. -/
def switchContext : List Instr :=
  [.pushfq, .push .rbx, .push .rbp, .push .r15, .push .r14, .push .r13, .push .r12,
    .store .rdi 0 .rsp, .load .rsp .rsi 0,
    .pop .r12, .pop .r13, .pop .r14, .pop .r15, .pop .rbp, .pop .rbx, .popfq,
    .mov .rax .rdi, .ret]

/-- The registers of a saved frame, from its lowest address on. -/
def frameRegs : List Reg := [.r12, .r13, .r14, .r15, .rbp, .rbx]

/-- The words that a call of `switch_context` leaves on the stack. -/
def savedFrame (cpu : Cpu) : List Word :=
  frameRegs.map cpu.regs ++ [cpu.rflags.bits, cpu.rip]

/-- The instructions after `mov [rdi + Thread.rsp], rsp`. -/
def restoreCode : List Instr :=
  .load .rsp .rsi 0 :: frameRegs.map .pop ++ [.popfq, .mov .rax .rdi, .ret]

theorem switchContext_eq :
    switchContext =
      .pushfq :: (frameRegs.reverse.map .push ++ .store .rdi 0 .rsp :: restoreCode) := rfl

/-! ## Threads and their memory -/

/-- Where the threads' structures and stacks are. -/
structure ThreadSpace (Thread : Type*) where
  symbols : Symbols
  ptr : Thread → ℕ
  low : Thread → ℕ
  high : Thread → ℕ
  ptr_lt : ∀ thread, ptr thread < 2 ^ 64
  high_lt : ∀ thread, high thread < 2 ^ 64
  stacks_apart : ∀ thread other, thread ≠ other →
    high thread ≤ low other ∨ high other ≤ low thread
  threads_apart : ∀ thread other, thread ≠ other →
    ptr thread + sizeofThread ≤ ptr other ∨ ptr other + sizeofThread ≤ ptr thread
  stack_apart : ∀ thread other,
    ptr thread + sizeofThread ≤ low other ∨ high other ≤ ptr thread

variable {Thread : Type*}

/-- The thread's stack and `rsp` field have the same bytes in both memories. -/
structure KeepsThread (space : ThreadSpace Thread) (memory memory' : Memory)
    (thread : Thread) : Prop where
  stack : ∀ target, space.low thread ≤ target → target < space.high thread →
    memory' target = memory target
  rsp : ∀ target, space.ptr thread ≤ target → target < space.ptr thread + 8 →
    memory' target = memory target

/-- The thread's frame on its stack is that of a call made with `cpu`. -/
structure Parked (space : ThreadSpace Thread) (memory : Memory) (thread : Thread)
    (cpu : Cpu) : Prop where
  saved : (readWord memory (space.ptr thread)).toNat + 64 = (cpu.regs .rsp).toNat
  lower : space.low thread + 64 ≤ (cpu.regs .rsp).toNat
  upper : (cpu.regs .rsp).toNat ≤ space.high thread
  frame : StackHolds memory (readWord memory (space.ptr thread)).toNat (savedFrame cpu)

section Parked

variable {space : ThreadSpace Thread} {memory memory' : Memory} {thread : Thread}
variable {cpu : Cpu} {machine : Machine}

theorem length_savedFrame (cpu : Cpu) : (savedFrame cpu).length = 8 := rfl

theorem Parked.congr (hparked : Parked space memory thread cpu)
    (hkeeps : KeepsThread space memory memory' thread) :
    Parked space memory' thread cpu := by
  have hread := readWord_congr hkeeps.rsp
  have hsaved := hparked.saved
  have hlower := hparked.lower
  have hupper := hparked.upper
  constructor
  · rw [hread]
    exact hsaved
  · exact hlower
  · exact hupper
  · rw [hread]
    apply hparked.frame.congr
    rw [length_savedFrame]
    intro target hfrom hto
    exact hkeeps.stack target (by omega) (by omega)

/-- The processor after the frame of `cpu` has been restored on `machine`. -/
structure Restored (machine : Machine) (cpu : Cpu) (machine' : Machine) : Prop where
  regs : ∀ reg ∈ .rsp :: frameRegs, machine'.regs reg = cpu.regs reg
  rax : machine'.regs .rax = machine.regs .rdi
  rdi : machine'.regs .rdi = machine.regs .rdi
  rflags : machine'.rflags = cpu.rflags
  rip : machine'.rip = cpu.rip
  memory : machine'.memory = machine.memory

/-- What `popfq`, `mov rax, rdi` and `ret` do. -/
structure Returned (machine : Machine) (rflags : Rflags) (rip : Word)
    (machine' : Machine) : Prop where
  rsp : (machine'.regs .rsp).toNat = (machine.regs .rsp).toNat + 16
  rax : machine'.regs .rax = machine.regs .rdi
  others : ∀ reg, reg ≠ .rsp → reg ≠ .rax → machine'.regs reg = machine.regs reg
  rflags : machine'.rflags = rflags
  rip : machine'.rip = rip
  memory : machine'.memory = machine.memory

theorem returned_run {rflags : Rflags} {rip : Word}
    (hholds : StackHolds machine.memory (machine.regs .rsp).toNat [rflags.bits, rip])
    (hroom : (machine.regs .rsp).toNat + 16 < 2 ^ 64) :
    Returned machine rflags rip (machine.run [.popfq, .mov .rax .rdi, .ret]) := by
  have hdrop := @Machine.toNat_drop_rsp machine (by omega)
  have hflags : machine.exec .popfq = { machine.drop with rflags := rflags } := by
    have htop : machine.top = rflags.bits := hholds.1
    rw [Machine.exec, htop, rflags.ofPopped_bits]
  obtain ⟨moved, hmoved⟩ : ∃ moved, moved = Machine.set
    { machine.drop with rflags := rflags } .rax (machine.drop.regs .rdi) := ⟨_, rfl⟩
  have hother : ∀ reg, reg ≠ .rax → moved.regs reg = machine.drop.regs reg := by
    intro reg hreg
    rw [hmoved, Machine.set_regs_of_ne _ _ _ hreg]
  have hrsp := hother .rsp (by decide)
  have hrun : machine.run [.popfq, .mov .rax .rdi, .ret] = moved.exec .ret := by
    rw [Machine.run_cons, hflags, hmoved]
    rfl
  rw [hrun]
  constructor
  · rw [Machine.exec_ret_regs, Machine.toNat_drop_rsp (by rw [hrsp, hdrop]; omega), hrsp,
      hdrop]
  · rw [Machine.exec_ret_regs, Machine.drop_regs_of_ne _ (by decide), hmoved,
      Machine.set_regs_self, Machine.drop_regs_of_ne _ (by decide)]
  · intro reg hnersp hnerax
    rw [Machine.exec_ret_regs, Machine.drop_regs_of_ne _ hnersp, hother reg hnerax,
      Machine.drop_regs_of_ne _ hnersp]
  · rw [Machine.exec_ret_rflags, hmoved, Machine.set_rflags]
  · rw [Machine.exec_ret_rip, Machine.top, hrsp, hdrop, hmoved]
    exact hholds.2.1
  · rw [Machine.exec_ret_memory, hmoved, Machine.set_memory]
    rfl

theorem Parked.restored (hparked : Parked space machine.memory thread cpu)
    (hrsi : machine.regs .rsi = BitVec.ofNat 64 (space.ptr thread)) :
    Restored machine cpu (machine.run restoreCode) := by
  have hptr : (machine.regs .rsi + 0).toNat = space.ptr thread := by
    rw [hrsi, add_zero, BitVec.toNat_ofNat]
    exact Nat.mod_eq_of_lt (space.ptr_lt thread)
  obtain ⟨saved, hword⟩ : ∃ saved, saved = readWord machine.memory (space.ptr thread) :=
    ⟨_, rfl⟩
  have hload : machine.exec (.load .rsp .rsi 0) = machine.set .rsp saved := by
    rw [Machine.exec, hptr, hword]
  have hsaved := hparked.saved
  have hframe := hparked.frame
  have hupper := hparked.upper
  have hhigh := space.high_lt thread
  rw [← hword] at hsaved hframe
  have hlength : frameRegs.length = 6 := rfl
  rw [savedFrame, stackHolds_append, List.length_map, hlength] at hframe
  have hpops : Popped (machine.set .rsp saved) frameRegs cpu.regs
      ((machine.set .rsp saved).run (frameRegs.map .pop)) := by
    apply Machine.popped_run (by decide)
    · rw [Machine.set_regs_self]
      exact hframe.1
    · rw [Machine.set_regs_self, hlength]
      omega
  have hrun : machine.run restoreCode = ((machine.set .rsp saved).run
      (frameRegs.map .pop)).run [.popfq, .mov .rax .rdi, .ret] := by
    rw [restoreCode, List.cons_append, Machine.run_cons, hload, Machine.run_append]
  generalize (machine.set .rsp saved).run (frameRegs.map .pop) = popped at hpops hrun
  have hpoppedRsp : (popped.regs .rsp).toNat = saved.toNat + 48 := by
    rw [hpops.rsp, Machine.set_regs_self, hlength]
  have hmemory : popped.memory = machine.memory := hpops.memory
  have hrest : StackHolds popped.memory (popped.regs .rsp).toNat
      [cpu.rflags.bits, cpu.rip] := by
    rw [hmemory, hpoppedRsp]
    exact hframe.2
  have hreturned := returned_run hrest (by omega)
  have hrdi : popped.regs .rdi = machine.regs .rdi := by
    rw [hpops.others .rdi (by decide) (by decide)]
    exact Machine.set_regs_of_ne _ _ _ (by decide)
  rw [hrun]
  constructor
  · intro reg hreg
    rcases List.mem_cons.mp hreg with rfl | hreg
    · apply BitVec.eq_of_toNat_eq
      rw [hreturned.rsp, hpoppedRsp, ← hsaved]
    · rw [hreturned.others reg (ne_of_mem_of_not_mem hreg (by decide))
        (ne_of_mem_of_not_mem hreg (by decide))]
      exact hpops.popped reg hreg
  · rw [hreturned.rax, hrdi]
  · rw [hreturned.others .rdi (by decide) (by decide), hrdi]
  · exact hreturned.rflags
  · exact hreturned.rip
  · rw [hreturned.memory, hmemory]

/-- The machine after `mov [rdi + Thread.rsp], rsp`, when `caller` has called
`switch_context`. -/
structure Saved (space : ThreadSpace Thread) (machine : Machine) (caller : Thread)
    (machine' : Machine) : Prop where
  regs : ∀ reg, reg ≠ .rsp → machine'.regs reg = machine.regs reg
  parked : Parked space machine'.memory caller machine.toCpu
  others : ∀ thread, thread ≠ caller →
    KeepsThread space machine.memory machine'.memory thread
  above : ∀ target, (machine.regs .rsp).toNat ≤ target → target < space.high caller →
    machine'.memory target = machine.memory target

/-- The call pushes the return address, `switch_context` the flags and the registers. -/
theorem pushed_frame (hroom : 64 ≤ (machine.regs .rsp).toNat) :
    ∃ pushed, Pushed machine (savedFrame machine.toCpu) pushed ∧
      (machine.pushWord machine.rip).run switchContext =
        (pushed.exec (.store .rdi 0 .rsp)).run restoreCode := by
  have hlength : frameRegs.reverse.length = 6 := rfl
  have hcall : Pushed machine [machine.rip] (machine.pushWord machine.rip) :=
    (Pushed.refl machine).pushWord machine.rip (by rw [List.length_nil]; omega)
  have hflags : Pushed machine [machine.rflags.bits, machine.rip]
      ((machine.pushWord machine.rip).exec .pushfq) := by
    rw [Machine.exec, hcall.rflags]
    exact hcall.pushWord _ (by rw [List.length_singleton]; omega)
  have hpushed := hflags.pushRegs (show .rsp ∉ frameRegs.reverse by decide)
    (by rw [hlength, List.length_cons, List.length_singleton]; omega)
  rw [List.reverse_reverse] at hpushed
  rw [switchContext_eq, Machine.run_cons, Machine.run_append, Machine.run_cons]
  generalize ((machine.pushWord machine.rip).exec .pushfq).run
    (frameRegs.reverse.map .push) = pushed at hpushed
  exact ⟨pushed, hpushed, rfl⟩

theorem saved_run {caller : Thread}
    (hrdi : machine.regs .rdi = BitVec.ofNat 64 (space.ptr caller))
    (hlower : space.low caller + 64 ≤ (machine.regs .rsp).toNat)
    (hupper : (machine.regs .rsp).toNat ≤ space.high caller) :
    ∃ machine', Saved space machine caller machine' ∧
      (machine.pushWord machine.rip).run switchContext = machine'.run restoreCode := by
  obtain ⟨pushed, hpushed, hrun⟩ := @pushed_frame machine (by omega)
  have hptr : (pushed.regs .rdi + 0).toNat = space.ptr caller := by
    rw [hpushed.regs .rdi (by decide), hrdi, add_zero, BitVec.toNat_ofNat]
    exact Nat.mod_eq_of_lt (space.ptr_lt caller)
  have hstore : pushed.exec (.store .rdi 0 .rsp) = { pushed with
      memory := writeWord pushed.memory (space.ptr caller) (pushed.regs .rsp) } := by
    rw [Machine.exec, hptr]
  have hrsp := hpushed.rsp
  have hholds := hpushed.holds
  rw [length_savedFrame] at hrsp
  have hsize : sizeofThread = 136 := rfl
  have hown := space.stack_apart caller caller
  refine ⟨pushed.exec (.store .rdi 0 .rsp), ?_, hrun⟩
  rw [hstore]
  refine ⟨hpushed.regs, ?_, ?_, ?_⟩
  · constructor
    · rw [readWord_writeWord]
      exact hrsp
    · exact hlower
    · exact hupper
    · rw [readWord_writeWord]
      apply hholds.congr
      intro target hfrom hto
      rw [length_savedFrame] at hto
      exact writeWord_of_not_mem (by omega)
  · intro thread hthread
    have hstacks := space.stacks_apart thread caller hthread
    have hthreads := space.threads_apart thread caller hthread
    have hcaller := space.stack_apart caller thread
    have hother := space.stack_apart thread caller
    constructor
    · intro target hfrom hto
      simp only
      rw [writeWord_of_not_mem (by omega)]
      exact hpushed.outside target (by omega)
    · intro target hfrom hto
      simp only
      rw [writeWord_of_not_mem (by omega)]
      exact hpushed.outside target (by omega)
  · intro target hfrom hto
    simp only
    rw [writeWord_of_not_mem (by omega)]
    exact hpushed.outside target (by omega)

end Parked

/-! ## Runs -/

/-- Whether a thread has returned from `init_thread` to its entry function. -/
inductive Stage
  | initializing (entry : Word)
  | started

/-- Where a thread stands.  A suspended thread is recorded with the processor at its
call of `switch_context`, `rip` being the return address. -/
inductive Phase
  | absent
  | fresh (entry : Word)
  | running (stage : Stage)
  | suspended (call : Cpu) (stage : Stage)

def Phase.suspend (call : Cpu) : Phase → Phase
  | .running stage => .suspended call stage
  | phase => phase

def Phase.resume : Phase → Phase
  | .fresh entry => .running (.initializing entry)
  | .suspended _ stage => .running stage
  | phase => phase

/-- The bytes at the top of its stack that a thread in `init_thread` needs for its
return. -/
def Phase.reserved : Phase → ℕ
  | .running (.initializing _) => 8
  | _ => 0

structure SwitchState (Thread : Type*) where
  machine : Machine
  running : Thread
  phase : Thread → Phase

/-- At first one thread is running and the others do not exist. -/
structure SwitchState.Boots (state : SwitchState Thread) : Prop where
  running : state.phase state.running = .running .started
  others : ∀ thread, thread ≠ state.running → state.phase thread = .absent

/-- The running thread leaves alone the stack and the `rsp` field of every other thread
and, in `init_thread`, its own return address.  A thread that writes only to its own
stack does so. -/
structure SwitchState.Keeps (space : ThreadSpace Thread) (state : SwitchState Thread)
    (memory' : Memory) : Prop where
  others : ∀ thread, thread ≠ state.running → state.phase thread ≠ .absent →
    KeepsThread space state.machine.memory memory' thread
  slot : ∀ target, space.high state.running - (state.phase state.running).reserved ≤ target →
    target < space.high state.running → memory' target = state.machine.memory target

/-- The memory holds what `thread_kcreate` leaves on the thread's stack and in its `rsp`
field, called on a heap in use and with a name that fits. -/
def Created (space : ThreadSpace Thread) (memory : Memory) (thread : Thread)
    (entry : Word) : Prop :=
  ∃ boot state tid name proc heap',
    HeapReachable boot state ∧ name.length < threadMaxNameLength ∧
    threadKcreate space.symbols state.heap tid name entry.toNat proc =
      some (heap', space.ptr thread) ∧
    load64 heap'.memory (space.ptr thread + threadRspBase) = space.low thread ∧
    space.high thread = space.low thread + stackSize ∧
    KeepsThread space heap'.memory memory thread

variable [DecidableEq Thread]

namespace SwitchState

/-- The call `switch_context(current_thread, new)` of the running thread. -/
def call (space : ThreadSpace Thread) (state : SwitchState Thread) (new : Thread) :
    Machine :=
  (state.machine.set .rdi (BitVec.ofNat 64 (space.ptr state.running))).set .rsi
    (BitVec.ofNat 64 (space.ptr new))

/-- The record once the running thread has called `switch_context`. -/
def parked (space : ThreadSpace Thread) (state : SwitchState Thread) (new : Thread) :
    Thread → Phase :=
  Function.update state.phase state.running
    ((state.phase state.running).suspend (state.call space new).toCpu)

def switch (space : ThreadSpace Thread) (state : SwitchState Thread) (new : Thread) :
    SwitchState Thread where
  machine := ((state.call space new).pushWord (state.call space new).rip).run switchContext
  running := new
  phase := Function.update (state.parked space new) new (state.parked space new new).resume

section Fields

variable (space : ThreadSpace Thread) (state : SwitchState Thread) {new thread : Thread}

theorem parked_running :
    state.parked space new state.running =
      (state.phase state.running).suspend (state.call space new).toCpu :=
  Function.update_self ..

theorem parked_of_ne (hthread : thread ≠ state.running) :
    state.parked space new thread = state.phase thread :=
  Function.update_of_ne hthread ..

theorem switch_phase_new :
    (state.switch space new).phase new = (state.parked space new new).resume :=
  Function.update_self ..

theorem switch_phase_of_ne (hthread : thread ≠ new) :
    (state.switch space new).phase thread = state.parked space new thread :=
  Function.update_of_ne hthread ..

end Fields

/-- The frame goes to the running thread's own stack, and `new` exists. -/
structure CanSwitch (space : ThreadSpace Thread) (state : SwitchState Thread)
    (new : Thread) : Prop where
  exists_new : state.phase new ≠ .absent
  lower : space.low state.running + 64 ≤ (state.machine.regs .rsp).toNat
  upper : (state.machine.regs .rsp).toNat + (state.phase state.running).reserved ≤
    space.high state.running

/-- What the running thread can do. -/
inductive Step (space : ThreadSpace Thread) : SwitchState Thread → SwitchState Thread → Prop
  /-- any code of the thread -/
  | compute {state : SwitchState Thread} (machine' : Machine) :
      state.Keeps space machine'.memory → Step space state { state with machine := machine' }
  /-- a call of `thread_kcreate` -/
  | create {state : SwitchState Thread} (machine' : Machine) (thread : Thread) (entry : Word) :
      state.phase thread = .absent → state.Keeps space machine'.memory →
      Created space machine'.memory thread entry →
        Step space state { state with
          machine := machine'
          phase := Function.update state.phase thread (.fresh entry) }
  /-- a call of `switch_context` -/
  | switch {state : SwitchState Thread} (new : Thread) :
      state.CanSwitch space new → Step space state (state.switch space new)
  /-- the return of `init_thread` -/
  | initReturn {state : SwitchState Thread} (entry : Word) :
      state.phase state.running = .running (.initializing entry) →
      (state.machine.regs .rsp).toNat + 8 = space.high state.running →
        Step space state { state with
          machine := state.machine.exec .ret
          phase := Function.update state.phase state.running (.running .started) }

/-- The states that a run from `boot` goes through. -/
def Reaches (space : ThreadSpace Thread) (boot state : SwitchState Thread) : Prop :=
  Relation.ReflTransGen (Step space) boot state

end SwitchState

/-! ## The record describes the stacks -/

/-- The return address of `init_thread` is still the entry function. -/
def StageHolds (space : ThreadSpace Thread) (memory : Memory) (thread : Thread) :
    Stage → Prop
  | .initializing entry =>
      8 ≤ space.high thread ∧ readWord memory (space.high thread - 8) = entry
  | .started => True

/-- A fresh thread looks like one that has called `switch_context` just before
`init_thread`. -/
structure FreshAt (space : ThreadSpace Thread) (thread : Thread) (cpu : Cpu) : Prop where
  rflags : cpu.rflags.bits = 0x202
  rip : cpu.rip = BitVec.ofNat 64 space.symbols.initThread
  rsp : (cpu.regs .rsp).toNat + 8 = space.high thread

def PhaseHolds (space : ThreadSpace Thread) (memory : Memory) (thread : Thread) :
    Phase → Prop
  | .absent => True
  | .fresh entry => ∃ cpu, FreshAt space thread cpu ∧ Parked space memory thread cpu ∧
      StageHolds space memory thread (.initializing entry)
  | .running _ => False
  | .suspended call stage => Parked space memory thread call ∧
      StageHolds space memory thread stage

structure Sound (space : ThreadSpace Thread) (state : SwitchState Thread) : Prop where
  running : ∃ stage, state.phase state.running = .running stage ∧
    StageHolds space state.machine.memory state.running stage
  others : ∀ thread, thread ≠ state.running →
    PhaseHolds space state.machine.memory thread (state.phase thread)

section Sound

variable {space : ThreadSpace Thread} {memory memory' : Memory} {thread : Thread}
variable {state : SwitchState Thread} {new : Thread}

omit [DecidableEq Thread] in
theorem StageHolds.congr {stage : Stage} (hholds : StageHolds space memory thread stage)
    (hagree : ∀ target, space.high thread - (Phase.running stage).reserved ≤ target →
      target < space.high thread → memory' target = memory target) :
    StageHolds space memory' thread stage := by
  cases stage with
  | started => trivial
  | initializing entry =>
      refine ⟨hholds.1, ?_⟩
      have hhigh := hholds.1
      rw [← hholds.2]
      apply readWord_congr
      intro target hlower hupper
      exact hagree target hlower (by omega)

omit [DecidableEq Thread] in
theorem PhaseHolds.congr {phase : Phase} (hholds : PhaseHolds space memory thread phase)
    (hkeeps : phase ≠ .absent → KeepsThread space memory memory' thread) :
    PhaseHolds space memory' thread phase := by
  have hstage : ∀ {cpu stage}, KeepsThread space memory memory' thread →
      Parked space memory thread cpu → StageHolds space memory thread stage →
        StageHolds space memory' thread stage := by
    intro cpu stage hkeeps hparked hstage
    have hlower := hparked.lower
    have hupper := hparked.upper
    apply hstage.congr
    intro target hfrom hto
    have hreserved : (Phase.running stage).reserved ≤ 8 := by
      cases stage <;> simp [Phase.reserved]
    exact hkeeps.stack target (by omega) hto
  cases phase with
  | absent => trivial
  | running stage => exact hholds.elim
  | fresh entry =>
      obtain ⟨cpu, hfresh, hparked, hslot⟩ := hholds
      have hkeeps := hkeeps (by simp)
      exact ⟨cpu, hfresh, hparked.congr hkeeps, hstage hkeeps hparked hslot⟩
  | suspended call stage =>
      have hkeeps := hkeeps (by simp)
      exact ⟨hholds.1.congr hkeeps, hstage hkeeps hholds.1 hholds.2⟩

/-- The processor that the frame of a fresh thread describes; the register slots have
never been written. -/
def freshCpu (space : ThreadSpace Thread) (memory : Memory) (thread : Thread) : Cpu where
  regs
    | .r12 => readWord memory (space.high thread - 72)
    | .r13 => readWord memory (space.high thread - 72 + 8)
    | .r14 => readWord memory (space.high thread - 72 + 16)
    | .r15 => readWord memory (space.high thread - 72 + 24)
    | .rbp => readWord memory (space.high thread - 72 + 32)
    | .rbx => readWord memory (space.high thread - 72 + 40)
    | .rsp => BitVec.ofNat 64 (space.high thread - 8)
    | _ => 0
  rflags := ⟨0x202, by decide⟩
  rip := BitVec.ofNat 64 space.symbols.initThread

omit [DecidableEq Thread] in
/-- What `thread_kcreate` leaves is a fresh thread. -/
theorem Created.phaseHolds {entry : Word} (hcreated : Created space memory thread entry) :
    PhaseHolds space memory thread (.fresh entry) := by
  obtain ⟨boot, state, tid, name, proc, heap', hreachable, hname, hcreate, hlow, hhigh,
    hkeeps⟩ := hcreated
  obtain ⟨layout, htracks⟩ := hreachable.tracks
  obtain ⟨base, event, layout', hprepared, -⟩ :=
    threadKcreate_spec htracks hname entry.isLt hcreate
  obtain rfl : space.low thread = base := hlow.symm.trans hprepared.rspBase
  have hsize : stackSize = 16384 := rfl
  have hhighLt := space.high_lt thread
  have hstack : ∀ {address value}, space.low thread ≤ address →
      address + 8 ≤ space.high thread → load64 heap'.memory address = value →
        readWord memory address = BitVec.ofNat 64 value := by
    intro address value hlower hupper hload
    rw [readWord, load64_congr fun target hfrom hto =>
      hkeeps.stack target (by omega) (by omega), hload]
  have hrsp : (readWord memory (space.ptr thread)).toNat = space.high thread - 72 := by
    rw [toNat_readWord, load64_congr hkeeps.rsp, hprepared.rsp, hhigh]
  have hrspFresh : ((freshCpu space memory thread).regs .rsp).toNat =
      space.high thread - 8 := by
    change (BitVec.ofNat 64 (space.high thread - 8)).toNat = _
    rw [BitVec.toNat_ofNat]
    exact Nat.mod_eq_of_lt (by omega)
  have hentry : readWord memory (space.high thread - 8) = entry := by
    rw [hstack (by omega) (by omega) (hhigh ▸ hprepared.entry), BitVec.ofNat_toNat,
      BitVec.setWidth_eq]
  have hrflags : readWord memory (space.high thread - 72 + 48) = 0x202 := by
    rw [show space.high thread - 72 + 48 = space.high thread - 24 by omega]
    exact hstack (by omega) (by omega) (hhigh ▸ hprepared.rflags)
  have hinit : readWord memory (space.high thread - 72 + 56) =
      BitVec.ofNat 64 space.symbols.initThread := by
    rw [show space.high thread - 72 + 56 = space.high thread - 16 by omega]
    exact hstack (by omega) (by omega) (hhigh ▸ hprepared.initThread)
  refine ⟨freshCpu space memory thread, ⟨rfl, rfl, by omega⟩,
    ⟨by omega, by omega, by omega, ?_⟩, by omega, hentry⟩
  rw [hrsp]
  exact ⟨rfl, rfl, rfl, rfl, rfl, rfl, hrflags, hinit, trivial⟩

omit [DecidableEq Thread] in
theorem Sound.boots (hboots : state.Boots) : Sound space state where
  running := ⟨.started, hboots.running, trivial⟩
  others thread hthread := by rw [hboots.others thread hthread]; trivial

omit [DecidableEq Thread] in
/-- Any code of the running thread keeps the record. -/
theorem Sound.compute (hsound : Sound space state) {machine' : Machine}
    (hkeeps : state.Keeps space machine'.memory) :
    Sound space { state with machine := machine' } := by
  obtain ⟨stage, hphase, hstage⟩ := hsound.running
  constructor
  · exact ⟨stage, hphase, hstage.congr (hphase ▸ hkeeps.slot)⟩
  · intro thread hthread
    exact (hsound.others thread hthread).congr (hkeeps.others thread hthread)

theorem Sound.create (hsound : Sound space state) {machine' : Machine} {entry : Word}
    (habsent : state.phase thread = .absent) (hkeeps : state.Keeps space machine'.memory)
    (hcreated : Created space machine'.memory thread entry) :
    Sound space { state with
      machine := machine'
      phase := Function.update state.phase thread (.fresh entry) } := by
  obtain ⟨⟨stage, hphase, hstage⟩, hothers⟩ := hsound.compute hkeeps
  have hne : state.running ≠ thread := by
    rintro rfl
    exact absurd (hphase.symm.trans habsent) (by simp)
  constructor
  · exact ⟨stage, (Function.update_of_ne hne ..).trans hphase, hstage⟩
  · intro other hother
    by_cases hnew : other = thread
    · subst hnew
      simp only [Function.update_self]
      exact hcreated.phaseHolds
    · simp only [Function.update_of_ne hnew]
      exact hothers other hother

theorem Sound.initReturn (hsound : Sound space state) :
    Sound space { state with
      machine := state.machine.exec .ret
      phase := Function.update state.phase state.running (.running .started) } := by
  constructor
  · exact ⟨.started, Function.update_self .., trivial⟩
  · intro thread hthread
    rw [Machine.exec_ret_memory]
    simp only [Function.update_of_ne hthread]
    exact hsound.others thread hthread

/-- Once the running thread has saved its frame, the record describes every stack. -/
theorem Sound.parked (hsound : Sound space state) (hcan : state.CanSwitch space new) :
    ∃ machine : Machine, (state.switch space new).machine = machine.run restoreCode ∧
      machine.regs .rdi = BitVec.ofNat 64 (space.ptr state.running) ∧
      machine.regs .rsi = BitVec.ofNat 64 (space.ptr new) ∧
      ∀ thread, PhaseHolds space machine.memory thread (state.parked space new thread) := by
  obtain ⟨stage, hphase, hstage⟩ := hsound.running
  have hrdi : (state.call space new).regs .rdi =
      BitVec.ofNat 64 (space.ptr state.running) := by
    rw [SwitchState.call, Machine.set_regs_of_ne _ _ _ (by decide), Machine.set_regs_self]
  have hrsi : (state.call space new).regs .rsi = BitVec.ofNat 64 (space.ptr new) := by
    rw [SwitchState.call, Machine.set_regs_self]
  have hrsp : (state.call space new).regs .rsp = state.machine.regs .rsp := by
    rw [SwitchState.call, Machine.set_regs_of_ne _ _ _ (by decide),
      Machine.set_regs_of_ne _ _ _ (by decide)]
  have hlower := hcan.lower
  have hupper := hcan.upper
  obtain ⟨machine, hsaved, hrun⟩ := @saved_run Thread space (state.call space new)
    state.running hrdi (by rw [hrsp]; exact hlower) (by rw [hrsp]; omega)
  refine ⟨machine, hrun, ?_, ?_, ?_⟩
  · rw [hsaved.regs .rdi (by decide), hrdi]
  · rw [hsaved.regs .rsi (by decide), hrsi]
  intro thread
  by_cases hthread : thread = state.running
  · subst hthread
    rw [SwitchState.parked_running, hphase]
    refine ⟨hsaved.parked, hstage.congr ?_⟩
    intro target hfrom hto
    rw [hphase] at hupper
    exact hsaved.above target (by rw [hrsp]; omega) hto
  · rw [SwitchState.parked_of_ne _ _ hthread]
    exact (hsound.others thread hthread).congr fun _ => hsaved.others thread hthread

theorem SwitchState.CanSwitch.parked_ne (hcan : state.CanSwitch space new)
    (hsound : Sound space state) : state.parked space new new ≠ .absent := by
  by_cases hnew : new = state.running
  · obtain ⟨stage, hphase, -⟩ := hsound.running
    subst hnew
    rw [SwitchState.parked_running, hphase]
    simp [Phase.suspend]
  · rw [SwitchState.parked_of_ne _ _ hnew]
    exact hcan.exists_new

/-- A thread that can be switched to is parked, and the switch restores its processor. -/
theorem Sound.switch (hsound : Sound space state) (hcan : state.CanSwitch space new) :
    Sound space (state.switch space new) := by
  obtain ⟨machine, hrun, -, hrsi, hholds⟩ := hsound.parked hcan
  have hne := hcan.parked_ne hsound
  have hnew := hholds new
  -- the stacks are those after the frame was saved: restoring writes nothing
  have hresumed : (state.switch space new).machine.memory = machine.memory ∧
      ∃ stage, (state.parked space new new).resume = .running stage ∧
        StageHolds space machine.memory new stage := by
    cases hphase : state.parked space new new with
    | absent => exact absurd hphase hne
    | running stage =>
        rw [hphase] at hnew
        exact hnew.elim
    | fresh entry =>
        rw [hphase] at hnew
        obtain ⟨cpu, -, hparked, hslot⟩ := hnew
        exact ⟨hrun ▸ (hparked.restored hrsi).memory, _, rfl, hslot⟩
    | suspended call stage =>
        rw [hphase] at hnew
        exact ⟨hrun ▸ (hnew.1.restored hrsi).memory, _, rfl, hnew.2⟩
  obtain ⟨hmemory, stage, hresume, hstage⟩ := hresumed
  constructor
  · refine ⟨stage, ?_, by rw [hmemory]; exact hstage⟩
    rw [← hresume]
    exact state.switch_phase_new space
  · intro thread (hthread : thread ≠ new)
    rw [hmemory, state.switch_phase_of_ne space hthread]
    exact hholds thread

theorem Sound.step {next : SwitchState Thread} (hsound : Sound space state)
    (hstep : SwitchState.Step space state next) : Sound space next := by
  cases hstep with
  | compute machine' hkeeps => exact hsound.compute hkeeps
  | create machine' thread entry habsent hkeeps hcreated =>
      exact hsound.create habsent hkeeps hcreated
  | switch new hcan => exact hsound.switch hcan
  | initReturn entry _ _ => exact hsound.initReturn

/-- In every state of a run the stacks hold what the record says. -/
theorem Sound.reaches {boot : SwitchState Thread} (hboots : boot.Boots)
    (hreaches : SwitchState.Reaches space boot state) : Sound space state := by
  induction hreaches with
  | refl => exact Sound.boots hboots
  | tail _ hstep ih => exact ih.step hstep

end Sound

/-- In every run, switching to a suspended thread restores the registers and flags of its
call and returns the thread that switched away; switching to a fresh thread enters
`init_thread` with that thread as its argument, and `init_thread` returns to the entry
function. -/
theorem switch_context_preserves_threads {space : ThreadSpace Thread}
    {boot state : SwitchState Thread} (hboots : boot.Boots)
    (hreaches : SwitchState.Reaches space boot state) :
    (∀ new, state.CanSwitch space new →
      (∀ call stage, state.parked space new new = .suspended call stage →
        (∀ reg ∈ [.rsp, .rbx, .rbp, .r12, .r13, .r14, .r15],
          (state.switch space new).machine.regs reg = call.regs reg) ∧
        (state.switch space new).machine.rflags = call.rflags ∧
        (state.switch space new).machine.rip = call.rip ∧
        (state.switch space new).machine.regs .rax =
          BitVec.ofNat 64 (space.ptr state.running)) ∧
      ∀ entry, state.phase new = .fresh entry →
        (state.switch space new).machine.rip = BitVec.ofNat 64 space.symbols.initThread ∧
        (state.switch space new).machine.regs .rdi =
          BitVec.ofNat 64 (space.ptr state.running) ∧
        (state.switch space new).machine.rflags.bits = 0x202 ∧
        ((state.switch space new).machine.regs .rsp).toNat + 8 = space.high new) ∧
    ∀ entry, state.phase state.running = .running (.initializing entry) →
      (state.machine.regs .rsp).toNat + 8 = space.high state.running →
        (state.machine.exec .ret).rip = entry := by
  have hsound := Sound.reaches hboots hreaches
  refine ⟨?_, ?_⟩
  · intro new hcan
    obtain ⟨machine, hrun, hrdi, hrsi, hholds⟩ := hsound.parked hcan
    have hnew := hholds new
    rw [hrun, ← hrdi]
    constructor
    · intro call stage hphase
      rw [hphase] at hnew
      have hrestored := hnew.1.restored hrsi
      refine ⟨?_, hrestored.rflags, hrestored.rip, hrestored.rax⟩
      intro reg hreg
      apply hrestored.regs
      revert reg
      decide
    · intro entry hfresh
      have hne : new ≠ state.running := by
        rintro rfl
        obtain ⟨stage, hphase, -⟩ := hsound.running
        exact absurd (hphase.symm.trans hfresh) (by simp)
      rw [SwitchState.parked_of_ne _ _ hne, hfresh] at hnew
      obtain ⟨cpu, hcpu, hparked, -⟩ := hnew
      have hrestored := hparked.restored hrsi
      refine ⟨?_, hrestored.rdi, ?_, ?_⟩
      · rw [hrestored.rip, hcpu.rip]
      · rw [hrestored.rflags, hcpu.rflags]
      · rw [hrestored.regs .rsp List.mem_cons_self, hcpu.rsp]
  · intro entry hphase hrsp
    obtain ⟨stage, hstage, hslot⟩ := hsound.running
    obtain rfl : stage = .initializing entry := by
      rw [hphase] at hstage
      exact (Phase.running.inj hstage).symm
    rw [Machine.exec_ret_rip, Machine.top, ← hslot.2, ← hrsp]
    rfl

/-- The boot thread, with a stack below the heap, and a thread in the heap. -/
def twoThreads (symbols : Symbols) (t base : ℕ)
    (hthread : heapStart ≤ t ∧ t + sizeofThread ≤ heapEnd)
    (hstack : heapStart ≤ base ∧ base + stackSize ≤ heapEnd)
    (hapart : base + stackSize ≤ t ∨ t + sizeofThread ≤ base) : ThreadSpace Bool where
  symbols := symbols
  ptr thread := bif thread then t else 0x1000
  low thread := bif thread then base else 0x2000
  high thread := bif thread then base + stackSize else 0x4000
  ptr_lt thread := by
    have hend := heapEnd_lt
    cases thread <;> simp only [cond_true, cond_false] <;> omega
  high_lt thread := by
    have hend := heapEnd_lt
    cases thread <;> simp only [cond_true, cond_false] <;> omega
  stacks_apart thread other hne := by
    have hstart : 0x4000 ≤ heapStart := by decide
    cases thread <;> cases other <;> simp only [cond_true, cond_false] <;>
      first | exact absurd rfl hne | omega
  threads_apart thread other hne := by
    have hstart : 0x4000 ≤ heapStart := by decide
    have hsize : sizeofThread = 136 := rfl
    cases thread <;> cases other <;> simp only [cond_true, cond_false] <;>
      first | exact absurd rfl hne | omega
  stack_apart thread other := by
    have hstart : 0x4000 ≤ heapStart := by decide
    have hsize : sizeofThread = 136 := rfl
    cases thread <;> cases other <;> simp only [cond_true, cond_false] <;> omega

/-- The boot thread in the middle of its stack, with 7 in `rbx`. -/
def bootThread : SwitchState Bool where
  machine :=
    { regs := fun reg => if reg = .rsp then 0x3000 else if reg = .rbx then 7 else 0
      rflags := ⟨0x202, by decide⟩
      rip := 0x100
      memory := fun _ => 0 }
  running := false
  phase thread := bif thread then .absent else .running .started

def sampleSymbols : Symbols where
  initThread := 0x5000
  none := 0x6000
  initThread_lt := by decide

theorem boots_bootThread : bootThread.Boots where
  running := rfl
  others thread hthread := by
    cases thread with
    | true => rfl
    | false => exact absurd rfl hthread

/-- The boot thread calls `thread_kcreate` on a fresh heap. -/
theorem reaches_created :
    ∃ (space : ThreadSpace Bool) (state : SwitchState Bool),
      SwitchState.Reaches space bootThread state ∧
      state.machine.toCpu = bootThread.machine.toCpu ∧ state.running = false ∧
      state.phase = Function.update bootThread.phase true (.fresh 0x7000) ∧
      space.low false = 0x2000 ∧ space.high false = 0x4000 ∧
      space.high true = space.low true + stackSize := by
  obtain ⟨heap, t, hcreate⟩ := @threadKcreate_fresh sampleSymbols 0x7000 0 0
    [0x6f, 0x6e, 0x65] (fun _ => 0) (by decide)
  obtain ⟨layout, htracks⟩ := (HeapReachable.init : HeapReachable (fun _ => 0) _).tracks
  obtain ⟨base, event, layout', hprepared, htracks'⟩ :=
    threadKcreate_spec htracks (by decide) (by decide) hcreate
  have hthread := htracks'.bounds (show ⟨t, sizeofThread⟩ ∈ _ by simp)
  have hstack := htracks'.bounds (show ⟨base, stackSize⟩ ∈ _ by simp)
  have hne : base ≠ t := by
    have hdistinct := htracks'.nodup
    simp only [List.map_cons, List.nodup_cons, List.mem_cons, not_or] at hdistinct
    exact hdistinct.2.1.1
  have hapart := htracks'.isolated (show ⟨base, stackSize⟩ ∈ _ by simp)
    (show ⟨t, sizeofThread⟩ ∈ _ by simp) hne
  simp only [Isolated, wordSize] at hthread hstack hapart
  refine ⟨twoThreads sampleSymbols t base hthread.2 hstack.2 (by omega), _,
    Relation.ReflTransGen.refl.tail (.create { bootThread.machine with
      memory := heap.memory } true 0x7000 rfl ?_ ?_), rfl, rfl, rfl, rfl, rfl, rfl⟩
  · constructor
    · intro thread hthread hexists
      exact absurd (boots_bootThread.others thread hthread) hexists
    · intro target hfrom hto
      exact absurd hto (not_lt.mpr hfrom)
  · exact ⟨fun _ => 0, _, 0, _, 0, heap, HeapReachable.init, (by decide :
      [(0x6f : Byte), 0x6e, 0x65].length < threadMaxNameLength), hcreate, hprepared.rspBase,
      rfl, fun _ _ _ => rfl, fun _ _ _ => rfl⟩

/-- The boot thread creates a thread and switches to it, and the new thread switches
back. -/
theorem switch_context_there_and_back :
    ∃ (space : ThreadSpace Bool) (state : SwitchState Bool),
      SwitchState.Reaches space bootThread state ∧
      (state.switch space true).machine.rip = BitVec.ofNat 64 space.symbols.initThread ∧
      ((state.switch space true).switch space false).machine.regs .rbx = 7 ∧
      ((state.switch space true).switch space false).machine.regs .rax =
        BitVec.ofNat 64 (space.ptr true) := by
  obtain ⟨space, state, hreaches, hcpu, hrunning, hphase, hlow, hhigh, hstack⟩ :=
    reaches_created
  have hregs : state.machine.regs = bootThread.machine.regs := congrArg Cpu.regs hcpu
  have hsize : stackSize = 16384 := rfl
  have hthere : state.CanSwitch space true := by
    refine ⟨by rw [hphase]; simp, ?_, ?_⟩ <;> rw [hrunning, hregs]
    · rw [hlow]
      decide
    · rw [hphase, hhigh]
      decide
  obtain ⟨hrip, -, -, hrsp⟩ :=
    ((switch_context_preserves_threads boots_bootThread hreaches).1 true hthere).2 0x7000
      (by rw [hphase, Function.update_self])
  have hrecord : (state.switch space true).phase false =
      .suspended (state.call space true).toCpu .started := by
    have hself := @SwitchState.parked_running Bool _ space state true
    rw [hrunning, hphase] at hself
    exact (state.switch_phase_of_ne space (by decide)).trans hself
  have hresumed : (state.switch space true).phase true =
      .running (.initializing 0x7000) := by
    rw [SwitchState.switch_phase_new, SwitchState.parked_of_ne _ _ (by rw [hrunning]; decide),
      hphase, Function.update_self]
    rfl
  have hback : (state.switch space true).CanSwitch space false := by
    refine ⟨by rw [hrecord]; simp, ?_, ?_⟩
    · change space.low true + 64 ≤ _
      omega
    · change _ + ((state.switch space true).phase true).reserved ≤ space.high true
      rw [hresumed]
      exact hrsp.le
  obtain ⟨hrestored, -, -, hrax⟩ := ((switch_context_preserves_threads boots_bootThread
    (hreaches.tail (.switch true hthere))).1 false hback).1 _ _
      (((state.switch space true).parked_of_ne space (show false ≠ true by decide)).trans
        hrecord)
  refine ⟨space, state, hreaches, hrip, ?_, hrax⟩
  rw [hrestored .rbx (by simp), SwitchState.call, Machine.set_regs_of_ne _ _ _ (by decide),
    Machine.set_regs_of_ne _ _ _ (by decide), hregs]
  rfl

end Flurry.ContextSwitch
