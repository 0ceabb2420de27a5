import Flurry.Hardware.InterruptDelivery

/-!
# The interrupt stubs of `isr.asm`

Each of the 256 stubs brings the stack into one shape, with an error code and the
vector, and saves the registers above it.  What is then on the stack is the
structure `InterruptCtx` that the handlers are given.  On the way back the same
registers are popped, so that a handler that leaves the structure alone is not
noticed by the interrupted code.
-/

namespace Flurry.Interrupts

open ByteMemory Processor

/-- The fields of `InterruptCtx` in their order in memory. -/
@[ext]
structure InterruptCtx where
  r15 : Word
  r14 : Word
  r13 : Word
  r12 : Word
  r11 : Word
  r10 : Word
  r9 : Word
  r8 : Word
  rbp : Word
  rsi : Word
  rdi : Word
  rdx : Word
  rcx : Word
  rbx : Word
  rax : Word
  vector : Word
  errorCode : Word
  rip : Word
  cs : Word
  rflags : Word
  rsp : Word
  ss : Word
  deriving DecidableEq, Repr

namespace InterruptCtx

def words (ctx : InterruptCtx) : List Word :=
  [ctx.r15, ctx.r14, ctx.r13, ctx.r12, ctx.r11, ctx.r10, ctx.r9, ctx.r8, ctx.rbp, ctx.rsi,
    ctx.rdi, ctx.rdx, ctx.rcx, ctx.rbx, ctx.rax, ctx.vector, ctx.errorCode, ctx.rip, ctx.cs,
    ctx.rflags, ctx.rsp, ctx.ss]

/-- The structure at an address. -/
def load (memory : Memory) (address : ℕ) : InterruptCtx :=
  let field index := readWord memory (address + 8 * index)
  { r15 := field 0, r14 := field 1, r13 := field 2, r12 := field 3, r11 := field 4
    r10 := field 5, r9 := field 6, r8 := field 7, rbp := field 8, rsi := field 9
    rdi := field 10, rdx := field 11, rcx := field 12, rbx := field 13, rax := field 14
    vector := field 15, errorCode := field 16, rip := field 17, cs := field 18
    rflags := field 19, rsp := field 20, ss := field 21 }

theorem load_of_stackHolds {memory : Memory} {address : ℕ} {ctx : InterruptCtx}
    (hholds : StackHolds memory address ctx.words) : load memory address = ctx := by
  have hfield : ∀ index (hindex : index < 22),
      readWord memory (address + 8 * index) = ctx.words[index] :=
    fun index hindex => hholds.readWord_eq index hindex
  apply InterruptCtx.ext <;> exact hfield _ (by decide)

end InterruptCtx

/-! ## The stubs -/

/-- The instructions of the stubs; those of `switch_context` are `stack` ones. -/
inductive StubInstr
  | stack (instr : Instr)
  | pushImm (value : Word)
  | add (reg : Reg) (value : Word)
  deriving DecidableEq, Repr

/-- `CF`, `PF`, `AF`, `ZF`, `SF` and `OF` after an addition. -/
def addFlags (left right : Word) : Word :=
  let sum := left + right
  let flag (position : ℕ) (set : Bool) : Word := bif set then 1 <<< position else 0
  flag 0 (2 ^ 64 ≤ left.toNat + right.toNat) |||
    flag 2 ((List.range 8).countP (fun bit => sum.getLsbD bit) % 2 = 0) |||
    flag 4 (16 ≤ left.toNat % 16 + right.toNat % 16) |||
    flag 6 (sum = 0) ||| flag 7 sum.msb |||
    flag 11 (left.msb = right.msb ∧ sum.msb ≠ left.msb)

def execStub (machine : Machine) : StubInstr → Machine
  | .stack instr => machine.exec instr
  | .pushImm value => machine.pushWord value
  | .add reg value =>
      { machine.set reg (machine.regs reg + value) with
        rflags := .ofPopped (machine.rflags.bits &&& ~~~0x8d5 |||
          addFlags (machine.regs reg) value) }

def runStub (machine : Machine) (code : List StubInstr) : Machine := code.foldl execStub machine

/-- The stubs made by `isr_err_stub`; all others are made by `isr_no_err_stub`. -/
def errStubs : List (Fin 256) := [8, 10, 11, 12, 13, 14, 17, 21, 29, 30]

def isrStub (vector : Fin 256) : List StubInstr :=
  if errStubs.contains vector then [.pushImm (BitVec.ofNat 64 vector)]
  else [.pushImm 0, .pushImm (BitVec.ofNat 64 vector)]

/-- `PUSH_REGS`. -/
def pushRegs : List Reg :=
  [.rax, .rbx, .rcx, .rdx, .rdi, .rsi, .rbp, .r8, .r9, .r10, .r11, .r12, .r13, .r14, .r15]

/-- `POP_REGS`. -/
def popRegs : List Reg :=
  [.r15, .r14, .r13, .r12, .r11, .r10, .r9, .r8, .rbp, .rsi, .rdi, .rdx, .rcx, .rbx, .rax]

/-- `interrupt_stub` up to the call. -/
def stubEntry : List StubInstr :=
  pushRegs.map (fun reg => .stack (.push reg)) ++ [.stack (.mov .rdi .rsp)]

/-- `interrupt_stub` between the call and `iretq`. -/
def stubExit : List StubInstr :=
  popRegs.map (fun reg => .stack (.pop reg)) ++ [.add .rsp 16]

/-- The addresses of `interrupt_dispatch` and of the instruction after its call. -/
structure StubSymbols where
  interruptDispatch : Word
  afterCall : Word

/-- Delivery to one of the stubs, up to the first instruction of `interrupt_dispatch`. -/
def enterStub (symbols : StubSymbols) (core : Core) (gate : Gate) (errorCode : Option Word)
    (stub : Fin 256) : Core :=
  let delivered := core.deliver gate errorCode
  let entered := runStub delivered.toMachine (isrStub stub ++ stubEntry)
  { delivered with
    toMachine := { entered.pushWord symbols.afterCall with rip := symbols.interruptDispatch } }

/-- Delivery to the stub of the vector. -/
def enterDispatch (symbols : StubSymbols) (core : Core) (gate : Gate)
    (interruption : Interruption) : Core :=
  enterStub symbols core gate interruption.errorCode interruption.vector

/-- From the return of `interrupt_dispatch` to the interrupted code. -/
def leaveDispatch (core : Core) : Core :=
  { core with toMachine := runStub core.toMachine stubExit }.iretq

/-- What the handlers are given. -/
def contextOf (core : Core) (interruption : Interruption) : InterruptCtx where
  r15 := core.regs .r15
  r14 := core.regs .r14
  r13 := core.regs .r13
  r12 := core.regs .r12
  r11 := core.regs .r11
  r10 := core.regs .r10
  r9 := core.regs .r9
  r8 := core.regs .r8
  rbp := core.regs .rbp
  rsi := core.regs .rsi
  rdi := core.regs .rdi
  rdx := core.regs .rdx
  rcx := core.regs .rcx
  rbx := core.regs .rbx
  rax := core.regs .rax
  vector := BitVec.ofNat 64 interruption.vector
  errorCode := interruption.errorCode.getD 0
  rip := core.rip
  cs := core.cs.setWidth 64
  rflags := core.rflags.bits
  rsp := core.regs .rsp
  ss := core.ss.setWidth 64

section Entry

variable (symbols : StubSymbols) {core : Core} (gate : Gate) (interruption : Interruption)

theorem words_contextOf (core : Core) :
    (contextOf core interruption).words = pushRegs.reverse.map core.regs ++
      (BitVec.ofNat 64 interruption.vector :: interruption.errorCode.getD 0 ::
        core.returnWords) := rfl

/-- The stubs push a zero exactly where the processor pushes no error code. -/
theorem contains_errStubs (vector : Fin 256) :
    errStubs.contains vector = pushesErrorCode vector := rfl

theorem runStub_append (machine : Machine) (code code' : List StubInstr) :
    runStub machine (code ++ code') = runStub (runStub machine code) code' :=
  List.foldl_append

theorem runStub_stack (machine : Machine) (code : List Instr) :
    runStub machine (code.map .stack) = machine.run code :=
  List.foldl_map

/-- After the stub of its vector the stack of every interruption has one shape. -/
theorem pushed_isrStub (hroom : 56 ≤ (core.regs .rsp).toNat / 16 * 16) :
    Pushed (core.atGate gate)
      (BitVec.ofNat 64 interruption.vector :: interruption.errorCode.getD 0 ::
        core.returnWords)
      (runStub (core.deliver gate interruption.errorCode).toMachine
        (isrStub interruption.vector)) := by
  have hrsp := core.toNat_atGate_rsp gate
  have hagree := interruption.errorCode_iff
  have hdelivered : Pushed (core.atGate gate)
      (interruption.errorCode.toList ++ core.returnWords)
      (core.deliver gate interruption.errorCode).toMachine := by
    apply pushed_pushWords
    rw [hrsp, List.length_append, core.length_returnWords]
    cases interruption.errorCode <;> simp <;> omega
  cases hcode : interruption.errorCode with
  | some code =>
      rw [hcode] at hagree hdelivered
      rw [isrStub, contains_errStubs, ← hagree]
      apply hdelivered.pushWord
      rw [hrsp, List.length_append, core.length_returnWords]
      simpa using hroom
  | none =>
      rw [hcode] at hagree hdelivered
      rw [isrStub, contains_errStubs, ← hagree]
      have hzero := hdelivered.pushWord 0 (by
        rw [hrsp, List.length_append, core.length_returnWords]
        simp
        omega)
      apply hzero.pushWord
      rw [hrsp, List.length_cons, List.length_append, core.length_returnWords]
      simpa using hroom

/-- The machine when `interrupt_dispatch` is called, below the words of the structure. -/
theorem pushed_stubEntry (hroom : 176 ≤ (core.regs .rsp).toNat / 16 * 16) :
    ∃ saved, Pushed (core.atGate gate) (contextOf core interruption).words saved ∧
      runStub (core.deliver gate interruption.errorCode).toMachine
        (isrStub interruption.vector ++ stubEntry) = saved.set .rdi (saved.regs .rsp) := by
  have hrsp := core.toNat_atGate_rsp gate
  have hstub := @pushed_isrStub core gate interruption (by omega)
  have hpushed := hstub.pushRegs (show .rsp ∉ pushRegs by decide) (by
    rw [hrsp]
    simp only [List.length_cons, core.length_returnWords]
    exact hroom)
  have hregs : pushRegs.reverse.map (core.atGate gate).regs =
      pushRegs.reverse.map core.regs := by
    apply List.map_congr_left
    intro reg hreg
    apply core.atGate_regs_of_ne gate
    rintro rfl
    revert hreg
    decide
  rw [hregs, ← words_contextOf] at hpushed
  refine ⟨_, hpushed, ?_⟩
  rw [runStub_append, stubEntry, runStub_append]
  have hmap : pushRegs.map (fun reg => StubInstr.stack (.push reg)) =
      (pushRegs.map Instr.push).map .stack := by
    rw [List.map_map]
    rfl
  rw [hmap, runStub_stack]
  rfl

/-- What `interrupt_dispatch` finds when it is called: the structure directly above the
return address, and everything from the interrupted stack pointer on as it was. -/
structure Entered (symbols : StubSymbols) (core : Core) (gate : Gate)
    (interruption : Interruption) (entered : Core) : Prop where
  regs : ∀ reg, reg ≠ .rsp → reg ≠ .rdi → entered.regs reg = core.regs reg
  rsp : (entered.regs .rsp).toNat + 8 = (entered.regs .rdi).toNat
  rdi : (entered.regs .rdi).toNat + 176 = (core.regs .rsp).toNat / 16 * 16
  returnAddress : readWord entered.memory (entered.regs .rsp).toNat = symbols.afterCall
  context : StackHolds entered.memory (entered.regs .rdi).toNat
    (contextOf core interruption).words
  outside : ∀ target, target < (entered.regs .rsp).toNat ∨ (core.regs .rsp).toNat ≤ target →
    entered.memory target = core.memory target
  rflags : entered.rflags = core.rflags.atGate
  rip : entered.rip = symbols.interruptDispatch
  cs : entered.cs = gate.selector
  ss : entered.ss = core.ss

theorem entered_enterDispatch (hroom : 192 ≤ (core.regs .rsp).toNat) :
    Entered symbols core gate interruption
      (enterDispatch symbols core gate interruption) := by
  obtain ⟨saved, hpushed, hrun⟩ := @pushed_stubEntry core gate interruption (by omega)
  have hgate := core.toNat_atGate_rsp gate
  have hlength : (contextOf core interruption).words.length = 22 := rfl
  have hframe : (saved.regs .rsp).toNat + 176 = (core.regs .rsp).toNat / 16 * 16 := by
    rw [← hgate, ← hpushed.rsp, hlength]
  -- the call pushes its return address below the structure
  have hcalled := (Pushed.refl (saved.set .rdi (saved.regs .rsp))).pushWord symbols.afterCall
    (by rw [Machine.set_regs_of_ne _ _ _ (by decide), List.length_nil]; omega)
  rw [enterDispatch, enterStub, hrun]
  generalize (saved.set .rdi (saved.regs .rsp)).pushWord symbols.afterCall = called at hcalled
  have hrdi : called.regs .rdi = saved.regs .rsp := by
    rw [hcalled.regs .rdi (by decide), Machine.set_regs_self]
  have hrsp := hcalled.rsp
  have houtside := hcalled.outside
  rw [Machine.set_regs_of_ne _ _ _ (by decide), List.length_singleton] at hrsp
  rw [Machine.set_regs_of_ne _ _ _ (by decide), Machine.set_memory] at houtside
  constructor
  · intro reg hnersp hnerdi
    change called.regs reg = _
    rw [hcalled.regs reg hnersp, Machine.set_regs_of_ne _ _ _ hnerdi, hpushed.regs reg hnersp,
      core.atGate_regs_of_ne gate hnersp]
  · change _ = (called.regs .rdi).toNat
    rw [hrdi]
    exact hrsp
  · change (called.regs .rdi).toNat + 176 = _
    rw [hrdi, hframe]
  · exact hcalled.holds.1
  · change StackHolds called.memory (called.regs .rdi).toNat _
    rw [hrdi]
    apply hpushed.holds.congr
    intro target hlower _
    exact houtside target (Or.inr hlower)
  · intro target htarget
    change target < (called.regs .rsp).toNat ∨ _ at htarget
    change called.memory target = _
    rw [houtside target (by omega), hpushed.outside target (by omega), core.atGate_memory]
  · exact hcalled.rflags.trans hpushed.rflags
  · rfl
  · rfl
  · rfl

end Entry

/-! ## The way back -/

theorem mem_popRegs {reg : Reg} (hreg : reg ≠ .rsp) : reg ∈ popRegs := by
  cases reg <;> first | decide | exact absurd rfl hreg

/-- The stub pops what it pushed: whatever ran in between, the interrupted processor
comes back if the structure is still on top of the stack. -/
theorem resumes_leaveDispatch {core returned : Core} {interruption : Interruption}
    (hholds : StackHolds returned.memory (returned.regs .rsp).toNat
      (contextOf core interruption).words)
    (hroom : (returned.regs .rsp).toNat + 176 < 2 ^ 64) :
    core.Resumes (leaveDispatch returned) ∧
      (leaveDispatch returned).memory = returned.memory := by
  have hlength : popRegs.length = 15 := rfl
  have hwords : (contextOf core interruption).words = popRegs.map core.regs ++
      ([BitVec.ofNat 64 interruption.vector, interruption.errorCode.getD 0] ++
        core.returnWords) := rfl
  rw [hwords, stackHolds_append, stackHolds_append, List.length_map, hlength] at hholds
  obtain ⟨hregs, -, hreturn⟩ := hholds
  have hpops := Machine.popped_run (show .rsp ∉ popRegs by decide) hregs
    (by rw [hlength]; omega)
  have hmap : popRegs.map (fun reg => StubInstr.stack (.pop reg)) =
      (popRegs.map Instr.pop).map .stack := by
    rw [List.map_map]
    rfl
  have hexit : runStub returned.toMachine stubExit =
      execStub (returned.toMachine.run (popRegs.map .pop)) (.add .rsp 16) := by
    rw [stubExit, runStub_append, hmap, runStub_stack]
    rfl
  generalize returned.toMachine.run (popRegs.map .pop) = popped at hpops hexit
  have hrsp : ((execStub popped (.add .rsp 16)).regs .rsp).toNat =
      (returned.regs .rsp).toNat + 136 := by
    have hpopped := hpops.rsp
    have hsum : (execStub popped (.add .rsp 16)).regs .rsp = popped.regs .rsp + 16 :=
      popped.set_regs_self .rsp _
    rw [hlength] at hpopped
    rw [hsum, BitVec.toNat_add, hpopped]
    exact Nat.mod_eq_of_lt (by change _ + 16 < _; omega)
  have hother : ∀ reg, reg ≠ .rsp →
      (execStub popped (.add .rsp 16)).regs reg = core.regs reg := by
    intro reg hreg
    rw [← hpops.popped reg (mem_popRegs hreg)]
    exact popped.set_regs_of_ne .rsp _ hreg
  have hmemory : (execStub popped (.add .rsp 16)).memory = returned.memory := hpops.memory
  rw [leaveDispatch, hexit, ← hmemory]
  apply Core.resumes_iretq
  · change StackHolds (execStub popped (.add .rsp 16)).memory
      ((execStub popped (.add .rsp 16)).regs .rsp).toNat _
    rw [hmemory, hrsp]
    exact hreturn
  · change ((execStub popped (.add .rsp 16)).regs .rsp).toNat + 40 < _
    omega
  · exact hother

/-- Every interruption, with or without an error code, gives `interrupt_dispatch` the
interrupted processor as a structure, on an aligned stack and with interrupts off, and
leaves the stack from the interrupted stack pointer on alone.  However the handler has
used the processor and the rest of memory, the interrupted code goes on as it was once
the handler has returned and the structure is as it was. -/
theorem interrupt_transparent (symbols : StubSymbols) (core : Core) (gate : Gate)
    (interruption : Interruption) (hroom : 192 ≤ (core.regs .rsp).toNat) :
    ∃ entered, enterDispatch symbols core gate interruption = entered ∧
      InterruptCtx.load entered.memory (entered.regs .rdi).toNat =
        contextOf core interruption ∧
      (entered.regs .rsp).toNat % 16 = 8 ∧ entered.rflags.interrupts = false ∧
      (∀ target, (core.regs .rsp).toNat ≤ target →
        entered.memory target = core.memory target) ∧
      ∀ returned : Core, returned.regs .rsp = entered.regs .rdi →
        (∀ target, (entered.regs .rdi).toNat ≤ target →
          target < (entered.regs .rdi).toNat + 176 →
            returned.memory target = entered.memory target) →
        core.Resumes (leaveDispatch returned) ∧
          (leaveDispatch returned).memory = returned.memory := by
  have hentered := entered_enterDispatch symbols gate interruption hroom
  have hrsp := hentered.rsp
  have hrdi := hentered.rdi
  have hlt := (core.regs .rsp).isLt
  refine ⟨_, rfl, InterruptCtx.load_of_stackHolds hentered.context, by omega, ?_, ?_, ?_⟩
  · rw [hentered.rflags, Rflags.interrupts_atGate]
  · exact fun target htarget => hentered.outside target (Or.inr htarget)
  · intro returned hreturned hkept
    apply resumes_leaveDispatch
    · rw [hreturned]
      exact hentered.context.congr hkept
    · rw [hreturned]
      omega

/-- A thread in the middle of its stack, with interrupts on. -/
def sampleCore : Core where
  regs reg := if reg = .rsp then 0x3008 else if reg = .rax then 7 else 0
  rflags := .ofPopped 0x202
  rip := 0x100
  memory _ := 0
  cs := 0x08
  ss := 0x10

/-- A page fault whose handler returns at once, with the registers as they were at its
call. -/
theorem interrupt_transparent_page_fault :
    ∃ entered, enterDispatch ⟨0x5000, 0x6000⟩ sampleCore ⟨0x7000, 0x08⟩
        ⟨14, some 2, by decide⟩ = entered ∧
      (InterruptCtx.load entered.memory (entered.regs .rdi).toNat).rax = 7 ∧
      (InterruptCtx.load entered.memory (entered.regs .rdi).toNat).errorCode = 2 ∧
      sampleCore.Resumes (leaveDispatch
        { entered with toMachine := entered.set .rsp (entered.regs .rdi) }) := by
  obtain ⟨entered, henter, hcontext, -, -, -, hreturns⟩ := interrupt_transparent
    ⟨0x5000, 0x6000⟩ sampleCore ⟨0x7000, 0x08⟩ ⟨14, some 2, by decide⟩ (by decide)
  have hresumes := hreturns { entered with toMachine := entered.set .rsp (entered.regs .rdi) }
    (entered.set_regs_self .rsp _) (fun _ _ _ => rfl)
  refine ⟨entered, henter, ?_, ?_, hresumes.1⟩
  · rw [hcontext]
    decide
  · rw [hcontext]
    rfl

end Flurry.Interrupts
