import Flurry.Core.ByteMemory

/-!
# Stack instructions of the processor

Registers, flags and the instructions that save and restore them on a stack.
`StackHolds` describes the words from an address upwards; the rules for runs of
`push` and `pop` say how the words on top of the stack change.
-/

namespace Flurry.Processor

open ByteMemory

abbrev Word := BitVec 64

inductive Reg
  | rax | rbx | rcx | rdx | rsi | rdi | rbp | rsp
  | r8 | r9 | r10 | r11 | r12 | r13 | r14 | r15
  deriving DecidableEq, Repr

/-- The flags that `popfq` sets at the highest privilege: `CF`, `PF`, `AF`, `ZF`, `SF`,
`TF`, `IF`, `DF`, `OF`, `IOPL`, `NT`, `AC` and `ID`. -/
def popfqMask : Word := 0x247fd5

/-- Of the other flags only the reserved bit 1 is set: `RF` is clear once an
instruction is complete, and virtual-8086 mode and its interrupts are not used. -/
@[ext]
structure Rflags where
  bits : Word
  fixed : bits &&& ~~~popfqMask = 2

/-- The flags after `popfq` has popped `value`. -/
def Rflags.ofPopped (value : Word) : Rflags where
  bits := value &&& popfqMask ||| 2
  fixed := by
    have hdisjoint : popfqMask &&& ~~~popfqMask = 0 := by decide
    have hreserved : (2 : Word) &&& ~~~popfqMask = 2 := by decide
    have hor : ∀ left right mask : Word,
        (left ||| right) &&& mask = left &&& mask ||| right &&& mask := by
      intro left right mask
      ext bit
      simp [Bool.and_or_distrib_right]
    rw [hor, BitVec.and_assoc, hdisjoint, hreserved]
    simp

theorem Rflags.ofPopped_bits (rflags : Rflags) : ofPopped rflags.bits = rflags := by
  apply Rflags.ext
  calc rflags.bits &&& popfqMask ||| 2
      = rflags.bits &&& popfqMask ||| rflags.bits &&& ~~~popfqMask := by rw [rflags.fixed]
    _ = rflags.bits := by
        ext bit
        cases hset : popfqMask.getLsbD bit <;> simp_all

/-- What a thread sees of the processor. -/
structure Cpu where
  regs : Reg → Word
  rflags : Rflags
  rip : Word

structure Machine extends Cpu where
  memory : Memory

/-! ## Words in memory -/

def readWord (memory : Memory) (address : ℕ) : Word :=
  BitVec.ofNat 64 (load64 memory address)

def writeWord (memory : Memory) (address : ℕ) (value : Word) : Memory :=
  store64 memory address value.toNat

section Words

variable {memory memory' : Memory} {address target : ℕ} {value : Word}

theorem toNat_readWord : (readWord memory address).toNat = load64 memory address :=
  Nat.mod_eq_of_lt (load64_lt memory address)

@[simp]
theorem readWord_writeWord : readWord (writeWord memory address value) address = value := by
  rw [readWord, writeWord, load64_store64_same value.isLt, BitVec.ofNat_toNat,
    BitVec.setWidth_eq]

theorem readWord_congr
    (hagree : ∀ target, address ≤ target → target < address + 8 →
      memory' target = memory target) :
    readWord memory' address = readWord memory address := by
  rw [readWord, readWord, load64_congr hagree]

theorem writeWord_of_not_mem (houtside : target < address ∨ address + 8 ≤ target) :
    writeWord memory address value target = memory target :=
  store64_of_not_mem houtside

end Words

/-- The words from `address` upwards. -/
def StackHolds (memory : Memory) : ℕ → List Word → Prop
  | _, [] => True
  | address, word :: words =>
      readWord memory address = word ∧ StackHolds memory (address + 8) words

section StackHolds

variable {memory memory' : Memory} {address : ℕ} {words words' : List Word}

theorem StackHolds.congr (hholds : StackHolds memory address words)
    (hagree : ∀ target, address ≤ target → target < address + 8 * words.length →
      memory' target = memory target) : StackHolds memory' address words := by
  induction words generalizing address with
  | nil => trivial
  | cons word words ih =>
      rw [List.length_cons] at hagree
      refine ⟨?_, ih hholds.2 ?_⟩
      · rw [readWord_congr fun target hlower hupper => hagree target hlower (by omega)]
        exact hholds.1
      · intro target hlower hupper
        exact hagree target (by omega) (by omega)

theorem stackHolds_append :
    StackHolds memory address (words ++ words') ↔
      StackHolds memory address words ∧
        StackHolds memory (address + 8 * words.length) words' := by
  induction words generalizing address with
  | nil => simp [StackHolds]
  | cons word words ih =>
      rw [List.cons_append, StackHolds, StackHolds, ih, List.length_cons, and_assoc,
        show address + 8 + 8 * words.length = address + 8 * (words.length + 1) by omega]

end StackHolds

/-! ## Instructions -/

/-- `mov [base + offset], source` is `store`, `mov dest, [base + offset]` is `load`. -/
inductive Instr
  | pushfq
  | popfq
  | push (reg : Reg)
  | pop (reg : Reg)
  | store (base : Reg) (offset : Word) (source : Reg)
  | load (dest base : Reg) (offset : Word)
  | mov (dest source : Reg)
  | ret
  deriving DecidableEq, Repr

namespace Machine

def set (machine : Machine) (reg : Reg) (value : Word) : Machine :=
  { machine with regs := Function.update machine.regs reg value }

def pushWord (machine : Machine) (value : Word) : Machine :=
  let rsp := machine.regs .rsp - 8
  { machine.set .rsp rsp with memory := writeWord machine.memory rsp.toNat value }

/-- The word on top of the stack. -/
def top (machine : Machine) : Word :=
  readWord machine.memory (machine.regs .rsp).toNat

/-- The word on top of the stack is removed. -/
def drop (machine : Machine) : Machine := machine.set .rsp (machine.regs .rsp + 8)

def exec (machine : Machine) : Instr → Machine
  | .pushfq => machine.pushWord machine.rflags.bits
  | .popfq => { machine.drop with rflags := .ofPopped machine.top }
  | .push reg => machine.pushWord (machine.regs reg)
  | .pop reg => machine.drop.set reg machine.top
  | .store base offset source =>
      { machine with
        memory := writeWord machine.memory (machine.regs base + offset).toNat
          (machine.regs source) }
  | .load dest base offset =>
      machine.set dest (readWord machine.memory (machine.regs base + offset).toNat)
  | .mov dest source => machine.set dest (machine.regs source)
  | .ret => { machine.drop with rip := machine.top }

def run (machine : Machine) (code : List Instr) : Machine := code.foldl exec machine

section Fields

variable (machine : Machine) (reg : Reg) (value : Word)

@[simp]
theorem set_regs_self : (machine.set reg value).regs reg = value :=
  @Function.update_self Reg (fun _ => Word) _ reg value machine.regs

@[simp]
theorem set_regs_of_ne {other : Reg} (hne : other ≠ reg) :
    (machine.set reg value).regs other = machine.regs other :=
  @Function.update_of_ne Reg (fun _ => Word) _ other reg hne value machine.regs

@[simp]
theorem set_memory : (machine.set reg value).memory = machine.memory := rfl

@[simp]
theorem set_rflags : (machine.set reg value).rflags = machine.rflags := rfl

@[simp]
theorem set_rip : (machine.set reg value).rip = machine.rip := rfl

theorem pushWord_rsp : (machine.pushWord value).regs .rsp = machine.regs .rsp - 8 :=
  set_regs_self ..

theorem drop_rsp : machine.drop.regs .rsp = machine.regs .rsp + 8 :=
  set_regs_self ..

theorem drop_regs_of_ne {other : Reg} (hne : other ≠ .rsp) :
    machine.drop.regs other = machine.regs other :=
  set_regs_of_ne machine .rsp _ hne

theorem exec_ret_regs : (machine.exec .ret).regs = machine.drop.regs := rfl

theorem exec_ret_rip : (machine.exec .ret).rip = machine.top := rfl

theorem exec_ret_memory : (machine.exec .ret).memory = machine.memory := rfl

theorem exec_ret_rflags : (machine.exec .ret).rflags = machine.rflags := rfl

end Fields

theorem run_cons (machine : Machine) (instr : Instr) (code : List Instr) :
    machine.run (instr :: code) = (machine.exec instr).run code := rfl

theorem run_append (machine : Machine) (code code' : List Instr) :
    machine.run (code ++ code') = (machine.run code).run code' :=
  List.foldl_append

end Machine

/-! ## Pushing -/

/-- Some words have been pushed, the last one first in the list, and nothing else has
changed. -/
structure Pushed (machine : Machine) (words : List Word) (machine' : Machine) : Prop where
  regs : ∀ reg, reg ≠ .rsp → machine'.regs reg = machine.regs reg
  rflags : machine'.rflags = machine.rflags
  rip : machine'.rip = machine.rip
  rsp : (machine'.regs .rsp).toNat + 8 * words.length = (machine.regs .rsp).toNat
  holds : StackHolds machine'.memory (machine'.regs .rsp).toNat words
  outside : ∀ target, target < (machine'.regs .rsp).toNat ∨
    (machine.regs .rsp).toNat ≤ target → machine'.memory target = machine.memory target

section Pushed

variable {machine machine' : Machine} {words : List Word}

theorem Pushed.refl (machine : Machine) : Pushed machine [] machine where
  regs _ _ := rfl
  rflags := rfl
  rip := rfl
  rsp := rfl
  holds := trivial
  outside _ _ := rfl

theorem Pushed.pushWord (hpushed : Pushed machine words machine') (value : Word)
    (hroom : 8 * (words.length + 1) ≤ (machine.regs .rsp).toNat) :
    Pushed machine (value :: words) (machine'.pushWord value) := by
  have hlength := hpushed.rsp
  have hrsp : (machine'.regs .rsp - 8).toNat = (machine'.regs .rsp).toNat - 8 := by
    apply BitVec.toNat_sub_of_le
    change 8 ≤ (machine'.regs .rsp).toNat
    omega
  have hmemory : (machine'.pushWord value).memory =
      writeWord machine'.memory ((machine'.regs .rsp).toNat - 8) value := by
    rw [← hrsp]
    rfl
  constructor
  · intro reg hreg
    rw [← hpushed.regs reg hreg]
    exact machine'.set_regs_of_ne _ _ hreg
  · exact hpushed.rflags
  · exact hpushed.rip
  · rw [Machine.pushWord_rsp, hrsp, List.length_cons]
    omega
  · rw [Machine.pushWord_rsp, hrsp, hmemory]
    refine ⟨readWord_writeWord, ?_⟩
    rw [Nat.sub_add_cancel (by omega)]
    apply hpushed.holds.congr
    intro target hlower hupper
    exact writeWord_of_not_mem (by omega)
  · intro target htarget
    rw [Machine.pushWord_rsp, hrsp] at htarget
    rw [hmemory, writeWord_of_not_mem (by omega)]
    exact hpushed.outside target (by omega)

/-- Pushing registers leaves them on the stack, the last one on top. -/
theorem Pushed.pushRegs (hpushed : Pushed machine words machine') {regs : List Reg}
    (hrsp : .rsp ∉ regs)
    (hroom : 8 * (words.length + regs.length) ≤ (machine.regs .rsp).toNat) :
    Pushed machine (regs.reverse.map machine.regs ++ words)
      (machine'.run (regs.map .push)) := by
  induction regs generalizing words machine' with
  | nil => exact hpushed
  | cons reg regs ih =>
      rw [List.mem_cons, not_or] at hrsp
      rw [List.length_cons] at hroom
      have hstep : Pushed machine (machine.regs reg :: words) (machine'.exec (.push reg)) := by
        rw [Machine.exec, hpushed.regs reg (Ne.symm hrsp.1)]
        exact hpushed.pushWord _ (by omega)
      have hrest := ih hstep hrsp.2 (by rw [List.length_cons]; omega)
      rw [List.reverse_cons, List.map_append, List.append_assoc]
      exact hrest

end Pushed

/-! ## Popping -/

/-- Some registers have been popped with the given values. -/
structure Popped (machine : Machine) (regs : List Reg) (values : Reg → Word)
    (machine' : Machine) : Prop where
  popped : ∀ reg ∈ regs, machine'.regs reg = values reg
  others : ∀ reg, reg ∉ regs → reg ≠ .rsp → machine'.regs reg = machine.regs reg
  rsp : (machine'.regs .rsp).toNat = (machine.regs .rsp).toNat + 8 * regs.length
  rflags : machine'.rflags = machine.rflags
  rip : machine'.rip = machine.rip
  memory : machine'.memory = machine.memory

section Popping

variable {machine : Machine}

theorem Machine.toNat_drop_rsp (hroom : (machine.regs .rsp).toNat + 8 < 2 ^ 64) :
    (machine.drop.regs .rsp).toNat = (machine.regs .rsp).toNat + 8 := by
  rw [Machine.drop_rsp, BitVec.toNat_add]
  exact Nat.mod_eq_of_lt hroom

/-- Popping registers off a stack that holds their values. -/
theorem Machine.popped_run {values : Reg → Word} {regs : List Reg} (hrsp : .rsp ∉ regs)
    (hholds : StackHolds machine.memory (machine.regs .rsp).toNat (regs.map values))
    (hroom : (machine.regs .rsp).toNat + 8 * regs.length < 2 ^ 64) :
    Popped machine regs values (machine.run (regs.map .pop)) := by
  induction regs generalizing machine with
  | nil => exact ⟨by simp, fun _ _ _ => rfl, rfl, rfl, rfl, rfl⟩
  | cons reg regs ih =>
      rw [List.mem_cons, not_or] at hrsp
      rw [List.length_cons] at hroom
      obtain ⟨hvalue, hrest⟩ := hholds
      have hnext : machine.exec (.pop reg) = machine.drop.set reg (values reg) := by
        rw [← hvalue]
        rfl
      have hnextRsp : ((machine.exec (.pop reg)).regs .rsp).toNat =
          (machine.regs .rsp).toNat + 8 := by
        rw [hnext, set_regs_of_ne _ _ _ hrsp.1, toNat_drop_rsp (by omega)]
      have htail : Popped (machine.exec (.pop reg)) regs values
          ((machine.exec (.pop reg)).run (regs.map .pop)) := by
        apply ih hrsp.2
        · rw [hnextRsp]
          exact hrest
        · omega
      have hother : ∀ other, other ∉ regs → other ≠ .rsp →
          (machine.run ((reg :: regs).map .pop)).regs other =
            (machine.drop.set reg (values reg)).regs other := by
        intro other hmem hne
        rw [← hnext]
        exact htail.others other hmem hne
      constructor
      · intro other hmem
        by_cases hlater : other ∈ regs
        · exact htail.popped other hlater
        · obtain rfl : other = reg := (List.mem_cons.mp hmem).resolve_right hlater
          rw [hother other hlater (Ne.symm hrsp.1), set_regs_self]
      · intro other hmem hne
        rw [List.mem_cons, not_or] at hmem
        rw [hother other hmem.2 hne, set_regs_of_ne _ _ _ hmem.1]
        exact set_regs_of_ne _ _ _ hne
      · calc ((machine.run ((reg :: regs).map .pop)).regs .rsp).toNat
            = ((machine.exec (.pop reg)).regs .rsp).toNat + 8 * regs.length := htail.rsp
          _ = (machine.regs .rsp).toNat + 8 * (reg :: regs).length := by
              rw [hnextRsp, List.length_cons]
              omega
      · exact htail.rflags
      · exact htail.rip
      · exact htail.memory

end Popping

end Flurry.Processor
