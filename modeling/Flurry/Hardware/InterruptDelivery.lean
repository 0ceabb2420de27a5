import Flurry.Core.BitField
import Flurry.Hardware.Processor

/-!
# Delivery of interrupts and the return from them

An interrupt gate of the same privilege level rounds the stack pointer down,
pushes the interrupted processor and goes on at the gate's offset with
interrupts off.  `iretq` pops what was pushed.  In between any code may run: as
long as the five words are still there, the interrupted processor comes back.
-/

namespace Flurry.Processor

open ByteMemory

/-- The machine with its code and stack segment registers. -/
structure Core extends Machine where
  cs : BitVec 16
  ss : BitVec 16

/-- Where a gate leads. -/
structure Gate where
  offset : Word
  selector : BitVec 16
  deriving DecidableEq, Repr

/-- The exceptions with an error code: `#DF`, `#TS`, `#NP`, `#SS`, `#GP`, `#PF`, `#AC`,
`#CP`, `#VC` and `#SX`. -/
def pushesErrorCode (vector : Fin 256) : Bool :=
  [8, 10, 11, 12, 13, 14, 17, 21, 29, 30].contains vector

/-- An interrupt or exception, with its error code if it has one. -/
structure Interruption where
  vector : Fin 256
  errorCode : Option Word
  errorCode_iff : errorCode.isSome = pushesErrorCode vector

/-- `TF`, `IF` and `NT`; `RF` and `VM` are clear already. -/
def gateMask : Word := 0x4300

/-- The flags after delivery through an interrupt gate. -/
def Rflags.atGate (rflags : Rflags) : Rflags where
  bits := rflags.bits &&& ~~~gateMask
  fixed := by
    have hreserved : (2 : Word) &&& ~~~gateMask = 2 := by decide
    rw [BitVec.and_assoc, BitVec.and_comm (~~~gateMask), ← BitVec.and_assoc, rflags.fixed,
      hreserved]

/-- The interrupt flag. -/
def Rflags.interrupts (rflags : Rflags) : Bool := rflags.bits.getLsbD 9

theorem Rflags.interrupts_atGate (rflags : Rflags) : rflags.atGate.interrupts = false := by
  simp [Rflags.interrupts, Rflags.atGate, gateMask]

/-! ## Pushing several words -/

/-- The first word of the list is pushed last. -/
def Machine.pushWords (machine : Machine) (words : List Word) : Machine :=
  words.foldr (fun word machine => machine.pushWord word) machine

theorem pushed_pushWords {machine : Machine} {words : List Word}
    (hroom : 8 * words.length ≤ (machine.regs .rsp).toNat) :
    Pushed machine words (machine.pushWords words) := by
  induction words with
  | nil => exact Pushed.refl machine
  | cons word words ih =>
      rw [List.length_cons] at hroom
      exact (ih (by omega)).pushWord word hroom

theorem StackHolds.readWord_eq {memory : Memory} {address : ℕ} {words : List Word}
    (hholds : StackHolds memory address words) (index : ℕ) (hindex : index < words.length) :
    readWord memory (address + 8 * index) = words[index] := by
  induction words generalizing address index with
  | nil => exact absurd hindex (by simp)
  | cons word words ih =>
      cases index with
      | zero => exact hholds.1
      | succ index =>
          rw [show address + 8 * (index + 1) = address + 8 + 8 * index by omega]
          exact ih hholds.2 index (Nat.lt_of_succ_lt_succ hindex)

/-! ## Delivery -/

/-- Bits 4 to 63. -/
def stackAlignment : Word := 0xfffffffffffffff0

theorem toNat_and_stackAlignment (word : Word) :
    (word &&& stackAlignment).toNat = word.toNat / 16 * 16 := by
  have hmask : stackAlignment.toNat = BitField.fieldMask 4 60 := by decide
  rw [BitVec.toNat_and, hmask]
  exact BitField.and_fieldMask_eq_div word.isLt

namespace Core

/-- What the processor pushes, from the lowest address on.  In the flags that it pushes for
a fault the processor also sets `RF`, which keeps debug breakpoints from stopping at the
instruction a second time.  There are none here, `Rflags` has `RF` clear, and the pushed
flags are the interrupted ones for faults too. -/
def returnWords (core : Core) : List Word :=
  [core.rip, core.cs.setWidth 64, core.rflags.bits, core.regs .rsp, core.ss.setWidth 64]

/-- The machine at the gate, before anything is pushed. -/
def atGate (core : Core) (gate : Gate) : Machine :=
  { core.toMachine.set .rsp (core.regs .rsp &&& stackAlignment) with
    rflags := core.rflags.atGate
    rip := gate.offset }

/-- Delivery through an interrupt gate without a change of privilege or stack, with the
error code that some exceptions push. -/
def deliver (core : Core) (gate : Gate) (errorCode : Option Word) : Core where
  toMachine := (core.atGate gate).pushWords (errorCode.toList ++ core.returnWords)
  cs := gate.selector
  ss := core.ss

/-- The word `offset` bytes above the top of the stack. -/
def stackWord (core : Core) (offset : Word) : Word :=
  readWord core.memory (core.regs .rsp + offset).toNat

def iretq (core : Core) : Core where
  toMachine :=
    { core.toMachine.set .rsp (core.stackWord 24) with
      rflags := .ofPopped (core.stackWord 16)
      rip := core.stackWord 0 }
  cs := (core.stackWord 8).setWidth 16
  ss := (core.stackWord 32).setWidth 16

section Fields

variable (core : Core) (gate : Gate)

theorem atGate_rsp : (core.atGate gate).regs .rsp = core.regs .rsp &&& stackAlignment :=
  core.toMachine.set_regs_self .rsp _

theorem atGate_regs_of_ne {reg : Reg} (hreg : reg ≠ .rsp) :
    (core.atGate gate).regs reg = core.regs reg :=
  core.toMachine.set_regs_of_ne .rsp _ hreg

theorem atGate_memory : (core.atGate gate).memory = core.memory := rfl

theorem toNat_atGate_rsp :
    ((core.atGate gate).regs .rsp).toNat = (core.regs .rsp).toNat / 16 * 16 := by
  rw [atGate_rsp, toNat_and_stackAlignment]

theorem length_returnWords : core.returnWords.length = 5 := rfl

end Fields

/-- The interrupted processor is all there again. -/
structure Resumes (core after : Core) : Prop where
  regs : ∀ reg, after.regs reg = core.regs reg
  rflags : after.rflags = core.rflags
  rip : after.rip = core.rip
  cs : after.cs = core.cs
  ss : after.ss = core.ss

/-- `iretq` on a stack with the words of an interrupted processor restores everything
but the general registers, which it leaves alone. -/
theorem resumes_iretq {core returned : Core}
    (hholds : StackHolds returned.memory (returned.regs .rsp).toNat core.returnWords)
    (hroom : (returned.regs .rsp).toNat + 40 < 2 ^ 64)
    (hregs : ∀ reg, reg ≠ .rsp → returned.regs reg = core.regs reg) :
    core.Resumes returned.iretq ∧ returned.iretq.memory = returned.memory := by
  have hword : ∀ index (hindex : index < 5),
      returned.stackWord (BitVec.ofNat 64 (8 * index)) = core.returnWords[index] := by
    intro index hindex
    have hoffset : (returned.regs .rsp + BitVec.ofNat 64 (8 * index)).toNat =
        (returned.regs .rsp).toNat + 8 * index := by
      rw [BitVec.toNat_add, BitVec.toNat_ofNat]
      omega
    rw [stackWord, hoffset]
    exact hholds.readWord_eq index hindex
  have hrip : returned.stackWord 0 = core.rip := hword 0 (by decide)
  have hcs : returned.stackWord 8 = core.cs.setWidth 64 := hword 1 (by decide)
  have hrflags : returned.stackWord 16 = core.rflags.bits := hword 2 (by decide)
  have hrsp : returned.stackWord 24 = core.regs .rsp := hword 3 (by decide)
  have hss : returned.stackWord 32 = core.ss.setWidth 64 := hword 4 (by decide)
  refine ⟨⟨?_, ?_, hrip, ?_, ?_⟩, rfl⟩
  · intro reg
    by_cases hreg : reg = .rsp
    · subst hreg
      rw [← hrsp]
      exact returned.toMachine.set_regs_self .rsp _
    · rw [← hregs reg hreg]
      exact returned.toMachine.set_regs_of_ne .rsp _ hreg
  · change Rflags.ofPopped (returned.stackWord 16) = _
    rw [hrflags, Rflags.ofPopped_bits]
  · change (returned.stackWord 8).setWidth 16 = _
    rw [hcs]
    simp
  · change (returned.stackWord 32).setWidth 16 = _
    rw [hss]
    simp

end Core

end Flurry.Processor
