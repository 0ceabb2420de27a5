import Flurry.Hardware.IoApic
import Flurry.Interrupts.Dispatch

/-!
# From a device to its handler

A device drives a line of the I/O APIC.  The line's redirection entry says which change
of the line counts and names a vector and a local APIC, the local APIC interrupts its
processor, and the tables of `idt.c` and `interrupts.c` lead to a handler.  The entries
are written by `ioapic_unmask_isa_irq` and the handlers by `interrupts_set_handler`, in
any order.
-/

namespace Flurry.IrqRouting

open Madt IoApic Processor Interrupts

/-! ## The line of a device -/

/-- The entry of a line, as the I/O APIC reads it from its two registers. -/
def redirEntry (registers : Registers) (ioapic : MadtIoApic) (line : ℕ) : BitVec 64 :=
  registers ioapic.ioapicAddr (BitVec.ofNat 8 (0x10 + 2 * line + 1)) ++
    registers ioapic.ioapicAddr (BitVec.ofNat 8 (0x10 + 2 * line))

/-- Bit 16 keeps the line from interrupting. -/
def Masked (entry : BitVec 64) : Prop := entry.getLsbD 16 = true

instance (entry : BitVec 64) : Decidable (Masked entry) :=
  inferInstanceAs (Decidable (_ = _))

/-- The level of a line before and after, `true` for high. -/
structure LineChange where
  before : Bool
  after : Bool
  deriving DecidableEq, Repr

def rising : LineChange := ⟨false, true⟩

/-- Bit 13 makes low the active level. -/
def Asserted (entry : BitVec 64) (level : Bool) : Prop := level ≠ entry.getLsbD 13

instance (entry : BitVec 64) (level : Bool) : Decidable (Asserted entry level) :=
  inferInstanceAs (Decidable (_ ≠ _))

/-- An edge-triggered line counts when it becomes active, and with bit 15 a line counts as
long as it is active. -/
def Triggers (entry : BitVec 64) (change : LineChange) : Prop :=
  Asserted entry change.after ∧
    (entry.getLsbD 15 = true ∨ ¬Asserted entry change.before)

instance (entry : BitVec 64) (change : LineChange) : Decidable (Triggers entry change) :=
  inferInstanceAs (Decidable (_ ∧ _))

/-- What an I/O APIC sends to the local APICs. -/
structure ApicMessage where
  vector : BitVec 8
  deliveryMode : BitVec 3
  logical : Bool
  destination : BitVec 8
  deriving DecidableEq, Repr

def signal (entry : BitVec 64) (change : LineChange) : Option ApicMessage :=
  if Masked entry then none
  else if Triggers entry change then
    some
      { vector := entry.extractLsb' 0 8
        deliveryMode := entry.extractLsb' 8 3
        logical := entry.getLsbD 11
        destination := entry.extractLsb' 56 8 }
  else none

/-- A message with a fixed vector for the local APIC itself.  The first 16 vectors are
refused. -/
def ApicMessage.Accepted (lapicId : BitVec 8) (message : ApicMessage) : Prop :=
  message.deliveryMode = 0 ∧ message.logical = false ∧ message.destination = lapicId ∧
    16 ≤ message.vector.toNat

instance (lapicId : BitVec 8) (message : ApicMessage) :
    Decidable (message.Accepted lapicId) :=
  inferInstanceAs (Decidable (_ ∧ _))

/-- An interrupt from outside has no error code, so the vectors of the exceptions that
have one do not count. -/
def external (vector : Fin 256) : Option Interruption :=
  if hcode : pushesErrorCode vector = false then some ⟨vector, none, hcode.symm⟩ else none

/-! ## The calls of drivers -/

structure IrqState where
  registers : Registers
  handlers : HandlerTable

inductive IrqCall where
  | unmask (isaIrq : BitVec 8)
  | setHandler (vec : Fin 256) (handler : IntHandler)
  deriving DecidableEq, Repr

def IrqCall.run (lists : MadtLists) (ioapic : MadtIoApic) (state : IrqState) :
    IrqCall → Option IrqState
  | unmask isaIrq => do
      let writes ← ioapicUnmaskIsaIrq lists ioapic isaIrq
      some { state with registers := applyWrites state.registers writes }
  | setHandler vec handler =>
      some { state with handlers := interruptsSetHandler state.handlers vec handler }

def runIrqCalls (lists : MadtLists) (ioapic : MadtIoApic) (state : IrqState)
    (calls : List IrqCall) : Option IrqState :=
  calls.foldlM (IrqCall.run lists ioapic) state

/-- What the processor and the kernel have loaded apart from the handlers. -/
structure Wiring where
  symbols : StubSymbols
  isrArray : Fin 256 → Word
  idtr : Idtr
  gdt : Fin 7 → BitVec 64

/-- A device changes a line while interrupts are on: the handler that is called, with the
processor at the call. -/
def pull (wiring : Wiring) (lapicId : BitVec 8) (ioapic : MadtIoApic) (state : IrqState)
    (core : Core) (line : ℕ) (change : LineChange) : Option (IntHandler × Core) := do
  let message ← signal (redirEntry state.registers ioapic line) change
  if message.Accepted lapicId then
    let interruption ← external message.vector.toFin
    raise ⟨wiring.symbols, wiring.isrArray, wiring.idtr, wiring.gdt, state.handlers⟩ core
      interruption
  else none

/-- The I/O APIC has a line for the interrupt, and registers for the line. -/
def HasLine (registers : Registers) (ioapic : MadtIoApic) (gsi : BitVec 32) : Prop :=
  Covers registers ioapic gsi ∧ gsi.toNat - ioapic.gsiBase.toNat < 120

instance (registers : Registers) (ioapic : MadtIoApic) (gsi : BitVec 32) :
    Decidable (HasLine registers ioapic gsi) :=
  inferInstanceAs (Decidable (_ ∧ _))

def lineOf (ioapic : MadtIoApic) (gsi : BitVec 32) : ℕ := gsi.toNat - ioapic.gsiBase.toNat

/-! ## What the calls amount to -/

def IrqCall.unmasked (lists : MadtLists) (gsi : BitVec 32) : IrqCall → Option (BitVec 8)
  | unmask isaIrq => if gsiOf lists isaIrq = gsi then some isaIrq else none
  | setHandler _ _ => none

def IrqCall.handlerSet (vector : Fin 256) : IrqCall → Option IntHandler
  | unmask _ => none
  | setHandler vec handler => if vec = vector then some handler else none

/-- The IRQ that was unmasked last among those of a GSI. -/
def lastUnmasked (lists : MadtLists) (calls : List IrqCall) (gsi : BitVec 32) :
    Option (BitVec 8) :=
  calls.reverse.findSome? (IrqCall.unmasked lists gsi)

/-- The handler that was set last for a vector. -/
def lastHandler (calls : List IrqCall) (vector : Fin 256) : Option IntHandler :=
  calls.reverse.findSome? (IrqCall.handlerSet vector)

section Entries

variable {registers : Registers} {ioapic : MadtIoApic} {gsi gsi' : BitVec 32}

theorem lineOf_lt (hline : HasLine registers ioapic gsi) : lineOf ioapic gsi < 120 := hline.2

theorem lineOf_inj (hline : HasLine registers ioapic gsi)
    (hline' : HasLine registers ioapic gsi') :
    lineOf ioapic gsi = lineOf ioapic gsi' ↔ gsi = gsi' := by
  have hbase := hline.1.1
  have hbase' := hline'.1.1
  rw [lineOf, lineOf, ← BitVec.toNat_inj]
  omega

theorem writeRedtbl_eq (hline : HasLine registers ioapic gsi) (val : BitVec 64) :
    writeRedtbl ioapic gsi val =
      [⟨ioapic, BitVec.ofNat 8 (0x10 + 2 * lineOf ioapic gsi),
          (val &&& 0xffffffff).setWidth 32⟩,
        ⟨ioapic, BitVec.ofNat 8 (0x10 + 2 * lineOf ioapic gsi + 1),
          (val >>> 32).setWidth 32⟩] := by
  obtain ⟨hlo, hhi⟩ := toNat_redirEntryReg hline.1.1 hline.2
  have hroom := hline.2
  simp only [writeRedtbl, writeReg, List.cons.injEq, RegWrite.mk.injEq, true_and, and_true]
  constructor
  · apply BitVec.eq_of_toNat_eq
    rw [hlo, lineOf, BitVec.toNat_ofNat, Nat.mod_eq_of_lt (by omega)]
  · apply BitVec.eq_of_toNat_eq
    rw [hhi, lineOf, BitVec.toNat_ofNat, Nat.mod_eq_of_lt (by omega)]

/-- Numbers of registers below 256 are told apart. -/
theorem ofNat_reg_inj {reg reg' : ℕ} (hreg : reg < 256) (hreg' : reg' < 256) :
    BitVec.ofNat 8 reg = BitVec.ofNat 8 reg' ↔ reg = reg' := by
  constructor
  · intro hsame
    have hnat := congrArg BitVec.toNat hsame
    rwa [BitVec.toNat_ofNat, BitVec.toNat_ofNat, Nat.mod_eq_of_lt hreg,
      Nat.mod_eq_of_lt hreg'] at hnat
  · rintro rfl
    rfl

theorem append_halves (val : BitVec 64) :
    (val >>> 32).setWidth 32 ++ (val &&& 0xffffffff).setWidth 32 = val := by
  have hlow : ((val &&& 0xffffffff).setWidth 32).toNat = val.toNat % 2 ^ 32 := by
    rw [BitVec.toNat_setWidth, BitVec.toNat_and]
    exact (congrArg (· % 2 ^ 32) (Nat.and_two_pow_sub_one_eq_mod val.toNat 32)).trans
      (Nat.mod_mod _ _)
  have hhigh : ((val >>> 32).setWidth 32).toNat = val.toNat / 2 ^ 32 := by
    have hval := val.isLt
    rw [BitVec.toNat_setWidth, BitVec.toNat_ushiftRight, Nat.shiftRight_eq_div_pow]
    exact Nat.mod_eq_of_lt (by omega)
  apply BitVec.eq_of_toNat_eq
  rw [BitVec.toNat_append, ← Nat.shiftLeft_add_eq_or_of_lt (BitVec.isLt _), hlow, hhigh,
    Nat.shiftLeft_eq]
  omega

theorem redirEntry_applyWrites {line line' : ℕ} (hline : line < 120) (hline' : line' < 120)
    (current : Registers) (lo hi : BitVec 32) :
    redirEntry (applyWrites current [⟨ioapic, BitVec.ofNat 8 (0x10 + 2 * line), lo⟩,
        ⟨ioapic, BitVec.ofNat 8 (0x10 + 2 * line + 1), hi⟩]) ioapic line' =
      if line = line' then hi ++ lo else redirEntry current ioapic line' := by
  simp (disch := omega) only [redirEntry, applyWrites, List.foldl_cons, List.foldl_nil,
    RegWrite.apply, true_and, ofNat_reg_inj]
  by_cases hsame : line = line'
  · subst hsame
    simp
  · rw [if_neg (by omega), if_neg (by omega), if_neg (by omega), if_neg (by omega),
      if_neg hsame]

theorem redirEntry_writeRedtbl (hline : HasLine registers ioapic gsi)
    (hline' : HasLine registers ioapic gsi') (current : Registers) (val : BitVec 64) :
    redirEntry (applyWrites current (writeRedtbl ioapic gsi val)) ioapic (lineOf ioapic gsi') =
      if gsi = gsi' then val else redirEntry current ioapic (lineOf ioapic gsi') := by
  rw [writeRedtbl_eq hline, redirEntry_applyWrites (lineOf_lt hline) (lineOf_lt hline'),
    append_halves]
  exact if_congr (lineOf_inj hline hline') rfl rfl

/-- The plain entry is zero between the vector and the destination. -/
theorem getLsbD_plainEntry (vector lapicId : BitVec 8) {bit : ℕ} (hlower : 8 ≤ bit)
    (hupper : bit < 56) : (plainEntry vector lapicId).getLsbD bit = false := by
  have hvector : vector.getLsbD bit = false := BitVec.getLsbD_of_ge vector bit hlower
  simp [plainEntry, ioapicDest, hvector, hupper]

/-- The plain entry waits for its line to go from low to high. -/
theorem triggers_plainEntry_iff (vector lapicId : BitVec 8) (change : LineChange) :
    Triggers (plainEntry vector lapicId) change ↔ change = rising := by
  obtain ⟨before, after⟩ := change
  rw [Triggers, Asserted, Asserted, getLsbD_plainEntry _ _ (by decide) (by decide),
    getLsbD_plainEntry _ _ (by decide) (by decide), rising]
  cases before <;> cases after <;> decide

/-- The plain entry sends its vector to its destination. -/
theorem signal_plainEntry (vector lapicId : BitVec 8) (change : LineChange) :
    signal (plainEntry vector lapicId) change =
      if change = rising then
        some { vector, deliveryMode := 0, logical := false, destination := lapicId }
      else none := by
  have hvec : ∀ vec : BitVec 8, (vec.setWidth 64).extractLsb' 0 8 = vec ∧
      (vec.setWidth 64).extractLsb' 8 3 = 0 ∧ (vec.setWidth 64).extractLsb' 56 8 = 0 := by
    decide +kernel
  have hdest : ∀ lapicId : BitVec 8, (ioapicDest lapicId).extractLsb' 0 8 = 0 ∧
      (ioapicDest lapicId).extractLsb' 8 3 = 0 ∧
      (ioapicDest lapicId).extractLsb' 56 8 = lapicId := by
    decide +kernel
  obtain ⟨hvecVector, hvecMode, hvecDest⟩ := hvec vector
  obtain ⟨hvector, hmode, hdestination⟩ := hdest lapicId
  have hunmasked : ¬Masked (plainEntry vector lapicId) := by
    rw [Masked, getLsbD_plainEntry _ _ (by decide) (by decide)]
    decide
  rw [signal, if_neg hunmasked]
  refine if_congr (triggers_plainEntry_iff vector lapicId change) ?_ rfl
  rw [getLsbD_plainEntry _ _ (by decide) (by decide), plainEntry]
  simp only [BitVec.extractLsb'_or, hvecVector, hvecMode, hvecDest, hvector, hmode,
    hdestination]
  simp

end Entries

/-! ## Runs of calls -/

/-- The entries and the handlers after some calls. -/
structure Routed (lists : MadtLists) (ioapic : MadtIoApic) (lapicId : BitVec 8)
    (start : IrqState) (calls : List IrqCall) (state : IrqState) : Prop where
  entries : ∀ gsi, HasLine start.registers ioapic gsi →
    redirEntry state.registers ioapic (lineOf ioapic gsi) =
      match lastUnmasked lists calls gsi with
      | none => redirEntry start.registers ioapic (lineOf ioapic gsi)
      | some isaIrq => plainEntry (interruptsGetIsaIrqVec isaIrq) lapicId
  handlers : ∀ vector,
    state.handlers vector = (lastHandler calls vector).or (start.handlers vector)

section Runs

variable {lists : MadtLists} {lapic : MadtLApic} {lapics : List MadtLApic}
variable {ioapic : MadtIoApic} {start : IrqState} {calls : List IrqCall}

/-- The last call of a run decides, if it is about the GSI. -/
theorem lastUnmasked_concat (call : IrqCall) (gsi : BitVec 32) :
    lastUnmasked lists (calls ++ [call]) gsi =
      (call.unmasked lists gsi).or (lastUnmasked lists calls gsi) := by
  rw [lastUnmasked, List.reverse_append, List.reverse_singleton, List.singleton_append,
    List.findSome?_cons]
  cases call.unmasked lists gsi <;> rfl

theorem lastHandler_concat (call : IrqCall) (vector : Fin 256) :
    lastHandler (calls ++ [call]) vector =
      (call.handlerSet vector).or (lastHandler calls vector) := by
  rw [lastHandler, List.reverse_append, List.reverse_singleton, List.singleton_append,
    List.findSome?_cons]
  cases call.handlerSet vector <;> rfl

theorem Routed.unmask {state : IrqState} {isaIrq lapicId : BitVec 8}
    (hrouted : Routed lists ioapic lapicId start calls state)
    (hline : HasLine start.registers ioapic (gsiOf lists isaIrq)) :
    Routed lists ioapic lapicId start (calls ++ [.unmask isaIrq])
      { state with registers := applyWrites state.registers (writeRedtbl ioapic
        (gsiOf lists isaIrq) (plainEntry (interruptsGetIsaIrqVec isaIrq) lapicId)) } := by
  constructor
  · intro gsi hgsi
    rw [redirEntry_writeRedtbl hline hgsi, lastUnmasked_concat, IrqCall.unmasked]
    split_ifs
    · rfl
    · exact hrouted.entries gsi hgsi
  · intro vector
    rw [lastHandler_concat]
    exact hrouted.handlers vector

theorem Routed.setHandler {state : IrqState} {lapicId : BitVec 8}
    (hrouted : Routed lists ioapic lapicId start calls state) (vec : Fin 256)
    (handler : IntHandler) :
    Routed lists ioapic lapicId start (calls ++ [.setHandler vec handler])
      { state with handlers := interruptsSetHandler state.handlers vec handler } := by
  constructor
  · intro gsi hgsi
    rw [lastUnmasked_concat]
    exact hrouted.entries gsi hgsi
  · intro vector
    change Function.update state.handlers vec (some handler) vector = _
    rw [lastHandler_concat, Function.update_apply, IrqCall.handlerSet]
    by_cases hsame : vec = vector
    · rw [if_pos hsame, if_pos hsame.symm]
      rfl
    · rw [if_neg hsame, if_neg (Ne.symm hsame)]
      exact hrouted.handlers vector

theorem routed_runIrqCalls (hlapics : lists.lapics = lapic :: lapics)
    (hcalls : ∀ isaIrq, IrqCall.unmask isaIrq ∈ calls → isaIrq.toNat < isaIrqCount ∧
      HasLine start.registers ioapic (gsiOf lists isaIrq)) :
    ∃ state, runIrqCalls lists ioapic start calls = some state ∧
      Routed lists ioapic lapic.lapicId start calls state := by
  induction calls using List.reverseRecOn with
  | nil => exact ⟨start, rfl, fun _ _ => rfl, fun _ => rfl⟩
  | append_singleton calls call ih =>
      obtain ⟨state, hrun, hrouted⟩ := ih fun isaIrq hmem =>
        hcalls isaIrq (List.mem_append_left _ hmem)
      have hstep : runIrqCalls lists ioapic start (calls ++ [call]) =
          call.run lists ioapic state := by
        rw [runIrqCalls] at hrun ⊢
        rw [List.foldlM_append, hrun]
        simp
      rw [hstep]
      cases call with
      | unmask isaIrq =>
          obtain ⟨hirq, hline⟩ := hcalls isaIrq (by simp)
          refine ⟨_, ?_, hrouted.unmask hline⟩
          rw [IrqCall.run, ioapicUnmaskIsaIrq_cons hirq hlapics]
          rfl
      | setHandler vec handler => exact ⟨_, rfl, hrouted.setHandler vec handler⟩

/-- The IRQ that was found is one that was unmasked. -/
theorem unmask_mem_of_lastUnmasked {gsi : BitVec 32} {isaIrq : BitVec 8}
    (hlast : lastUnmasked lists calls gsi = some isaIrq) : IrqCall.unmask isaIrq ∈ calls := by
  obtain ⟨call, hcall, hfound⟩ := List.exists_of_findSome?_eq_some hlast
  rw [List.mem_reverse] at hcall
  cases call with
  | unmask isaIrq' =>
      obtain rfl := Option.some.inj (Option.ite_none_right_eq_some.mp hfound).2
      exact hcall
  | setHandler vec handler => exact absurd hfound (by simp [IrqCall.unmasked])

end Runs

/-- The vectors of the ISA IRQs come after those of the exceptions and the PICs. -/
theorem isaIrqVec_spec {isaIrq : BitVec 8} (hirq : isaIrq.toNat < isaIrqCount) :
    16 ≤ (interruptsGetIsaIrqVec isaIrq).toNat ∧
      pushesErrorCode (interruptsGetIsaIrqVec isaIrq).toFin = false ∧
      defaultHandler (interruptsGetIsaIrqVec isaIrq).toFin = .unknownIntHandler := by
  revert isaIrq
  decide +kernel

/-- A line with the plain entry of an IRQ interrupts the processor that it names when it
goes high. -/
theorem pull_eq (symbols : StubSymbols) {isrArray : Fin 256 → Word}
    (hinjective : Function.Injective isrArray) {memory : ByteMemory.Memory} {idt : ℕ}
    (tss : Word) (lapicId : BitVec 8) {destination isaIrq : BitVec 8} {ioapic : MadtIoApic}
    {state : IrqState} {core : Core} {line : ℕ} {handler : IntHandler} (change : LineChange)
    (hroom : 192 ≤ (core.regs .rsp).toNat)
    (hidt : ∀ target, idt ≤ target → target < idt + 4096 →
      core.memory target = idtInit memory idt isrArray target)
    (hirq : isaIrq.toNat < isaIrqCount)
    (hentry : redirEntry state.registers ioapic line =
      plainEntry (interruptsGetIsaIrqVec isaIrq) destination)
    (hhandler : state.handlers (interruptsGetIsaIrqVec isaIrq).toFin = some handler) :
    (pull ⟨symbols, isrArray, idtrOf idt, Gdt.gdtInit tss⟩ lapicId ioapic state core
        line change).map Prod.fst =
      if lapicId = destination ∧ change = rising then some handler else none := by
  obtain ⟨hvector, hcode, -⟩ := isaIrqVec_spec hirq
  rw [pull, hentry, signal_plainEntry]
  by_cases hchange : change = rising
  swap
  · rw [if_neg hchange, if_neg fun hboth => hchange hboth.2]
    rfl
  rw [if_pos hchange, Option.bind_eq_bind, Option.bind_some]
  by_cases hdestination : lapicId = destination
  · obtain ⟨entered, hraise, -⟩ := @raise_eq symbols isrArray hinjective memory idt tss
      state.handlers handler core
      ⟨(interruptsGetIsaIrqVec isaIrq).toFin, none, hcode.symm⟩ hroom hidt hhandler
    rw [if_pos ⟨rfl, rfl, hdestination.symm, hvector⟩, if_pos ⟨hdestination, hchange⟩,
      external, dif_pos hcode]
    exact congrArg (Option.map Prod.fst) hraise
  · rw [if_neg fun haccepted => hdestination haccepted.2.2.1.symm,
      if_neg fun hboth => hdestination hboth.1]
    rfl

/-- If all lines are masked at first and the IRQs that are unmasked have a line, a line that
goes high reaches the handler of the IRQ that was unmasked last among those with the line,
whatever the order of the calls: the handler set last for the IRQ's vector, or
`unknown_int_handler` if none was.  It does so on the processor whose local APIC heads the
MADT's list and on no other.  A line without such an IRQ stays masked.  No other change of
a line is an interrupt, also where the override asks for an active-low or a
level-triggered one. -/
theorem isa_irq_reaches_last_handler (symbols : StubSymbols) {isrArray : Fin 256 → Word}
    (hinjective : Function.Injective isrArray) (memory : ByteMemory.Memory) (idt : ℕ)
    (tss : Word) (table : HandlerTable) {lists : MadtLists} {lapic : MadtLApic}
    {lapics : List MadtLApic} (hlapics : lists.lapics = lapic :: lapics)
    (ioapic : MadtIoApic) (registers : Registers) (calls : List IrqCall)
    (hmasked : ∀ line < 120, Masked (redirEntry registers ioapic line))
    (hcalls : ∀ isaIrq, IrqCall.unmask isaIrq ∈ calls → isaIrq.toNat < isaIrqCount ∧
      HasLine registers ioapic (gsiOf lists isaIrq)) :
    ∃ state, runIrqCalls lists ioapic ⟨registers, interruptsInit table⟩ calls = some state ∧
      ∀ lapicId core gsi change, 192 ≤ (core.regs .rsp).toNat →
        (∀ target, idt ≤ target → target < idt + 4096 →
          core.memory target = idtInit memory idt isrArray target) →
        HasLine registers ioapic gsi →
        (pull ⟨symbols, isrArray, idtrOf idt, Gdt.gdtInit tss⟩ lapicId ioapic state core
            (lineOf ioapic gsi) change).map Prod.fst =
          if lapicId = lapic.lapicId ∧ change = rising then
            (lastUnmasked lists calls gsi).map fun isaIrq =>
              (lastHandler calls (interruptsGetIsaIrqVec isaIrq).toFin).getD
                .unknownIntHandler
          else none := by
  obtain ⟨state, hrun, hrouted⟩ := @routed_runIrqCalls lists lapic lapics ioapic
    ⟨registers, interruptsInit table⟩ calls hlapics hcalls
  refine ⟨state, hrun, ?_⟩
  intro lapicId core gsi change hroom hidt hline
  have hentry := hrouted.entries gsi hline
  cases hlast : lastUnmasked lists calls gsi with
  | none =>
      rw [hlast] at hentry
      have hsignal : signal (redirEntry state.registers ioapic (lineOf ioapic gsi)) change =
          none := by
        rw [hentry, signal, if_pos (hmasked _ (lineOf_lt hline))]
      rw [pull, hsignal]
      split_ifs <;> rfl
  | some isaIrq =>
      rw [hlast] at hentry
      obtain ⟨hirq, -⟩ := hcalls isaIrq (unmask_mem_of_lastUnmasked hlast)
      obtain ⟨-, -, hdefault⟩ := isaIrqVec_spec hirq
      have htable : state.handlers (interruptsGetIsaIrqVec isaIrq).toFin =
          (lastHandler calls (interruptsGetIsaIrqVec isaIrq).toFin).or
            (interruptsInit table (interruptsGetIsaIrqVec isaIrq).toFin) :=
        hrouted.handlers _
      have hhandler : state.handlers (interruptsGetIsaIrqVec isaIrq).toFin =
          some ((lastHandler calls (interruptsGetIsaIrqVec isaIrq).toFin).getD
            .unknownIntHandler) := by
        rw [htable, interruptsInit_apply, hdefault]
        cases lastHandler calls (interruptsGetIsaIrqVec isaIrq).toFin <;> rfl
      exact pull_eq symbols hinjective tss lapicId change hroom hidt hirq hentry hhandler

/-- One local APIC, and IRQ 0 on line 2 with the modes of the ISA bus, as on most
machines. -/
def pitLists : MadtLists where
  lapics := [⟨0, 0, 1⟩]
  ioapicIsos := [⟨0, 0, 2, 0⟩]

/-- 24 lines, all of them masked. -/
def maskedRegisters : Registers := fun _ reg => if reg = ioapicVer then 0x170020 else 0x10000

def pitCalls : List IrqCall := [.unmask 0, .setHandler 0x30 (.other 0x9000), .unmask 4]

theorem isa_irq_reaches_last_handler_pit :
    ∃ state, runIrqCalls pitLists ⟨0, 0, 0xfec00000, 0⟩
        ⟨maskedRegisters, interruptsInit emptyTable⟩ pitCalls = some state ∧
      ∀ line change handler, (line, change, handler) ∈
          [(1, rising, none), (2, rising, some (.other 0x9000)), (2, ⟨true, false⟩, none),
            (2, ⟨true, true⟩, none), (4, rising, some .unknownIntHandler)] →
        (pull ⟨⟨0x5000, 0x6000⟩, sampleStubs, idtrOf 0x10000, Gdt.gdtInit 0⟩ 0
          ⟨0, 0, 0xfec00000, 0⟩ state sampleTableCore line change).map Prod.fst =
            handler := by
  have hmemory : sampleTableCore.memory =
      idtInit sampleCore.memory 0x10000 sampleStubs := by rw [sampleTableCore]
  obtain ⟨state, hrun, hpull⟩ := isa_irq_reaches_last_handler ⟨0x5000, 0x6000⟩
    sampleStubs_injective sampleCore.memory 0x10000 0 emptyTable
    (show pitLists.lapics = ⟨0, 0, 1⟩ :: [] from rfl) ⟨0, 0, 0xfec00000, 0⟩ maskedRegisters
    pitCalls (by decide +kernel) (by
      intro isaIrq hmem
      have hirq : isaIrq = 0 ∨ isaIrq = 4 := by simpa [pitCalls] using hmem
      rcases hirq with rfl | rfl <;> decide)
  refine ⟨state, hrun, ?_⟩
  intro line change handler hmem
  have hline := fun gsi change => hpull 0 sampleTableCore gsi change (by decide)
    (fun target _ _ => congrFun hmemory target)
  simp only [List.mem_cons, Prod.mk.injEq, List.not_mem_nil, or_false] at hmem
  rcases hmem with ⟨rfl, rfl, rfl⟩ | ⟨rfl, rfl, rfl⟩ | ⟨rfl, rfl, rfl⟩ | ⟨rfl, rfl, rfl⟩ |
    ⟨rfl, rfl, rfl⟩
  · exact hline 1 rising (by decide)
  · exact hline 2 rising (by decide)
  · exact hline 2 ⟨true, false⟩ (by decide)
  · exact hline 2 ⟨true, true⟩ (by decide)
  · exact hline 4 rising (by decide)

end Flurry.IrqRouting
