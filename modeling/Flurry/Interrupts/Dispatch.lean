import Flurry.Interrupts.Idt

/-!
# From an interruption to its handler

`interrupt_dispatch` calls the entry of `int_handlers` for the vector that the stub
has pushed.  Together with the descriptors of `idt_init` and the stubs this gives the
whole way of an interruption: which handler runs depends on the calls of
`interrupts_set_handler` alone.
-/

namespace Flurry.Interrupts

open ByteMemory Processor

/-- What an entry of `int_handlers` points to: the handlers of `interrupts.c`, or the
address of another one. -/
inductive IntHandler
  | unknownIntHandler
  | picIrqHandler
  | cpuExceptionHandler
  | other (address : Word)
  deriving DecidableEq, Repr

/-- `int_handlers`, with `none` for a null pointer. -/
abbrev HandlerTable := Fin 256 → Option IntHandler

/-- A static array starts out as zeros. -/
def emptyTable : HandlerTable := fun _ => none

def picHandledIrqCount : ℕ := 8
def pic1IrqBase : Fin 256 := 0x20
def pic2IrqBase : Fin 256 := 0x28

def interruptsSetHandler (table : HandlerTable) (vec : Fin 256) (handler : IntHandler) :
    HandlerTable :=
  Function.update table vec (some handler)

/-- The indices of a loop that counts up from zero. -/
def indices (count : ℕ) : List (Fin 256) := (List.range count).map (Fin.ofNat 256)

/-- The three loops of `interrupts_init`. -/
def interruptsInit (table : HandlerTable) : HandlerTable :=
  let table := (indices idtMaxDescriptors).foldl
    (fun table i => interruptsSetHandler table i .unknownIntHandler) table
  let table := (indices 32).foldl
    (fun table i => interruptsSetHandler table i .cpuExceptionHandler) table
  (indices picHandledIrqCount).foldl
    (fun table picIrq =>
      interruptsSetHandler (interruptsSetHandler table (picIrq + pic1IrqBase) .picIrqHandler)
        (picIrq + pic2IrqBase) .picIrqHandler) table

/-- The handler that is called, `none` for a null pointer or an index beyond the table. -/
def interruptDispatch (table : HandlerTable) (ctx : InterruptCtx) : Option IntHandler :=
  if hvector : ctx.vector.toNat < 256 then table ⟨ctx.vector.toNat, hvector⟩ else none

/-! ## The way of an interruption -/

/-- The stub at an address. -/
def stubAt (isrArray : Fin 256 → Word) (offset : Word) : Option (Fin 256) :=
  (List.finRange 256).find? fun vector => isrArray vector == offset

/-- What the processor and the kernel have loaded. -/
structure InterruptTables where
  symbols : StubSymbols
  isrArray : Fin 256 → Word
  idtr : Idtr
  gdt : Fin 7 → BitVec 64
  handlers : HandlerTable

/-- An interruption up to the call in `interrupt_dispatch`: the handler and the processor
there.  `none` where the processor faults or a null pointer is called. -/
def raise (tables : InterruptTables) (core : Core) (interruption : Interruption) :
    Option (IntHandler × Core) := do
  let gate ← gateFor core.memory tables.idtr tables.gdt interruption.vector
  let stub ← stubAt tables.isrArray gate.offset
  let entered := enterStub tables.symbols core gate interruption.errorCode stub
  let handler ← interruptDispatch tables.handlers
    (InterruptCtx.load entered.memory (entered.regs .rdi).toNat)
  some (handler, entered)

section Tables

variable {table : HandlerTable} {vector : Fin 256}

/-- A loop that sets one handler for several vectors. -/
theorem foldl_interruptsSetHandler (table : HandlerTable) (vectors : List (Fin 256))
    (handler : IntHandler) (vector : Fin 256) :
    vectors.foldl (fun table i => interruptsSetHandler table i handler) table vector =
      if vector ∈ vectors then some handler else table vector := by
  induction vectors generalizing table with
  | nil => simp
  | cons first vectors ih =>
      rw [List.foldl_cons, ih, interruptsSetHandler, Function.update_apply]
      simp only [List.mem_cons]
      split <;> split <;> simp_all

/-- The default handlers by the range of the vector. -/
def defaultHandler (vector : Fin 256) : IntHandler :=
  if vector.val < 32 then .cpuExceptionHandler
  else if vector.val < 48 then .picIrqHandler
  else .unknownIntHandler

theorem mem_indices {count : ℕ} :
    vector ∈ indices count ↔ vector.val < count := by
  simp only [indices, List.mem_map, List.mem_range]
  constructor
  · rintro ⟨index, hindex, rfl⟩
    exact lt_of_le_of_lt (Nat.mod_le index 256) hindex
  · intro hvector
    exact ⟨vector, hvector, Fin.ext (Nat.mod_eq_of_lt vector.isLt)⟩

theorem interruptsInit_apply (table : HandlerTable) (vector : Fin 256) :
    interruptsInit table vector = some (defaultHandler vector) := by
  have hpic : vector ∈ (indices picHandledIrqCount).flatMap
      (fun picIrq => [picIrq + pic1IrqBase, picIrq + pic2IrqBase]) ↔
        32 ≤ vector.val ∧ vector.val < 48 := by
    revert vector
    decide +kernel
  -- the pairs of the last loop are one list of vectors
  have hloop : interruptsInit table = List.foldl
      (fun table i => interruptsSetHandler table i .picIrqHandler)
      ((indices 32).foldl (fun table i => interruptsSetHandler table i .cpuExceptionHandler)
        ((indices idtMaxDescriptors).foldl
          (fun table i => interruptsSetHandler table i .unknownIntHandler) table))
      ((indices picHandledIrqCount).flatMap
        fun picIrq => [picIrq + pic1IrqBase, picIrq + pic2IrqBase]) := by
    rw [List.foldl_flatMap]
    rfl
  rw [hloop, foldl_interruptsSetHandler, foldl_interruptsSetHandler,
    foldl_interruptsSetHandler, if_congr hpic rfl rfl, if_congr mem_indices rfl rfl,
    if_pos (show vector ∈ indices idtMaxDescriptors from mem_indices.mpr vector.isLt),
    defaultHandler]
  split_ifs <;> first | rfl | omega

/-- The handler that was set last for a vector. -/
def lastSet (calls : List (Fin 256 × IntHandler)) (vector : Fin 256) : Option IntHandler :=
  (calls.reverse.find? fun call => call.1 == vector).map Prod.snd

theorem foldl_calls (calls : List (Fin 256 × IntHandler)) (table : HandlerTable)
    (vector : Fin 256) :
    calls.foldl (fun table call => interruptsSetHandler table call.1 call.2) table vector =
      (lastSet calls vector).or (table vector) := by
  induction calls using List.reverseRecOn with
  | nil => rfl
  | append_singleton calls call ih =>
      rw [List.foldl_append, List.foldl_cons, List.foldl_nil, interruptsSetHandler,
        Function.update_apply, ih, lastSet, lastSet, List.reverse_append,
        List.reverse_singleton, List.singleton_append, List.find?_cons]
      by_cases hcall : vector = call.1
      · simp [hcall]
      · rw [if_neg hcall, beq_eq_false_iff_ne.mpr (Ne.symm hcall)]

end Tables

theorem stubAt_eq {isrArray : Fin 256 → Word} (hinjective : Function.Injective isrArray)
    (vector : Fin 256) : stubAt isrArray (isrArray vector) = some vector := by
  have hfound : (stubAt isrArray (isrArray vector)).isSome := by
    rw [stubAt, List.find?_isSome]
    exact ⟨vector, List.mem_finRange vector, beq_self_eq_true _⟩
  obtain ⟨stub, hstub⟩ := Option.isSome_iff_exists.mp hfound
  have hsame := List.find?_some hstub
  rw [hstub, hinjective (eq_of_beq hsame)]

/-- An interruption gets to the handler that stands in the table for its vector. -/
theorem raise_eq (symbols : StubSymbols) {isrArray : Fin 256 → Word}
    (hinjective : Function.Injective isrArray) {memory : Memory} {idt : ℕ} (tss : Word)
    {handlers : HandlerTable} {handler : IntHandler} {core : Core}
    {interruption : Interruption} (hroom : 192 ≤ (core.regs .rsp).toNat)
    (hidt : ∀ target, idt ≤ target → target < idt + 4096 →
      core.memory target = idtInit memory idt isrArray target)
    (hhandler : handlers interruption.vector = some handler) :
    ∃ entered,
      raise ⟨symbols, isrArray, idtrOf idt, Gdt.gdtInit tss, handlers⟩ core interruption =
        some (handler, entered) ∧
      InterruptCtx.load entered.memory (entered.regs .rdi).toNat =
        contextOf core interruption ∧
      entered.rip = symbols.interruptDispatch ∧ entered.cs = 8 ∧
      entered.rflags.interrupts = false := by
  have hgate := @gateFor_eq memory core.memory idt interruption.vector isrArray tss hidt
  have hentered := entered_enterDispatch symbols
    ⟨isrArray interruption.vector, BitVec.ofNat 16 kCodeSelector⟩ interruption hroom
  have hcontext := InterruptCtx.load_of_stackHolds hentered.context
  have hvector : (contextOf core interruption).vector.toNat = interruption.vector.val :=
    Nat.mod_eq_of_lt (by omega)
  have hdispatch : interruptDispatch handlers (contextOf core interruption) =
      some handler := by
    simp only [interruptDispatch, hvector, interruption.vector.isLt, dif_pos]
    exact hhandler
  refine ⟨_, ?_, hcontext, hentered.rip, hentered.cs, ?_⟩
  · rw [enterDispatch] at hcontext
    simp only [raise, hgate, stubAt_eq hinjective, Option.bind_eq_bind, Option.bind_some,
      hcontext, hdispatch]
    rfl
  · rw [hentered.rflags, Rflags.interrupts_atGate]

/-- Once the tables are set up, every interruption calls the handler that was set last
for its vector, and the default one of its range if none was.  The handler is given the
interrupted processor and runs in kernel code with interrupts off. -/
theorem interrupt_reaches_last_handler (symbols : StubSymbols) {isrArray : Fin 256 → Word}
    (hinjective : Function.Injective isrArray) (memory : Memory) (idt : ℕ) (tss : Word)
    (table : HandlerTable) (calls : List (Fin 256 × IntHandler)) (core : Core)
    (interruption : Interruption) (hroom : 192 ≤ (core.regs .rsp).toNat)
    (hidt : ∀ target, idt ≤ target → target < idt + 4096 →
      core.memory target = idtInit memory idt isrArray target) :
    ∃ entered,
      raise ⟨symbols, isrArray, idtrOf idt, Gdt.gdtInit tss,
        calls.foldl (fun table call => interruptsSetHandler table call.1 call.2)
          (interruptsInit table)⟩ core interruption =
        some ((lastSet calls interruption.vector).getD (defaultHandler interruption.vector),
          entered) ∧
      InterruptCtx.load entered.memory (entered.regs .rdi).toNat =
        contextOf core interruption ∧
      entered.rip = symbols.interruptDispatch ∧ entered.cs = 8 ∧
      entered.rflags.interrupts = false := by
  apply raise_eq symbols hinjective tss hroom hidt
  rw [foldl_calls, interruptsInit_apply]
  cases lastSet calls interruption.vector <;> rfl

/-- Stubs that are 16 bytes apart. -/
def sampleStubs (vector : Fin 256) : Word := BitVec.ofNat 64 (0x8000 + 16 * vector)

theorem sampleStubs_injective : Function.Injective sampleStubs := by
  intro vector vector' hsame
  have hnat := congrArg BitVec.toNat hsame
  simp only [sampleStubs, BitVec.toNat_ofNat] at hnat
  omega

/-- The tables after `sched_init` has set a handler for the timer. -/
def sampleTables : InterruptTables where
  symbols := ⟨0x5000, 0x6000⟩
  isrArray := sampleStubs
  idtr := idtrOf 0x10000
  gdt := Gdt.gdtInit 0
  handlers := [(32, .other 0x9000)].foldl
    (fun table call => interruptsSetHandler table call.1 call.2) (interruptsInit emptyTable)

def sampleTableCore : Core :=
  { sampleCore with memory := idtInit sampleCore.memory 0x10000 sampleStubs }

/-- The timer, and an exception that nobody has set a handler for. -/
theorem interrupt_reaches_last_handler_timer :
    192 ≤ (sampleTableCore.regs .rsp).toNat ∧
      (∃ entered, raise sampleTables sampleTableCore ⟨32, none, by decide⟩ =
        some (.other 0x9000, entered)) ∧
      ∃ entered, raise sampleTables sampleTableCore ⟨13, some 0, by decide⟩ =
        some (.cpuExceptionHandler, entered) := by
  have hroom : 192 ≤ (sampleTableCore.regs .rsp).toNat := by decide
  have hmemory : sampleTableCore.memory =
      idtInit sampleCore.memory 0x10000 sampleStubs := by rw [sampleTableCore]
  have hraise (interruption : Interruption) (handler : IntHandler)
      (hhandler : (lastSet [(32, .other 0x9000)] interruption.vector).getD
        (defaultHandler interruption.vector) = handler) :
      ∃ entered, raise sampleTables sampleTableCore interruption = some (handler, entered) := by
    obtain ⟨entered, hentered, -⟩ := interrupt_reaches_last_handler ⟨0x5000, 0x6000⟩
      sampleStubs_injective sampleCore.memory 0x10000 0 emptyTable [(32, .other 0x9000)]
      sampleTableCore interruption hroom (fun target _ _ => congrFun hmemory target)
    exact ⟨entered, hhandler ▸ hentered⟩
  exact ⟨hroom, hraise _ _ (by decide), hraise _ _ (by decide)⟩

end Flurry.Interrupts
