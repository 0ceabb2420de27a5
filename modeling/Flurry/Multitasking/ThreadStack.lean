import Flurry.Memory.StringOps
import Flurry.Memory.KmallocFree

/-!
# The stack of a new thread

`thread_kcreate` on the bytes of the kernel heap: a `Thread`, its stack and its
event are three blocks from `kmalloc`, and the topmost 72 bytes of the stack are
an `InitialKStack`.  The slots for the saved registers keep whatever bytes the
block had.
-/

namespace Flurry.KernelThread

open ByteMemory StringOps Kmalloc

/-- `STACK_SIZE`. -/
def stackSize : ℕ := 4096 * 4

/-! ## Layout of the structures -/

def sizeofThread : ℕ := 136
def threadRsp : ℕ := 0
def threadRspBase : ℕ := 16
def threadTid : ℕ := 24
def threadProcess : ℕ := 32
def threadName : ℕ := 40
def threadStatus : ℕ := 104
def threadEvent : ℕ := 112

/-- `THREAD_MAX_NAME_LENGTH`. -/
def threadMaxNameLength : ℕ := 64

/-- `THREAD_READY`. -/
def threadReady : ℕ := 0

def sizeofEvent : ℕ := 72
def eventOwner : ℕ := 0
def eventTime : ℕ := 8
def eventEnqueued : ℕ := 16
def eventCallback : ℕ := 24
def eventKind : ℕ := 32
def eventCallbackArg : ℕ := 40
def eventLeft : ℕ := 48
def eventRight : ℕ := 56
def eventParent : ℕ := 64

/-- Offsets in `InitialKStack`, after `r12` to `r15`, `rbp` and `rbx`. -/
def stackRflags : ℕ := 48
def stackInitThread : ℕ := 56
def stackEntry : ℕ := 64
def sizeofInitialKStack : ℕ := 72

/-! ## Creation -/

/-- The value that `event_create` assigns; `none` is the address of the text `"NONE"`. -/
def emptyEvent (none : ℕ) : List Field :=
  [⟨8, eventOwner, 0⟩, ⟨8, eventTime, 0⟩, ⟨8, eventCallback, 0⟩,
    ⟨8, eventCallbackArg, 0⟩, ⟨8, eventKind, none⟩, ⟨8, eventLeft, 0⟩,
    ⟨8, eventRight, 0⟩, ⟨8, eventParent, 0⟩, ⟨1, eventEnqueued, 0⟩]

def eventCreate (heap : Heap) (none : ℕ) : Option (Heap × ℕ) := do
  let (heap, event) ← kmalloc heap sizeofEvent
  some ({ heap with memory := storeFields heap.memory event (emptyEvent none) }, event)

/-- Addresses that the linker gives: the function `init_thread` and the text
`"NONE"`. -/
structure Symbols where
  initThread : ℕ
  none : ℕ
  initThread_lt : initThread < 2 ^ 64

/-- From `strcpy` to `t->process = proc`. -/
def writeIdentity (heap : Heap) (t : ℕ) (name : List Byte) (tid proc : ℕ) : Heap :=
  let heap := { heap with memory := strcpy heap.memory (t + threadName) name }
  let heap := heap.store (t + threadTid) tid
  heap.store (t + threadProcess) proc

/-- From `t->rsp_base` to `t->rsp`. -/
def writeStack (symbols : Symbols) (heap : Heap) (t rspBase entry : ℕ) : Heap :=
  let heap := heap.store (t + threadRspBase) rspBase
  let stack := heap.load (t + threadRspBase) + stackSize - sizeofInitialKStack
  let heap := heap.store (stack + stackRflags) 0x202
  let heap := heap.store (stack + stackInitThread) symbols.initThread
  let heap := heap.store (stack + stackEntry) entry
  heap.store (t + threadRsp) stack

/-- From `t->event` to `t->status`. -/
def writeOwner (heap : Heap) (t event : ℕ) : Heap :=
  let heap := heap.store (t + threadEvent) event
  let heap := heap.store (heap.load (t + threadEvent) + eventOwner) t
  { heap with memory := store heap.memory 4 (t + threadStatus) threadReady }

/-- `tid` is the value of `tid_counter`, `entry` and `proc` are pointers. -/
def threadKcreate (symbols : Symbols) (heap : Heap) (tid : ℕ) (name : List Byte)
    (entry proc : ℕ) : Option (Heap × ℕ) := do
  let (heap, t) ← kmalloc heap sizeofThread
  let heap := writeIdentity heap t name tid proc
  let (heap, rspBase) ← kmalloc heap stackSize
  let heap := writeStack symbols heap t rspBase entry
  let (heap, event) ← eventCreate heap symbols.none
  some (writeOwner heap t event, t)

/-! ## The prepared stack -/

/-- The fields of a `Thread` and of the `InitialKStack` that `switch_context` uses. -/
structure Prepared (symbols : Symbols) (memory : Memory) (t base function : ℕ) : Prop where
  rspBase : load64 memory (t + 16) = base
  rsp : load64 memory t = base + stackSize - 72
  rflags : load64 memory (base + stackSize - 24) = 0x202
  initThread : load64 memory (base + stackSize - 16) = symbols.initThread
  entry : load64 memory (base + stackSize - 8) = function

section Prepared

variable {symbols : Symbols} {memory memory' : Memory} {heap : Heap}
variable {t rspBase entry event none tid proc : ℕ} {name : List Byte}

theorem Prepared.congr (hprepared : Prepared symbols memory t rspBase entry)
    (hthread : ∀ target, t ≤ target → target < t + 24 → memory' target = memory target)
    (hstack : ∀ target, rspBase ≤ target → target < rspBase + stackSize →
      memory' target = memory target) : Prepared symbols memory' t rspBase entry := by
  have hsize : stackSize = 16384 := rfl
  constructor
  · rw [← hprepared.rspBase]
    exact load64_congr fun target hlower hupper => hthread target (by omega) (by omega)
  · rw [← hprepared.rsp]
    exact load64_congr fun target hlower hupper => hthread target (by omega) (by omega)
  · rw [← hprepared.rflags]
    exact load64_congr fun target hlower hupper => hstack target (by omega) (by omega)
  · rw [← hprepared.initThread]
    exact load64_congr fun target hlower hupper => hstack target (by omega) (by omega)
  · rw [← hprepared.entry]
    exact load64_congr fun target hlower hupper => hstack target (by omega) (by omega)

theorem agreeOutside_emptyEvent :
    AgreeOutside event (event + sizeofEvent) memory
      (storeFields memory event (emptyEvent none)) := by
  apply agreeOutside_storeFields
  simp [emptyEvent, sizeofEvent, eventOwner, eventTime, eventCallback, eventCallbackArg,
    eventKind, eventLeft, eventRight, eventParent, eventEnqueued]

theorem agreeOutside_writeIdentity (hname : name.length < threadMaxNameLength) :
    AgreeOutside t (t + sizeofThread) heap.memory
      (writeIdentity heap t name tid proc).memory := by
  unfold threadMaxNameLength at hname
  have hstrcpy : AgreeOutside t (t + sizeofThread) heap.memory
      (strcpy heap.memory (t + threadName) name) :=
    (agreeOutside_strcpy heap.memory (t + threadName) name).mono (by omega)
      (by unfold threadName sizeofThread; omega)
  exact (hstrcpy.store (by omega) (by unfold threadTid sizeofThread; omega)).store
    (by omega) (by unfold threadProcess sizeofThread; omega)

theorem writeStack_eq (hbase : rspBase < 2 ^ 64) :
    writeStack symbols heap t rspBase entry =
      ((((heap.store (t + 16) rspBase).store (rspBase + stackSize - 24) 0x202).store
        (rspBase + stackSize - 16) symbols.initThread).store
          (rspBase + stackSize - 8) entry).store t (rspBase + stackSize - 72) := by
  have hload : (heap.store (t + threadRspBase) rspBase).load (t + threadRspBase) =
      rspBase := load64_store64_same hbase
  have hsize : stackSize = 16384 := rfl
  have hrflags : rspBase + stackSize - sizeofInitialKStack + stackRflags =
      rspBase + stackSize - 24 := by
    unfold sizeofInitialKStack stackRflags
    omega
  have hinit : rspBase + stackSize - sizeofInitialKStack + stackInitThread =
      rspBase + stackSize - 16 := by
    unfold sizeofInitialKStack stackInitThread
    omega
  have hentry : rspBase + stackSize - sizeofInitialKStack + stackEntry =
      rspBase + stackSize - 8 := by
    unfold sizeofInitialKStack stackEntry
    omega
  simp only [writeStack, hload, hrflags, hinit, hentry]
  rfl

theorem prepared_writeStack
    (hapart : t + sizeofThread ≤ rspBase ∨ rspBase + stackSize ≤ t)
    (hbase : rspBase + stackSize < 2 ^ 64) (hentry : entry < 2 ^ 64) :
    Prepared symbols (writeStack symbols heap t rspBase entry).memory t rspBase entry := by
  have hthread : sizeofThread = 136 := rfl
  have hsize : stackSize = 16384 := rfl
  rw [writeStack_eq (by omega)]
  simp only [Heap.store]
  constructor
  · rw [load64_store64_of_disjoint (by omega), load64_store64_of_disjoint (by omega),
      load64_store64_of_disjoint (by omega), load64_store64_of_disjoint (by omega),
      load64_store64_same (by omega)]
  · exact load64_store64_same (by omega)
  · rw [load64_store64_of_disjoint (by omega), load64_store64_of_disjoint (by omega),
      load64_store64_of_disjoint (by omega), load64_store64_same (by omega)]
  · rw [load64_store64_of_disjoint (by omega), load64_store64_of_disjoint (by omega),
      load64_store64_same symbols.initThread_lt]
  · rw [load64_store64_of_disjoint (by omega), load64_store64_same hentry]

theorem writeOwner_eq (hevent : event < 2 ^ 64) :
    writeOwner heap t event =
      { heap with
        memory := store (store64 (store64 heap.memory (t + 112) event) event t) 4
          (t + 104) 0 } := by
  have hload : (heap.store (t + threadEvent) event).load (t + threadEvent) = event :=
    load64_store64_same hevent
  rw [writeOwner, hload]
  rfl

end Prepared

/-! ## Creation on a well-formed heap -/

section Creation

variable {symbols : Symbols} {heap heap' : Heap} {live : List Block} {layout : Layout}
variable {t rspBase entry event tid proc : ℕ} {name : List Byte}

theorem tracks_store (htracks : HeapState.Tracks ⟨heap, live⟩ layout)
    {ptr sz width address value : ℕ} (hblock : ⟨ptr, sz⟩ ∈ live) (hlower : ptr ≤ address)
    (hupper : address + width ≤ ptr + sz) :
    HeapState.Tracks
      ⟨{ heap with memory := store heap.memory width address value }, live⟩ layout :=
  htracks.write hblock ((AgreeOutside.refl _).store hlower hupper)

theorem tracks_writeStack (htracks : HeapState.Tracks ⟨heap, live⟩ layout)
    (hthread : ⟨t, sizeofThread⟩ ∈ live) (hstack : ⟨rspBase, stackSize⟩ ∈ live) :
    HeapState.Tracks ⟨writeStack symbols heap t rspBase entry, live⟩ layout := by
  have hsizeThread : sizeofThread = 136 := rfl
  have hsize : stackSize = 16384 := rfl
  have hbounds := (htracks.bounds hstack).2.2
  have hend := heapEnd_lt
  simp only at hbounds
  rw [writeStack_eq (by omega)]
  apply tracks_store _ hthread (by omega) (by omega)
  apply tracks_store _ hstack (by omega) (by omega)
  apply tracks_store _ hstack (by omega) (by omega)
  apply tracks_store _ hstack (by omega) (by omega)
  exact tracks_store htracks hthread (by omega) (by omega)

theorem tracks_writeOwner (htracks : HeapState.Tracks ⟨heap, live⟩ layout)
    (hthread : ⟨t, sizeofThread⟩ ∈ live) (hevent : ⟨event, sizeofEvent⟩ ∈ live) :
    HeapState.Tracks ⟨writeOwner heap t event, live⟩ layout := by
  have hsizeThread : sizeofThread = 136 := rfl
  have hsizeEvent : sizeofEvent = 72 := rfl
  have hbounds := (htracks.bounds hevent).2.2
  have hend := heapEnd_lt
  simp only at hbounds
  rw [writeOwner_eq (by omega)]
  have hfirst : HeapState.Tracks ⟨heap.store (t + 112) event, live⟩ layout :=
    tracks_store htracks hthread (by omega) (by omega)
  have hsecond : HeapState.Tracks ⟨(heap.store (t + 112) event).store event t, live⟩ layout :=
    tracks_store hfirst hevent le_rfl (by omega)
  exact tracks_store hsecond hthread (by omega) (by omega)

/-- The writes after `event_create` leave the stack and the first fields alone. -/
theorem Prepared.writeOwner (hprepared : Prepared symbols heap.memory t rspBase entry)
    (htracks : HeapState.Tracks ⟨heap, live⟩ layout)
    (hthread : ⟨t, sizeofThread⟩ ∈ live) (hstack : ⟨rspBase, stackSize⟩ ∈ live)
    (hevent : ⟨event, sizeofEvent⟩ ∈ live) (hdistinct : [event, rspBase, t].Nodup) :
    Prepared symbols (writeOwner heap t event).memory t rspBase entry := by
  have hsize : stackSize = 16384 := rfl
  simp only [List.nodup_cons, List.mem_cons, List.not_mem_nil, or_false, not_or] at hdistinct
  have hstackThread := htracks.isolated hstack hthread hdistinct.2.1
  have hstackEvent := htracks.isolated hstack hevent (Ne.symm hdistinct.1.1)
  have hthreadEvent := htracks.isolated hthread hevent (Ne.symm hdistinct.1.2)
  have hbounds := (htracks.bounds hevent).2.2
  have hend := heapEnd_lt
  simp only [Isolated, sizeofThread, sizeofEvent, wordSize] at *
  rw [writeOwner_eq (by omega)]
  have hkept : ∀ target, (target < t + 104 ∨ t + 136 ≤ target) →
      (target < event ∨ event + 8 ≤ target) →
        store (store64 (store64 heap.memory (t + 112) event) event t) 4 (t + 104) 0 target =
          heap.memory target := by
    intro target hoff hoffEvent
    rw [store_of_not_mem (by omega), store64_of_not_mem (by omega),
      store64_of_not_mem (by omega)]
  apply hprepared.congr
  · intro target hlower hupper
    exact hkept target (by omega) (by omega)
  · intro target hlower hupper
    exact hkept target (by omega) (by omega)

/-- A thread that `thread_kcreate` returns has a prepared stack, in blocks of its own. -/
theorem threadKcreate_spec (htracks : HeapState.Tracks ⟨heap, live⟩ layout)
    (hname : name.length < threadMaxNameLength) (hentry : entry < 2 ^ 64)
    (hcreate : threadKcreate symbols heap tid name entry proc = some (heap', t)) :
    ∃ rspBase event layout', Prepared symbols heap'.memory t rspBase entry ∧
      HeapState.Tracks ⟨heap', ⟨event, sizeofEvent⟩ :: ⟨rspBase, stackSize⟩ ::
        ⟨t, sizeofThread⟩ :: live⟩ layout' := by
  simp only [threadKcreate, eventCreate, Option.bind_eq_bind, Option.bind_eq_some_iff,
    Option.some.injEq, Prod.exists, Prod.mk.injEq] at hcreate
  obtain ⟨heap₁, t, hthread, heap₂, rspBase, hstack, heap₃, event,
    ⟨heap₄, event, hevent, rfl, rfl⟩, rfl, rfl⟩ := hcreate
  obtain ⟨layout₁, htracks₁, -⟩ := htracks.kmalloc (by decide) hthread
  have hidentity : HeapState.Tracks
      ⟨writeIdentity heap₁ t name tid proc, ⟨t, sizeofThread⟩ :: live⟩ layout₁ :=
    htracks₁.write List.mem_cons_self (agreeOutside_writeIdentity hname)
  obtain ⟨layout₂, htracks₂, -⟩ := hidentity.kmalloc (by decide) hstack
  have hthreadLive : ⟨t, sizeofThread⟩ ∈
      (⟨rspBase, stackSize⟩ :: ⟨t, sizeofThread⟩ :: live : List Block) := by simp
  have hwritten : HeapState.Tracks ⟨writeStack symbols heap₂ t rspBase entry,
      ⟨rspBase, stackSize⟩ :: ⟨t, sizeofThread⟩ :: live⟩ layout₂ :=
    tracks_writeStack htracks₂ hthreadLive List.mem_cons_self
  obtain ⟨layout₃, htracks₃, hkept⟩ := hwritten.kmalloc (by decide) hevent
  have hdistinct : [event, rspBase, t].Nodup :=
    List.Nodup.sublist (by simp) htracks₃.nodup
  have hprepared : Prepared symbols heap₄.memory t rspBase entry := by
    have hne : rspBase ≠ t := by
      rintro rfl
      simp at hdistinct
    have hapart := htracks₂.isolated List.mem_cons_self hthreadLive hne
    have hbounds := (htracks₂.bounds List.mem_cons_self).2.2
    have hend := heapEnd_lt
    simp only [Isolated, wordSize] at hapart hbounds
    have hstackKept := hwritten.payloadKept hkept List.mem_cons_self fun _ hused _ => hused
    have hthreadKept := hwritten.payloadKept hkept hthreadLive fun _ hused _ => hused
    have hbefore : Prepared symbols (writeStack symbols heap₂ t rspBase entry).memory
        t rspBase entry := prepared_writeStack (by omega) (by omega) hentry
    apply hbefore.congr _ hstackKept
    intro target hlower hupper
    exact hthreadKept target hlower (by simp only [sizeofThread]; omega)
  have hempty : HeapState.Tracks ⟨{ heap₄ with
      memory := storeFields heap₄.memory event (emptyEvent symbols.none) },
      ⟨event, sizeofEvent⟩ :: ⟨rspBase, stackSize⟩ :: ⟨t, sizeofThread⟩ :: live⟩ layout₃ :=
    htracks₃.write List.mem_cons_self agreeOutside_emptyEvent
  refine ⟨rspBase, event, layout₃, ?_, tracks_writeOwner hempty (by simp) (by simp)⟩
  refine Prepared.writeOwner ?_ hempty (by simp) (by simp) (by simp) hdistinct
  simp only [List.nodup_cons, List.mem_cons, List.not_mem_nil, or_false, not_or] at hdistinct
  have hstackEvent := htracks₃.isolated (by simp : ⟨rspBase, stackSize⟩ ∈ _)
    (by simp : ⟨event, sizeofEvent⟩ ∈ _) (Ne.symm hdistinct.1.1)
  have hthreadEvent := htracks₃.isolated (by simp : ⟨t, sizeofThread⟩ ∈ _)
    (by simp : ⟨event, sizeofEvent⟩ ∈ _) (Ne.symm hdistinct.1.2)
  simp only [Isolated, sizeofThread, wordSize] at hstackEvent hthreadEvent
  apply hprepared.congr
  · intro target hlower hupper
    exact agreeOutside_emptyEvent target (by omega)
  · intro target hlower hupper
    exact agreeOutside_emptyEvent target (by omega)

/-- On a fresh heap the three blocks are found. -/
theorem threadKcreate_fresh (memory : Memory) (hname : name.length < threadMaxNameLength) :
    ∃ heap' t, threadKcreate symbols (kmallocInit memory) tid name entry proc =
      some (heap', t) := by
  obtain ⟨heap₁, hthread, layout₁, htracks₁, hchunks₁⟩ :=
    (tracksBump_init memory).kmalloc (show sizeofThread ≤ heapSize by decide) (by decide)
  have hidentity : HeapState.Tracks ⟨writeIdentity heap₁ (heapStart + [].sum + 8) name tid
      proc, [⟨heapStart + [].sum + 8, sizeofThread⟩]⟩ layout₁ :=
    htracks₁.write List.mem_cons_self (agreeOutside_writeIdentity hname)
  obtain ⟨heap₂, hstack, layout₂, htracks₂, hchunks₂⟩ := HeapState.TracksBump.kmalloc
    ⟨layout₁, hidentity, hchunks₁⟩ (show stackSize ≤ heapSize by decide) (by decide)
  have hwritten := @tracks_writeStack symbols heap₂ _ layout₂ _ _ entry htracks₂
    (List.mem_cons_of_mem _ List.mem_cons_self) List.mem_cons_self
  obtain ⟨heap₃, hevent, -⟩ := HeapState.TracksBump.kmalloc
    ⟨layout₂, hwritten, hchunks₂⟩ (show sizeofEvent ≤ heapSize by decide) (by decide)
  simp only at hthread hstack hevent
  simp only [threadKcreate, eventCreate, hthread, Option.bind_eq_bind, Option.bind_some]
  rw [hstack, Option.bind_some, hevent]
  exact ⟨_, _, rfl⟩

end Creation

end Flurry.KernelThread
