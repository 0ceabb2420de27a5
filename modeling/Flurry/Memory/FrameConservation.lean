import Flurry.Memory.Pmm

/-!
# Conservation of physical frames

Clients allocate frames, release them and write to the frames they hold, always
through the higher-half window.  Allocation and client writes conserve the
frames `pmm_init` collected: each of them is on the free list or handed out,
never both.  `pmm_free` does not take part in this.  It links the frame in at
its physical address, which is not mapped, so that releasing any frame at all
ends in a page fault.
-/

namespace Flurry.PhysicalMemory

open ByteMemory

/-- The allocator and the frames handed out and not released. -/
structure FrameState where
  pmm : Pmm
  allocated : List ℕ

/-- What the rest of the kernel does with frames. -/
inductive FrameCall where
  | alloc
  | free (addr : ℕ)
  | write (addr index : ℕ) (byte : Byte)
  deriving DecidableEq

namespace FrameCall

def run (state : FrameState) : FrameCall → Option FrameState
  | alloc => do
      let (pmm, addr) ← pmmAlloc state.pmm
      return { pmm := pmm
               allocated :=
                 if addr = 0 then state.allocated else addr :: state.allocated }
  | free addr => do
      let pmm ← pmmFree state.pmm addr
      return { pmm := pmm, allocated := state.allocated.erase addr }
  | write addr index byte => do
      let phys ← state.pmm.map.translate
        (addr + index + state.pmm.map.hhdmOffset)
      let physical := Function.update state.pmm.map.physical phys byte
      return { state with
               pmm := { state.pmm with
                 map := { state.pmm.map with physical := physical } } }

/-- Clients touch and release only the frames they hold. -/
def Allowed (state : FrameState) : FrameCall → Prop
  | alloc => True
  | free addr => addr ∈ state.allocated
  | write addr index _ => addr ∈ state.allocated ∧ index < pageSize

def IsFree : FrameCall → Prop
  | free _ => True
  | _ => False

end FrameCall

def runFrameCalls (state : FrameState) (calls : List FrameCall) :
    Option FrameState :=
  calls.foldlM FrameCall.run state

/-- Every call of the sequence keeps to the contract in the state it is made
in. -/
def FrameCallsAllowed : FrameState → List FrameCall → Prop
  | _, [] => True
  | state, call :: calls =>
      call.Allowed state ∧
        ∀ next, call.run state = some next → FrameCallsAllowed next calls

/-- The frames on the free list and the frames handed out are exactly
`frames`, with no frame in both and none twice. -/
structure FrameState.Conserves (state : FrameState) (frames : List ℕ) : Prop where
  exact : ∃ free, state.pmm.FreeList free ∧
    (free ++ state.allocated).Perm frames
  nodup : frames.Nodup

/-- Frames on the list and frames handed out are together the frames that
`pmm_init` collected. -/
structure FrameState.Balanced (offset : ℕ) (state : FrameState)
    (free frames : List ℕ) : Prop where
  window : state.pmm.map.hhdmOffset = offset
  threads : state.pmm.Threads free
  perm : (free ++ state.allocated).Perm frames
  nodup : frames.Nodup
  mapped : ∀ frame ∈ frames, FrameMapped offset frame

namespace FrameState.Balanced

variable {offset : ℕ} {state : FrameState} {free frames : List ℕ}

theorem allocated_mem (hbalanced : state.Balanced offset free frames)
    {addr : ℕ} (haddr : addr ∈ state.allocated) : addr ∈ frames :=
  hbalanced.perm.mem_iff.mp (List.mem_append_right free haddr)

theorem allocated_not_mem_free (hbalanced : state.Balanced offset free frames)
    {addr : ℕ} (haddr : addr ∈ state.allocated) : addr ∉ free := by
  intro hfree
  have hnodup := hbalanced.perm.nodup_iff.mpr hbalanced.nodup
  exact (List.nodup_append'.mp hnodup).2.2 hfree haddr

/-- Allocation moves the first free frame to its client. -/
theorem run_alloc (hbalanced : state.Balanced offset free frames) :
    ∃ after : FrameState, FrameCall.alloc.run state = some after ∧
      after.Balanced offset free.tail frames := by
  cases free with
  | nil =>
      refine ⟨state, ?_, hbalanced⟩
      simp [FrameCall.run, pmmAlloc_nil hbalanced.threads]
  | cons frame rest =>
      obtain ⟨pmm, halloc, hfree, hoffset, -⟩ := hbalanced.threads.alloc
      have hmem : frame ∈ frames :=
        hbalanced.perm.mem_iff.mp (by simp)
      have hpositive := (hbalanced.mapped frame hmem).positive
      have hne : frame ≠ 0 := by omega
      refine ⟨{ pmm := pmm, allocated := frame :: state.allocated }, ?_,
        ⟨hoffset.trans hbalanced.window, hfree, ?_, hbalanced.nodup,
          hbalanced.mapped⟩⟩
      · simp [FrameCall.run, halloc, hne]
      · exact List.perm_middle.trans hbalanced.perm

/-- A client write to a frame it holds does not reach the free list. -/
theorem run_write (hbalanced : state.Balanced offset free frames)
    {addr index : ℕ} {byte : Byte} (haddr : addr ∈ state.allocated)
    (hindex : index < pageSize) :
    ∃ after : FrameState,
      (FrameCall.write addr index byte).run state = some after ∧
        after.Balanced offset free frames := by
  have hrun : (FrameCall.write addr index byte).run state =
      some { state with pmm := { state.pmm with map := { state.pmm.map with
        physical := Function.update state.pmm.map.physical (addr + index)
          byte } } } := by
    simp [FrameCall.run]
  refine ⟨_, hrun, ⟨hbalanced.window, hbalanced.threads.write ?_,
    hbalanced.perm, hbalanced.nodup, hbalanced.mapped⟩⟩
  intro frame hframe target hlower hupper
  apply Function.update_of_ne
  have hframeMapped := hbalanced.threads.mapped frame hframe
  rw [hbalanced.window] at hframeMapped
  have haddrMapped := hbalanced.mapped addr (hbalanced.allocated_mem haddr)
  have hdisjoint := hframeMapped.disjoint haddrMapped.toFrameInWindow
    (ne_of_mem_of_not_mem hframe (hbalanced.allocated_not_mem_free haddr))
  omega

/-- One call other than `pmm_free` keeps the balance. -/
theorem step (hbalanced : state.Balanced offset free frames)
    {call : FrameCall} (hallowed : call.Allowed state) (hcall : ¬ call.IsFree) :
    ∃ after : FrameState, call.run state = some after ∧
      after.Balanced offset (free.drop ([call].count .alloc)) frames := by
  cases call with
  | alloc =>
      rw [List.count_singleton_self, List.drop_one]
      exact hbalanced.run_alloc
  | free addr => exact absurd trivial hcall
  | write addr index byte => exact hbalanced.run_write hallowed.1 hallowed.2

/-- Every allocation of a run takes one frame. -/
theorem run (hbalanced : state.Balanced offset free frames) {calls : List FrameCall}
    (hallowed : FrameCallsAllowed state calls) (hcalls : ∀ call ∈ calls, ¬ call.IsFree) :
    ∃ after, runFrameCalls state calls = some after ∧
      after.Balanced offset (free.drop (calls.count .alloc)) frames := by
  induction calls generalizing state free with
  | nil => exact ⟨state, rfl, hbalanced⟩
  | cons call calls ih =>
      obtain ⟨next, hrun, hnext⟩ := hbalanced.step hallowed.1 (hcalls call (by simp))
      obtain ⟨after, hafter, hbalanced'⟩ := ih hnext (hallowed.2 next hrun)
        fun other hother => hcalls other (by simp [hother])
      refine ⟨after, ?_, ?_⟩
      · simpa [runFrameCalls, hrun] using hafter
      · rwa [List.drop_drop, ← List.count_append] at hbalanced'

end FrameState.Balanced

/-- What a run without releases keeps. -/
structure FrameState.Accounted (offset : ℕ) (state : FrameState)
    (free frames : List ℕ) : Prop extends state.Balanced offset free frames where
  physical : ∀ frame ∈ frames, frame + pageSize ≤ 2 ^ 52

namespace FrameState.Accounted

variable {offset : ℕ} {state : FrameState} {free frames : List ℕ}

theorem freeList (haccounted : state.Accounted offset free frames) :
    state.pmm.FreeList free where
  toThreads := haccounted.threads
  physical := fun frame hframe =>
    haccounted.physical frame (haccounted.perm.mem_iff.mp (List.mem_append_left _ hframe))

/-- The pointer `pmm_free` writes through lies below the window. -/
theorem run_free (haccounted : state.Accounted offset free frames)
    (hhigher : 2 ^ 63 ≤ offset) {addr : ℕ} (haddr : addr ∈ state.allocated) :
    (FrameCall.free addr).run state = none := by
  have hmapped := (haccounted.mapped addr (haccounted.allocated_mem haddr)).mapped
  have hbelow : addr + 8 < state.pmm.map.hhdmOffset := by
    rw [haccounted.window]
    simp only [pageSize] at hmapped
    omega
  simp [FrameCall.run, pmmFree, DirectMap.write64,
    DirectMap.translate_of_lt hbelow]

theorem conserves (haccounted : state.Accounted offset free frames) :
    state.Conserves frames :=
  ⟨⟨free, haccounted.freeList, haccounted.perm⟩, haccounted.nodup⟩

/-- One call other than `pmm_free` keeps the account. -/
theorem step (haccounted : state.Accounted offset free frames)
    {call : FrameCall} (hallowed : call.Allowed state) (hcall : ¬ call.IsFree) :
    ∃ (after : FrameState) (free' : List ℕ), call.run state = some after ∧
      after.Accounted offset free' frames := by
  obtain ⟨after, hrun, hbalanced⟩ := haccounted.toBalanced.step hallowed hcall
  exact ⟨after, _, hrun, hbalanced, haccounted.physical⟩

/-- A whole run conserves the frames exactly when it releases none. -/
theorem run_conserves_iff (haccounted : state.Accounted offset free frames)
    (hhigher : 2 ^ 63 ≤ offset) (calls : List FrameCall)
    (hallowed : FrameCallsAllowed state calls) :
    (∃ after, runFrameCalls state calls = some after ∧ after.Conserves frames) ↔
      ∀ call ∈ calls, ¬ call.IsFree := by
  induction calls generalizing state free with
  | nil => simpa [runFrameCalls] using haccounted.conserves
  | cons call calls ih =>
      obtain ⟨hcallAllowed, hrest⟩ := hallowed
      by_cases hcall : call.IsFree
      · cases call with
        | alloc => exact absurd hcall id
        | write addr index byte => exact absurd hcall id
        | free addr =>
            have hfault := haccounted.run_free hhigher hcallAllowed
            simp [runFrameCalls, hfault, FrameCall.IsFree]
      · obtain ⟨next, free', hrun, hnext⟩ := haccounted.step hcallAllowed hcall
        have htail := ih hnext (hrest next hrun)
        simpa [runFrameCalls, hrun, hcall] using htail

end FrameState.Accounted

/-- The state `pmm_init` leaves: every frame it collected is free. -/
theorem accounted_pmmInit (physical : Memory) {offset : ℕ}
    {memoryMap : PhysMemoryMap} (hboot : BootMap offset memoryMap) :
    ∃ pmm : Pmm, pmmInit physical offset memoryMap = some pmm ∧
      ({ pmm := pmm, allocated := [] } : FrameState).Accounted offset
        (usableFrames (memoryMap.entries.drop 1)).reverse
        (usableFrames (memoryMap.entries.drop 1)).reverse := by
  obtain ⟨pmm, hinit, hfree, hoffset⟩ := pmmInit_spec physical hboot
  refine ⟨pmm, hinit, ⟨hoffset, hfree.toThreads, by simp, hfree.nodup, ?_⟩, hfree.physical⟩
  intro frame hframe
  rw [← hoffset]
  exact hfree.mapped frame hframe

/-- From the state `pmm_init` leaves, a run of the allocator's clients conserves
the frames if and only if it never calls `pmm_free`. -/
theorem frames_conserved_iff_no_free (physical : Memory) (offset : ℕ)
    (memoryMap : PhysMemoryMap) (hboot : BootMap offset memoryMap) :
    ∃ (pmm : Pmm) (frames : List ℕ),
      pmmInit physical offset memoryMap = some pmm ∧ pmm.FreeList frames ∧
        ∀ calls, FrameCallsAllowed { pmm := pmm, allocated := [] } calls →
          ((∃ after,
              runFrameCalls { pmm := pmm, allocated := [] } calls = some after ∧
                after.Conserves frames) ↔
            ∀ call ∈ calls, ¬ call.IsFree) := by
  obtain ⟨pmm, hinit, haccounted⟩ := accounted_pmmInit physical hboot
  refine ⟨pmm, _, hinit, haccounted.freeList, ?_⟩
  intro calls hallowed
  exact haccounted.run_conserves_iff hboot.higherHalf calls hallowed

/-- One reserved page and one usable page. -/
def onePageMap : PhysMemoryMap where
  entries := [⟨0, 0x1000, .reserved⟩, ⟨0x1000, 0x1000, .usable⟩]

theorem bootMap_onePageMap : BootMap 0xffff800000000000 onePageMap where
  higherHalf := by decide
  aligned := by decide
  positive := by decide
  physical := by decide
  mapped := by decide
  disjoint := by decide

/-- Its only frame is at `0x1000`. -/
theorem pmmAlloc_onePageMap {pmm : Pmm}
    (hinit : pmmInit (fun _ => 0) 0xffff800000000000 onePageMap = some pmm) :
    pmm.FreeList [0x1000] ∧ ∃ after, pmmAlloc pmm = some (after, 0x1000) := by
  obtain ⟨pmm', hinit', haccounted⟩ := accounted_pmmInit (fun _ => 0) bootMap_onePageMap
  obtain rfl := Option.some.inj (hinit.symm.trans hinit')
  have hframes : (usableFrames (onePageMap.entries.drop 1)).reverse = [0x1000] := by
    decide
  rw [hframes] at haccounted
  obtain ⟨after, halloc, -⟩ := pmmAlloc_cons haccounted.freeList
  exact ⟨haccounted.freeList, after, halloc⟩

/-- A client that keeps its frame and one that releases it. -/
theorem frames_conserved_iff_no_free_onePageMap :
    ∃ pmm frames, pmmInit (fun _ => 0) 0xffff800000000000 onePageMap = some pmm ∧
      pmm.FreeList frames ∧
      (∃ after, runFrameCalls { pmm := pmm, allocated := [] }
          [.alloc, .write 0x1000 8 255] = some after ∧ after.Conserves frames) ∧
      ¬∃ after, runFrameCalls { pmm := pmm, allocated := [] }
          [.alloc, .free 0x1000] = some after ∧ after.Conserves frames := by
  obtain ⟨pmm, frames, hinit, hfree, hconserves⟩ := frames_conserved_iff_no_free (fun _ => 0)
    0xffff800000000000 onePageMap bootMap_onePageMap
  obtain ⟨-, after, halloc⟩ := pmmAlloc_onePageMap hinit
  refine ⟨pmm, frames, hinit, hfree, (hconserves _ ?_).mpr ?_, mt (hconserves _ ?_).mp ?_⟩
  · simp [FrameCallsAllowed, FrameCall.Allowed, FrameCall.run, halloc, pageSize]
  · simp [FrameCall.IsFree]
  · simp [FrameCallsAllowed, FrameCall.Allowed, FrameCall.run, halloc]
  · simp [FrameCall.IsFree]

/-- Allocating the only frame and releasing it again keeps to the contract of
the allocator, and does not conserve the frame: `pmm_free` faults. -/
theorem frames_not_conserved_onePageMap :
    ∃ pmm : Pmm,
      pmmInit (fun _ => 0) 0xffff800000000000 onePageMap = some pmm ∧
        pmm.FreeList [0x1000] ∧
          FrameCallsAllowed { pmm := pmm, allocated := [] }
              [.alloc, .free 0x1000] ∧
            ¬ ∃ after, runFrameCalls { pmm := pmm, allocated := [] }
                  [.alloc, .free 0x1000] = some after ∧
                after.Conserves [0x1000] := by
  obtain ⟨pmm, hinit, haccounted⟩ :=
    accounted_pmmInit (fun _ => 0) bootMap_onePageMap
  obtain ⟨hfree, after, halloc⟩ := pmmAlloc_onePageMap hinit
  have hframes : (usableFrames (onePageMap.entries.drop 1)).reverse = [0x1000] := by
    decide
  rw [hframes] at haccounted
  have hallowed : FrameCallsAllowed { pmm := pmm, allocated := [] }
      [.alloc, .free 0x1000] := by
    simp [FrameCallsAllowed, FrameCall.Allowed, FrameCall.run, halloc]
  refine ⟨pmm, hinit, hfree, hallowed, ?_⟩
  rw [haccounted.run_conserves_iff bootMap_onePageMap.higherHalf _ hallowed]
  simp [FrameCall.IsFree]

end Flurry.PhysicalMemory
