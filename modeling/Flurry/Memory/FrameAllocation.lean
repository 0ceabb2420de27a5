import Flurry.Memory.FrameConservation

/-!
# What `pmm_alloc` hands out

Between two allocations clients may write anything to the frames they hold.  The
frames still on the list are not among them, so every allocation finds the links
that `pmm_init` left, and returns a zeroed frame that nobody else has.
-/

namespace Flurry.PhysicalMemory

open ByteMemory

/-- A page inside one of the usable entries. -/
def PhysMemoryMap.IsUsable (memoryMap : PhysMemoryMap) (addr : ℕ) : Prop :=
  addr % pageSize = 0 ∧ ∃ entry ∈ memoryMap.entries, entry.type = .usable ∧
    entry.base ≤ addr ∧ addr + pageSize ≤ entry.base + entry.length

theorem UsableMap.isUsable {offset frame : ℕ} {memoryMap : PhysMemoryMap}
    (hmap : UsableMap offset memoryMap)
    (hframe : frame ∈ usableFrames (memoryMap.entries.drop 1)) :
    memoryMap.IsUsable frame := by
  obtain ⟨entry, hentry, husable, hmem⟩ := mem_usableFrames.mp hframe
  have hmember := List.mem_of_mem_drop hentry
  obtain ⟨haligned, hlower, hupper⟩ :=
    mem_frames (hmap.aligned entry hmember husable) hmem
  exact ⟨haligned, entry, hmember, husable, hlower, hupper⟩

/-- The state `pmm_init` leaves: every frame it collected is free. -/
theorem UsableMap.balanced_pmmInit (physical : Memory) {offset : ℕ}
    {memoryMap : PhysMemoryMap} (hmap : UsableMap offset memoryMap) :
    ∃ pmm : Pmm, pmmInit physical offset memoryMap = some pmm ∧
      ({ pmm := pmm, allocated := [] } : FrameState).Balanced offset
        (usableFrames (memoryMap.entries.drop 1)).reverse
        (usableFrames (memoryMap.entries.drop 1)).reverse := by
  obtain ⟨pmm, hinit, hfree, hoffset⟩ := hmap.pmmInit_spec physical
  refine ⟨pmm, hinit, ⟨hoffset, hfree, by simp, hfree.nodup, ?_⟩⟩
  intro frame hframe
  rw [← hoffset]
  exact hfree.mapped frame hframe

/-- One allocation: a new frame of zeros, or 0 if there is none left. -/
theorem FrameState.Balanced.alloc {offset : ℕ} {state : FrameState} {free frames : List ℕ}
    (hbalanced : state.Balanced offset free frames) :
    ∃ after addr, pmmAlloc state.pmm = some (after, addr) ∧
      (addr ≠ 0 → addr ∈ frames ∧ addr ∉ state.allocated ∧
        ∀ index < pageSize, after.map.physical (addr + index) = 0) ∧
      (addr = 0 ↔ free = []) := by
  cases free with
  | nil => exact ⟨state.pmm, 0, pmmAlloc_nil hbalanced.threads, by simp⟩
  | cons frame rest =>
      obtain ⟨after, halloc, -, -, hphysical⟩ := hbalanced.threads.alloc
      have hmem : frame ∈ frames := hbalanced.perm.mem_iff.mp (by simp)
      have hpositive := (hbalanced.mapped frame hmem).positive
      refine ⟨after, frame, halloc, fun _ => ⟨hmem, ?_, ?_⟩, by simp; omega⟩
      · exact fun hheld => hbalanced.allocated_not_mem_free hheld (by simp)
      · intro index hindex
        rw [hphysical]
        exact fill_of_mem (by omega) (by omega)

/-- After any allocations and client writes, `pmm_alloc` returns a frame of a usable
entry that it has not returned before, all zero; it returns 0 exactly when it has
been called as often as there are frames on the list. -/
theorem frames_distinct_usable_clean (physical : Memory) (offset : ℕ)
    (memoryMap : PhysMemoryMap) (hmap : UsableMap offset memoryMap) :
    ∃ pmm : Pmm, pmmInit physical offset memoryMap = some pmm ∧
      pmm.Threads (usableFrames (memoryMap.entries.drop 1)).reverse ∧
        ∀ calls, FrameCallsAllowed { pmm := pmm, allocated := [] } calls →
          (∀ call ∈ calls, ¬ call.IsFree) →
            ∃ state after addr,
              runFrameCalls { pmm := pmm, allocated := [] } calls = some state ∧
              pmmAlloc state.pmm = some (after, addr) ∧
              (addr ≠ 0 → memoryMap.IsUsable addr ∧ addr ∉ state.allocated ∧
                ∀ index < pageSize, after.map.physical (addr + index) = 0) ∧
              (addr = 0 ↔ (usableFrames (memoryMap.entries.drop 1)).length ≤
                calls.count .alloc) := by
  obtain ⟨pmm, hinit, hbalanced⟩ := hmap.balanced_pmmInit physical
  refine ⟨pmm, hinit, hbalanced.threads, ?_⟩
  intro calls hallowed hcalls
  obtain ⟨state, hrun, hstate⟩ := hbalanced.run hallowed hcalls
  obtain ⟨after, addr, halloc, hframe, hzero⟩ := hstate.alloc
  refine ⟨state, after, addr, hrun, halloc, ?_, ?_⟩
  · intro hne
    obtain ⟨hmem, hnew, hclean⟩ := hframe hne
    exact ⟨hmap.isUsable (List.mem_reverse.mp hmem), hnew, hclean⟩
  · rw [hzero, List.drop_eq_nil_iff, List.length_reverse]

/-- Two usable pages: the client writes to the first one before it asks for the
second. -/
theorem frames_distinct_usable_clean_two_pages :
    ∃ (pmm : Pmm) (state : FrameState) (after : Pmm) (addr : ℕ),
      pmmInit (fun _ => 7) 0xffff800000000000
          ⟨[⟨0, 0x1000, .reserved⟩, ⟨0x1000, 0x2000, .usable⟩]⟩ = some pmm ∧
        runFrameCalls { pmm := pmm, allocated := [] }
            [.alloc, .write 0x2000 8 255] = some state ∧
          pmmAlloc state.pmm = some (after, addr) ∧ addr ≠ 0 ∧ addr ∉ state.allocated ∧
            ∀ index < pageSize, after.map.physical (addr + index) = 0 := by
  obtain ⟨pmm, hinit, hthreads, hruns⟩ := frames_distinct_usable_clean (fun _ => 7)
    0xffff800000000000 ⟨[⟨0, 0x1000, .reserved⟩, ⟨0x1000, 0x2000, .usable⟩]⟩
    ⟨⟨⟨by decide, by decide, by decide⟩, by decide⟩, by decide⟩
  have hframes : (usableFrames (List.drop 1 [⟨0, 0x1000, .reserved⟩,
      ⟨0x1000, 0x2000, .usable⟩])).reverse = [0x2000, 0x1000] := by
    decide
  rw [hframes] at hthreads
  obtain ⟨first, halloc, -⟩ := hthreads.alloc
  have hallowed : FrameCallsAllowed { pmm := pmm, allocated := [] }
      [.alloc, .write 0x2000 8 255] := by
    simp [FrameCallsAllowed, FrameCall.Allowed, FrameCall.run, halloc, pageSize]
  obtain ⟨state, after, addr, hrun, hnext, hframe, hzero⟩ :=
    hruns _ hallowed (by simp [FrameCall.IsFree])
  have hne : addr ≠ 0 := by
    rw [ne_eq, hzero]
    decide
  obtain ⟨-, hnew, hclean⟩ := hframe hne
  exact ⟨pmm, state, after, addr, hinit, hrun, hnext, hne, hnew, hclean⟩

end Flurry.PhysicalMemory
