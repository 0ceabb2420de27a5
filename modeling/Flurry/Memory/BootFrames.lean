import Flurry.Memory.Pmm

/-!
# The frames that boot hands to the allocator

`kentry` copies the boot loader's memory map entry by entry into an array on the
stack, and `pmm_init` puts the pages of the usable entries on the free list.  Two
things go wrong on the way.  `pmm_init` starts with the second entry, so the pages
of the first are lost.  `kentry` has no default case, so an entry of a type it does
not know keeps the word that its slot of the array had before.
-/

namespace Flurry.PhysicalMemory

open ByteMemory

/-! ## Frames that are lost -/

/-- The links lead through one list of frames only. -/
theorem Chain.unique {map : DirectMap} {head : ℕ} {frames frames' : List ℕ}
    (hoffset : 0 < map.hhdmOffset) (hchain : Chain map head frames)
    (hchain' : Chain map head frames') : frames = frames' := by
  induction frames generalizing head frames' with
  | nil =>
      cases frames' with
      | nil => rfl
      | cons frame' rest' =>
          have hnull : head = 0 := hchain
          have hhead := hchain'.1
          omega
  | cons frame rest ih =>
      obtain ⟨hhead, -, hrest⟩ := hchain
      cases frames' with
      | nil =>
          have hnull : head = 0 := hchain'
          omega
      | cons frame' rest' =>
          obtain ⟨hhead', -, hrest'⟩ := hchain'
          obtain rfl : frame = frame' := by omega
          rw [ih hrest hrest']

/-- An aligned entry has no frames only if it is empty. -/
theorem usableFrames_singleton_eq_nil {entry : PhysMemoryRegion}
    (haligned : entry.type = .usable → entry.length % pageSize = 0) :
    usableFrames [entry] = [] ↔ (entry.type = .usable → entry.length = 0) := by
  by_cases husable : entry.type = .usable
  · have hlength := haligned husable
    rw [← List.length_eq_zero_iff]
    simp only [usableFrames, husable, decide_true, List.filter_cons_of_pos,
      List.filter_nil, List.flatMap_cons, List.flatMap_nil, List.append_nil,
      PhysMemoryRegion.frames, length_pagesFrom, forall_const]
    unfold pageSize at hlength ⊢
    omega
  · simp [usableFrames, husable]

/-- The free list after `pmm_init` has the pages of all usable entries, each of them once,
exactly if the first entry of the map has none. -/
theorem all_usable_frames_listed_iff (physical : Memory) {offset : ℕ}
    {memoryMap : PhysMemoryMap} (hoffset : 0 < offset)
    (hmap : WholePages offset memoryMap) :
    (∃ pmm frames, pmmInit physical offset memoryMap = some pmm ∧ pmm.Lists frames ∧
      frames.Perm (usableFrames memoryMap.entries)) ↔
        ∀ entry ∈ memoryMap.entries.head?, entry.type = .usable → entry.length = 0 := by
  obtain ⟨pmm, hinit, hlists, hwindow⟩ := hmap.pmmInit_spec physical
  have hlisted : (∃ pmm frames, pmmInit physical offset memoryMap = some pmm ∧
      pmm.Lists frames ∧ frames.Perm (usableFrames memoryMap.entries)) ↔
        (usableFrames (memoryMap.entries.drop 1)).Perm (usableFrames memoryMap.entries) := by
    constructor
    · rintro ⟨other, frames, hother, hframes, hperm⟩
      obtain rfl : pmm = other := Option.some.inj (hinit.symm.trans hother)
      obtain rfl := hlists.chain.unique (hwindow.symm ▸ hoffset) hframes.chain
      exact (List.reverse_perm _).symm.trans hperm
    · intro hperm
      exact ⟨pmm, _, hinit, hlists, (List.reverse_perm _).trans hperm⟩
  rw [hlisted]
  cases hentries : memoryMap.entries with
  | nil => simp
  | cons first entries =>
      have haligned := hmap.aligned first (by simp [hentries])
      rw [usableFrames_cons, List.head?_cons, List.drop_one, List.tail_cons]
      simp only [Option.mem_def, Option.some.injEq, forall_eq']
      rw [← usableFrames_singleton_eq_nil fun husable => (haligned husable).2]
      constructor
      · intro hperm
        have hlength := hperm.length_eq
        rw [List.length_append] at hlength
        exact List.length_eq_zero_iff.mp (by omega)
      · intro hempty
        rw [hempty, List.nil_append]

/-- A reserved page in front of the usable ones. -/
theorem all_usable_frames_listed_iff_reserved_first :
    ∃ pmm frames,
      pmmInit (fun _ => 7) 0xffff800000000000
          ⟨[⟨0, 0x1000, .reserved⟩, ⟨0x1000, 0x2000, .usable⟩]⟩ = some pmm ∧
        pmm.Lists frames ∧ frames.Perm [0x1000, 0x2000] :=
  (all_usable_frames_listed_iff (fun _ => 7) (by decide)
    ⟨⟨by decide, by decide, by decide⟩, by decide⟩).mpr (by decide)

/-- The only usable page stands first in the map, and the free list stays empty. -/
theorem first_usable_frame_lost :
    WholePages 0xffff800000000000 ⟨[⟨0x1000, 0x1000, .usable⟩]⟩ ∧
      usableFrames [⟨0x1000, 0x1000, .usable⟩] = [0x1000] ∧
        ∃ pmm, pmmInit (fun _ => 0) 0xffff800000000000
            ⟨[⟨0x1000, 0x1000, .usable⟩]⟩ = some pmm ∧ pmm.freeListHead = 0 ∧
          ¬∃ frames, pmm.Lists frames ∧ frames.Perm [0x1000] := by
  refine ⟨⟨⟨by decide, by decide, by decide⟩, by decide⟩, by decide, _, rfl, rfl, ?_⟩
  rintro ⟨frames, hframes, hperm⟩
  have hnil : ([] : List ℕ) = frames := Chain.unique (by decide) rfl hframes.chain
  rw [← hnil] at hperm
  simpa using hperm.length_eq

/-! ## The map that `kentry` builds -/

/-- An entry of the boot loader's response; all fields have 64 bits. -/
structure LimineMemmapEntry where
  base : ℕ
  length : ℕ
  type : ℕ
  deriving DecidableEq, Repr

def limineMemmapUsable : ℕ := 0
def limineMemmapReserved : ℕ := 1
def limineMemmapAcpiReclaimable : ℕ := 2
def limineMemmapAcpiNvs : ℕ := 3
def limineMemmapBadMemory : ℕ := 4
def limineMemmapBootloaderReclaimable : ℕ := 5
def limineMemmapKernelAndModules : ℕ := 6
def limineMemmapFramebuffer : ℕ := 7

/-- The enumerator with the value of the word. -/
def PhysMemoryRegionType.ofWord (word : BitVec 32) : PhysMemoryRegionType :=
  if hword : 8 ≤ word.toNat then .other word hword
  else match word.toNat with
    | 0 => .usable
    | 1 => .reserved
    | 2 => .acpiReclaimable
    | 3 => .acpiNvs
    | 4 => .badMemory
    | 5 => .bootloaderReclaimable
    | 6 => .kernelAndModules
    | _ => .framebuffer

/-- The `switch` of `kentry`.  It has no default: a type without a case leaves the word
that was in the array. -/
def kentryType (type : ℕ) (stale : BitVec 32) : PhysMemoryRegionType :=
  if type = limineMemmapUsable then .usable
  else if type = limineMemmapReserved then .reserved
  else if type = limineMemmapAcpiReclaimable then .acpiReclaimable
  else if type = limineMemmapAcpiNvs then .acpiNvs
  else if type = limineMemmapBootloaderReclaimable then .bootloaderReclaimable
  else if type = limineMemmapFramebuffer then .framebuffer
  else if type = limineMemmapBadMemory then .badMemory
  else if type = limineMemmapKernelAndModules then .kernelAndModules
  else .ofWord stale

/-- An entry of the response and the word that its slot of the array on the stack has for
the type before the loop runs. -/
structure MapSlot where
  entry : LimineMemmapEntry
  stale : BitVec 32
  deriving DecidableEq, Repr

/-- One iteration of the loop of `kentry`. -/
def kentryRegion (slot : MapSlot) : PhysMemoryRegion where
  base := slot.entry.base
  length := slot.entry.length
  type := kentryType slot.entry.type slot.stale

def kentryMemoryMap (slots : List MapSlot) : PhysMemoryMap where
  entries := slots.map kentryRegion

/-- No case of the `switch` is for this type. -/
def UnknownType (type : ℕ) : Prop := limineMemmapFramebuffer < type

instance (type : ℕ) : Decidable (UnknownType type) :=
  inferInstanceAs (Decidable (_ < _))

theorem ofWord_eq_usable_iff (word : BitVec 32) :
    PhysMemoryRegionType.ofWord word = .usable ↔ word = 0 := by
  rw [PhysMemoryRegionType.ofWord, ← BitVec.toNat_inj]
  split
  · rename_i hword
    exact iff_of_false (by simp) (by simp; omega)
  · split <;> simp_all

/-- An entry counts as usable if the boot loader says so, or if its type is unknown and the
array had a 0 there. -/
theorem kentryType_eq_usable_iff (type : ℕ) (stale : BitVec 32) :
    kentryType type stale = .usable ↔
      type = limineMemmapUsable ∨ UnknownType type ∧ stale = 0 := by
  by_cases hknown : type ≤ 7
  · interval_cases type <;>
      simp [kentryType, UnknownType, limineMemmapUsable, limineMemmapReserved,
        limineMemmapAcpiReclaimable, limineMemmapAcpiNvs, limineMemmapBadMemory,
        limineMemmapBootloaderReclaimable, limineMemmapKernelAndModules,
        limineMemmapFramebuffer]
  · have hswitch : kentryType type stale = .ofWord stale := by
      unfold kentryType limineMemmapUsable limineMemmapReserved
        limineMemmapAcpiReclaimable limineMemmapAcpiNvs limineMemmapBootloaderReclaimable
        limineMemmapFramebuffer limineMemmapBadMemory limineMemmapKernelAndModules
      repeat rw [if_neg (by omega)]
    have hunknown : UnknownType type := Nat.lt_of_not_le hknown
    have hne : type ≠ limineMemmapUsable := by
      unfold limineMemmapUsable
      omega
    rw [hswitch, ofWord_eq_usable_iff]
    simp [hunknown, hne]

/-! ## What `pmm_init` puts on the list -/

/-- `pmm_init`'s inner loop with the frames it puts on the list, also if it then faults or
is still running after `fuel` iterations. -/
def pmmInitRegionLog (stop : ℕ) : ℕ → ℕ → Pmm → List ℕ × Option Pmm
  | 0, addr, pmm => ([], if addr < stop then none else some pmm)
  | fuel + 1, addr, pmm =>
      if addr < stop then
        match pushPage pmm addr with
        | none => ([], none)
        | some pmm =>
            let (log, after) := pmmInitRegionLog stop fuel (wrap64 (addr + pageSize)) pmm
            (addr :: log, after)
      else ([], some pmm)

def pmmInitEntryLog (pmm : Pmm) (entry : PhysMemoryRegion) : List ℕ × Option Pmm :=
  if entry.type ≠ .usable then ([], some pmm)
  else pmmInitRegionLog (wrap64 (entry.base + entry.length)) pageCount entry.base pmm

def pmmInitEntriesLog : List PhysMemoryRegion → Pmm → List ℕ × Option Pmm
  | [], pmm => ([], some pmm)
  | entry :: entries, pmm =>
      match pmmInitEntryLog pmm entry with
      | (log, none) => (log, none)
      | (log, some pmm) =>
          let (rest, after) := pmmInitEntriesLog entries pmm
          (log ++ rest, after)

def pmmInitLog (physical : Memory) (offset : ℕ) (memoryMap : PhysMemoryMap) :
    List ℕ × Option Pmm :=
  pmmInitEntriesLog (memoryMap.entries.drop 1)
    { map := { physical := physical, hhdmOffset := offset }, freeListHead := 0 }

theorem pmmInitRegionLog_snd (stop fuel addr : ℕ) (pmm : Pmm) :
    (pmmInitRegionLog stop fuel addr pmm).2 = pmmInitRegion stop fuel addr pmm := by
  induction fuel generalizing addr pmm with
  | zero => rfl
  | succ fuel ih =>
      rw [pmmInitRegionLog, pmmInitRegion]
      split
      · cases hpush : pushPage pmm addr with
        | none => rfl
        | some pushed => exact ih _ pushed
      · rfl

theorem pmmInitEntryLog_snd (pmm : Pmm) (entry : PhysMemoryRegion) :
    (pmmInitEntryLog pmm entry).2 = pmmInitEntry pmm entry := by
  rw [pmmInitEntryLog, pmmInitEntry]
  split
  · rfl
  · exact pmmInitRegionLog_snd _ _ _ _

/-- The log is kept beside the run of `pmm_init` and does not change it. -/
theorem pmmInitLog_snd (physical : Memory) (offset : ℕ) (memoryMap : PhysMemoryMap) :
    (pmmInitLog physical offset memoryMap).2 = pmmInit physical offset memoryMap := by
  have hentries : ∀ (entries : List PhysMemoryRegion) (pmm : Pmm),
      (pmmInitEntriesLog entries pmm).2 = entries.foldlM pmmInitEntry pmm := by
    intro entries
    induction entries with
    | nil => exact fun pmm => rfl
    | cons entry entries ih =>
        intro pmm
        have hentry := pmmInitEntryLog_snd pmm entry
        rw [pmmInitEntriesLog, List.foldlM_cons, ← hentry]
        match pmmInitEntryLog pmm entry with
        | (log, none) => rfl
        | (log, some next) => exact ih next
  exact hentries _ _

section Log

variable {offset : ℕ} {pmm : Pmm}

/-- The pages of a region that lies in the window are put on the list one after the
other. -/
theorem pmmInitRegionLog_spec {stop fuel addr : ℕ} (hoffset : pmm.map.hhdmOffset = offset)
    (hhigher : 2 ^ 63 ≤ offset) (hmapped : stop + offset ≤ 2 ^ 64)
    (hfuel : stop ≤ addr + fuel * pageSize) :
    (∃ after, (pmmInitRegionLog stop fuel addr pmm).2 = some after ∧
      after.map.hhdmOffset = offset) ∧
    (∀ frame ∈ (pmmInitRegionLog stop fuel addr pmm).1,
      addr ≤ frame ∧ frame < stop ∧ frame % pageSize = addr % pageSize) ∧
    (addr < stop → addr ∈ (pmmInitRegionLog stop fuel addr pmm).1) := by
  induction fuel generalizing addr pmm with
  | zero =>
      have hdone : ¬addr < stop := by omega
      simp [pmmInitRegionLog, hdone, hoffset]
  | succ fuel ih =>
      by_cases hmore : addr < stop
      · have hpush := pushPage_eq (show addr + pmm.map.hhdmOffset < 2 ^ 64 by omega)
        have hwrap : wrap64 (addr + pageSize) = addr + pageSize :=
          wrap64_of_lt (by unfold pageSize; omega)
        have hfuel' : stop ≤ addr + pageSize + fuel * pageSize := by
          rw [Nat.add_mul, Nat.one_mul] at hfuel
          omega
        obtain ⟨hreturns, hframes, -⟩ := @ih (pushedPage pmm addr) _ hoffset hfuel'
        simp only [pmmInitRegionLog, if_pos hmore, hpush, hwrap]
        refine ⟨hreturns, ?_, fun _ => List.mem_cons_self⟩
        intro frame hframe
        rcases List.mem_cons.mp hframe with rfl | hrest
        · exact ⟨le_rfl, hmore, rfl⟩
        · obtain ⟨hlower, hupper, hmod⟩ := hframes frame hrest
          rw [Nat.add_mod_right] at hmod
          exact ⟨by omega, hupper, hmod⟩
      · simp [pmmInitRegionLog, hmore, hoffset]

/-- The frames of one entry: none, unless it counts as usable. -/
theorem pmmInitEntryLog_spec {entry : PhysMemoryRegion}
    (hoffset : pmm.map.hhdmOffset = offset) (hhigher : 2 ^ 63 ≤ offset)
    (hmapped : entry.type = .usable → entry.base + entry.length + offset ≤ 2 ^ 64) :
    (∃ after, (pmmInitEntryLog pmm entry).2 = some after ∧
      after.map.hhdmOffset = offset) ∧
    (∀ frame ∈ (pmmInitEntryLog pmm entry).1, entry.type = .usable ∧ entry.base ≤ frame ∧
      frame < entry.base + entry.length ∧ frame % pageSize = entry.base % pageSize) ∧
    (entry.type = .usable → 0 < entry.length →
      entry.base ∈ (pmmInitEntryLog pmm entry).1) := by
  by_cases husable : entry.type = .usable
  · have hinside := hmapped husable
    have hwrap : wrap64 (entry.base + entry.length) = entry.base + entry.length :=
      wrap64_of_lt (by omega)
    have hfuel : entry.base + entry.length ≤ entry.base + pageCount * pageSize := by
      unfold pageCount pageSize
      omega
    obtain ⟨hreturns, hframes, hfirst⟩ :=
      pmmInitRegionLog_spec hoffset hhigher hinside hfuel
    rw [pmmInitEntryLog, if_neg (not_not.mpr husable), hwrap]
    exact ⟨hreturns, fun frame hframe => ⟨husable, hframes frame hframe⟩,
      fun _ hlength => hfirst (by omega)⟩
  · simp [pmmInitEntryLog, husable, hoffset]

/-- The frames of all entries together. -/
theorem pmmInitEntriesLog_spec {entries : List PhysMemoryRegion}
    (hoffset : pmm.map.hhdmOffset = offset) (hhigher : 2 ^ 63 ≤ offset)
    (hmapped : ∀ entry ∈ entries, entry.type = .usable →
      entry.base + entry.length + offset ≤ 2 ^ 64) :
    (∀ frame ∈ (pmmInitEntriesLog entries pmm).1, ∃ entry ∈ entries,
      entry.type = .usable ∧ entry.base ≤ frame ∧ frame < entry.base + entry.length ∧
        frame % pageSize = entry.base % pageSize) ∧
    (∀ entry ∈ entries, entry.type = .usable → 0 < entry.length →
      entry.base ∈ (pmmInitEntriesLog entries pmm).1) := by
  induction entries generalizing pmm with
  | nil => simp [pmmInitEntriesLog]
  | cons entry entries ih =>
      obtain ⟨⟨next, hnext, hwindow⟩, hframes, hfirst⟩ :=
        pmmInitEntryLog_spec hoffset hhigher (hmapped entry List.mem_cons_self)
      obtain ⟨hrest, hfirsts⟩ := ih hwindow fun other hother =>
        hmapped other (List.mem_cons_of_mem entry hother)
      have hlog : (pmmInitEntriesLog (entry :: entries) pmm).1 =
          (pmmInitEntryLog pmm entry).1 ++ (pmmInitEntriesLog entries next).1 := by
        rw [pmmInitEntriesLog]
        match hresult : pmmInitEntryLog pmm entry with
        | (log, none) => simp [hresult] at hnext
        | (log, some after) =>
            rw [hresult] at hnext
            rw [Option.some.inj hnext]
      rw [hlog]
      constructor
      · intro frame hframe
        rcases List.mem_append.mp hframe with hframe | hframe
        · exact ⟨entry, List.mem_cons_self, hframes frame hframe⟩
        · obtain ⟨other, hother, hinside⟩ := hrest frame hframe
          exact ⟨other, List.mem_cons_of_mem entry hother, hinside⟩
      · intro other hother husable hlength
        rcases List.mem_cons.mp hother with rfl | hother
        · exact List.mem_append_left _ (hfirst husable hlength)
        · exact List.mem_append_right _ (hfirsts other hother husable hlength)

end Log

/-- What the boot loader promises about its memory map: the window is in the higher half
and has room for the entries, usable memory comes in whole pages and does not overlap with
anything else. -/
structure LimineMemmap (offset : ℕ) (entries : List LimineMemmapEntry) : Prop where
  higherHalf : 2 ^ 63 ≤ offset
  aligned : ∀ entry ∈ entries, entry.type = limineMemmapUsable →
    entry.base % pageSize = 0 ∧ entry.length % pageSize = 0
  mapped : ∀ entry ∈ entries, entry.type = limineMemmapUsable ∨ UnknownType entry.type →
    entry.base + entry.length + offset ≤ 2 ^ 64
  apart : ∀ left ∈ entries, ∀ right ∈ entries, left.type = limineMemmapUsable →
    right.type ≠ limineMemmapUsable →
      left.base + left.length ≤ right.base ∨ right.base + right.length ≤ left.base

/-- Whole frames inside the region of an entry. -/
def LimineMemmapEntry.Contains (entry : LimineMemmapEntry) (frame : ℕ) : Prop :=
  entry.base ≤ frame ∧ frame + pageSize ≤ entry.base + entry.length

/-- Where an entry that `kentry` marks as usable comes from. -/
theorem LimineMemmap.entry_mapped {offset : ℕ} {slots : List MapSlot}
    (hmap : LimineMemmap offset (slots.map MapSlot.entry)) :
    ∀ region ∈ (kentryMemoryMap slots).entries.drop 1, region.type = .usable →
      region.base + region.length + offset ≤ 2 ^ 64 := by
  intro region hregion husable
  obtain ⟨slot, hslot, rfl⟩ := List.mem_map.mp (List.mem_of_mem_drop hregion)
  have htype := (kentryType_eq_usable_iff _ _).mp husable
  exact hmap.mapped slot.entry (List.mem_map_of_mem hslot)
    (htype.imp_right fun hunknown => hunknown.1)

/-- A usable entry is in whole pages, so that its frames end with it. -/
theorem LimineMemmap.contains {offset frame : ℕ} {entries : List LimineMemmapEntry}
    (hmap : LimineMemmap offset entries) {entry : LimineMemmapEntry} (hentry : entry ∈ entries)
    (husable : entry.type = limineMemmapUsable) (hlower : entry.base ≤ frame)
    (hupper : frame < entry.base + entry.length)
    (hmod : frame % pageSize = entry.base % pageSize) : entry.Contains frame := by
  obtain ⟨hbase, hlength⟩ := hmap.aligned entry hentry husable
  refine ⟨hlower, ?_⟩
  unfold pageSize at *
  omega

/-- Every frame that `pmm_init` puts on the list lies in an entry that the boot loader calls
usable, exactly if from the second entry on no entry with a type that `kentry` does not know
finds a 0 in its slot of the array, other than an empty one. -/
theorem only_usable_frames_listed_iff (physical : Memory) {offset : ℕ} {slots : List MapSlot}
    (hmap : LimineMemmap offset (slots.map MapSlot.entry)) :
    (∀ frame ∈ (pmmInitLog physical offset (kentryMemoryMap slots)).1, ∃ slot ∈ slots,
      slot.entry.type = limineMemmapUsable ∧ slot.entry.Contains frame) ↔
        ∀ slot ∈ slots.drop 1, UnknownType slot.entry.type → 0 < slot.entry.length →
          slot.stale ≠ 0 := by
  obtain ⟨hframes, hfirsts⟩ := @pmmInitEntriesLog_spec offset
    { map := { physical := physical, hhdmOffset := offset }, freeListHead := 0 }
    ((kentryMemoryMap slots).entries.drop 1) rfl hmap.higherHalf hmap.entry_mapped
  have hdrop : (kentryMemoryMap slots).entries.drop 1 = (slots.drop 1).map kentryRegion :=
    List.map_drop.symm
  constructor
  · intro hlisted slot hslot hunknown hlength hstale
    have husable : (kentryRegion slot).type = .usable :=
      (kentryType_eq_usable_iff _ _).mpr (Or.inr ⟨hunknown, hstale⟩)
    have hmem := hfirsts (kentryRegion slot)
      (by rw [hdrop]; exact List.mem_map_of_mem hslot) husable hlength
    obtain ⟨other, hother, hotherUsable, hlower, hupper⟩ := hlisted _ hmem
    have hne : slot.entry.type ≠ limineMemmapUsable := by
      unfold UnknownType limineMemmapFramebuffer at hunknown
      unfold limineMemmapUsable
      omega
    have hapart := hmap.apart other.entry (List.mem_map_of_mem hother) slot.entry
      (List.mem_map_of_mem (List.mem_of_mem_drop hslot)) hotherUsable hne
    simp only [kentryRegion, pageSize] at hlower hupper
    omega
  · intro hstale frame hframe
    obtain ⟨region, hregion, husable, hlower, hupper, hmod⟩ := hframes frame hframe
    rw [hdrop] at hregion
    obtain ⟨slot, hslot, rfl⟩ := List.mem_map.mp hregion
    have hmember := List.mem_of_mem_drop hslot
    refine ⟨slot, hmember, ?_⟩
    rcases (kentryType_eq_usable_iff _ _).mp husable with htype | ⟨hunknown, hzero⟩
    · exact ⟨htype, hmap.contains (List.mem_map_of_mem hmember) htype hlower hupper hmod⟩
    · have hlength : 0 < slot.entry.length := by
        simp only [kentryRegion] at hlower hupper
        omega
      exact absurd hzero (hstale slot hslot hunknown hlength)

/-- A usable page and a page of an unknown type whose slot had the word 5. -/
theorem only_usable_frames_listed_iff_stale_word :
    LimineMemmap 0xffff800000000000
        [⟨0, 0x1000, 1⟩, ⟨0x1000, 0x1000, 0⟩, ⟨0x5000, 0x1000, 8⟩] ∧
      ∀ frame ∈ (pmmInitLog (fun _ => 0) 0xffff800000000000 (kentryMemoryMap
          [⟨⟨0, 0x1000, 1⟩, 0⟩, ⟨⟨0x1000, 0x1000, 0⟩, 0⟩, ⟨⟨0x5000, 0x1000, 8⟩, 5⟩])).1,
        ∃ slot ∈ ([⟨⟨0, 0x1000, 1⟩, 0⟩, ⟨⟨0x1000, 0x1000, 0⟩, 0⟩,
            ⟨⟨0x5000, 0x1000, 8⟩, 5⟩] : List MapSlot),
          slot.entry.type = limineMemmapUsable ∧ slot.entry.Contains frame := by
  have hmap : LimineMemmap 0xffff800000000000
      [⟨0, 0x1000, 1⟩, ⟨0x1000, 0x1000, 0⟩, ⟨0x5000, 0x1000, 8⟩] :=
    ⟨by decide, by decide, by decide, by decide⟩
  exact ⟨hmap, (only_usable_frames_listed_iff (fun _ => 0) hmap).mpr (by decide)⟩

/-- A page of an unknown type whose slot had a 0 is put on the list, although no entry of
the map is usable. -/
theorem unknown_frame_listed :
    LimineMemmap 0xffff800000000000 [⟨0, 0x1000, 1⟩, ⟨0x5000, 0x1000, 8⟩] ∧
      ¬∀ frame ∈ (pmmInitLog (fun _ => 0) 0xffff800000000000 (kentryMemoryMap
          [⟨⟨0, 0x1000, 1⟩, 0⟩, ⟨⟨0x5000, 0x1000, 8⟩, 0⟩])).1,
        ∃ slot ∈ ([⟨⟨0, 0x1000, 1⟩, 0⟩, ⟨⟨0x5000, 0x1000, 8⟩, 0⟩] : List MapSlot),
          slot.entry.type = limineMemmapUsable ∧ slot.entry.Contains frame := by
  refine ⟨⟨by decide, by decide, by decide, by decide⟩, fun hlisted => ?_⟩
  have hregion := (@pmmInitEntriesLog_spec 0xffff800000000000
    { map := { physical := fun _ => 0, hhdmOffset := 0xffff800000000000 }, freeListHead := 0 }
    [⟨0x5000, 0x1000, .usable⟩] rfl (by decide) (by decide)).2 ⟨0x5000, 0x1000, .usable⟩
      (by decide) rfl (by decide)
  obtain ⟨slot, hslot, husable, -⟩ := hlisted 0x5000 hregion
  revert husable
  revert slot
  decide

end Flurry.PhysicalMemory
