import Flurry.Acpi.Madt

/-!
# Redirection of ISA interrupts

`ioapic.c` programs the first I/O APIC of the MADT's list, whichever that is.  A
redirection entry is 64 bits wide and written as two registers, whose numbers are
computed in 32 bits and truncated to 8.  The registers of an I/O APIC are reached
through a window at its physical address.
-/

namespace Flurry.IoApic

open Madt

/-- `ISA_IRQ_COUNT`. -/
def isaIrqCount : ℕ := 16

def ioapicVer : BitVec 8 := 0x1

def ioredtbl : BitVec 32 := 0x10

def ioapicDelivModeFixed : BitVec 64 := 0x0

def ioapicDestModePhysical : BitVec 64 := 0x0

def ioapicActiveHigh : BitVec 64 := 0x0

def ioapicActiveLow : BitVec 64 := 0x2000

def ioapicTriggerEdge : BitVec 64 := 0x0

def ioapicTriggerLevel : BitVec 64 := 0x8000

def madtActiveHigh : BitVec 16 := 0x1

def madtActiveLow : BitVec 16 := 0x3

def madtTriggerEdge : BitVec 16 := 0x4

def madtTriggerLevel : BitVec 16 := 0xc

/-! ## Registers -/

/-- The registers of the I/O APIC at each physical address. -/
abbrev Registers := BitVec 32 → BitVec 8 → BitVec 32

/-- One call of `write_reg` with `ioapic` as the static variable. -/
structure RegWrite where
  ioapic : MadtIoApic
  reg : BitVec 8
  val : BitVec 32
  deriving DecidableEq, Repr

def RegWrite.apply (registers : Registers) (write : RegWrite) : Registers :=
  fun address reg =>
    if address = write.ioapic.ioapicAddr ∧ reg = write.reg then write.val
    else registers address reg

/-- The registers after some writes. -/
def applyWrites (registers : Registers) (writes : List RegWrite) : Registers :=
  writes.foldl RegWrite.apply registers

/-- The highest entry of an I/O APIC, in bits 16 to 23 of its version register. -/
def ioapicGetMaxRedirEntry (registers : Registers) (ioapic : MadtIoApic) : BitVec 32 :=
  (registers ioapic.ioapicAddr ioapicVer >>> 16) &&& 0xff

def writeReg (ioapic : MadtIoApic) (reg : BitVec 8) (val : BitVec 32) : RegWrite :=
  { ioapic, reg, val }

/-- The register numbers are 32-bit numbers that `write_reg` takes 8 bits of. -/
def writeRedtbl (ioapic : MadtIoApic) (gsi : BitVec 32) (val : BitVec 64) :
    List RegWrite :=
  let relativeGsi := gsi - ioapic.gsiBase
  let redirEntryRegLo := ioredtbl + 2 * relativeGsi
  let redirEntryRegHi := ioredtbl + 2 * relativeGsi + 1
  [writeReg ioapic (redirEntryRegLo.setWidth 8) ((val &&& 0xffffffff).setWidth 32),
    writeReg ioapic (redirEntryRegHi.setWidth 8) ((val >>> 32).setWidth 32)]

/-! ## Unmasking an interrupt -/

def ioapicDest (lapicId : BitVec 8) : BitVec 64 := lapicId.setWidth 64 <<< 56

/-- `ISA_IRQ_BASE + isa_irq`. -/
def interruptsGetIsaIrqVec (isaIrq : BitVec 8) : BitVec 8 := 0x30 + isaIrq

def findIsoByIsaIrq (isaIrq : BitVec 8) : List MadtIoApicIso → Option MadtIoApicIso
  | [] => none
  | iso :: isos => if iso.source = isaIrq then some iso else findIsoByIsaIrq isaIrq isos

/-- The entry for an interrupt with a source override. -/
def isoRedtblEntry (iso : MadtIoApicIso) (isaIrqVec lapicId : BitVec 8) : BitVec 64 :=
  let redtblEntry := isaIrqVec.setWidth 64
  let redtblEntry :=
    if iso.flags &&& madtActiveHigh = madtActiveHigh then redtblEntry ||| ioapicActiveHigh
    else if iso.flags &&& madtActiveLow = madtActiveLow then redtblEntry ||| ioapicActiveLow
    else redtblEntry
  let redtblEntry :=
    if iso.flags &&& madtTriggerEdge = madtTriggerEdge then
      redtblEntry ||| ioapicTriggerEdge
    else if iso.flags &&& madtTriggerLevel = madtTriggerLevel then
      redtblEntry ||| ioapicTriggerLevel
    else redtblEntry
  redtblEntry ||| ioapicDest lapicId

/-- The entry for an interrupt without one. -/
def identityRedtblEntry (isaIrqVec lapicId : BitVec 8) : BitVec 64 :=
  isaIrqVec.setWidth 64 ||| ioapicDelivModeFixed ||| ioapicDestModePhysical |||
    ioapicActiveHigh ||| ioapicTriggerEdge ||| ioapicDest lapicId

/-- The writes of `ioapic_unmask_isa_irq`; `none` where the assertion fails or there is
no local APIC to take the identifier of. -/
def ioapicUnmaskIsaIrq (lists : MadtLists) (ioapic : MadtIoApic) (isaIrq : BitVec 8) :
    Option (List RegWrite) :=
  if isaIrq.toNat < isaIrqCount then do
    let lapic ← lists.lapics.head?
    let isaIrqVec := interruptsGetIsaIrqVec isaIrq
    match findIsoByIsaIrq isaIrq lists.ioapicIsos with
    | some iso =>
        some (writeRedtbl ioapic iso.gsi (isoRedtblEntry iso isaIrqVec lapic.lapicId))
    | none =>
        some (writeRedtbl ioapic (isaIrq.setWidth 32)
          (identityRedtblEntry isaIrqVec lapic.lapicId))
  else none

/-- The I/O APIC that `ioapic_init` selects, without the mapping of its registers. -/
def ioapicInit (lists : MadtLists) : Option MadtIoApic := lists.ioapics.head?

/-- The interrupt an ISA IRQ is wired to. -/
def gsiOf (lists : MadtLists) (isaIrq : BitVec 8) : BitVec 32 :=
  match findIsoByIsaIrq isaIrq lists.ioapicIsos with
  | some iso => iso.gsi
  | none => isaIrq.setWidth 32

/-- The interrupt is one of the I/O APIC's. -/
def Covers (registers : Registers) (ioapic : MadtIoApic) (gsi : BitVec 32) : Prop :=
  ioapic.gsiBase.toNat ≤ gsi.toNat ∧
    gsi.toNat ≤ ioapic.gsiBase.toNat + (ioapicGetMaxRedirEntry registers ioapic).toNat

instance (registers : Registers) (ioapic : MadtIoApic) (gsi : BitVec 32) :
    Decidable (Covers registers ioapic gsi) :=
  inferInstanceAs (Decidable (_ ∧ _))

/-! ## Which entry is written -/

section Entry

variable {lists : MadtLists} {ioapic : MadtIoApic} {isaIrq lapicId : BitVec 8}

/-- The entry that comes out in every case. -/
def plainEntry (isaIrqVec lapicId : BitVec 8) : BitVec 64 :=
  isaIrqVec.setWidth 64 ||| ioapicDest lapicId

/-- Flags that match the larger mask match the smaller one, which is tested first. -/
theorem and_eq_of_subset {flags small large : BitVec 16} (hsubset : large &&& small = small)
    (hlarge : flags &&& large = large) : flags &&& small = small := by
  rw [← hsubset, ← BitVec.and_assoc, hlarge]

/-- Neither the active-low nor the level branch is ever taken. -/
theorem isoRedtblEntry_eq (iso : MadtIoApicIso) (isaIrqVec lapicId : BitVec 8) :
    isoRedtblEntry iso isaIrqVec lapicId = plainEntry isaIrqVec lapicId := by
  have hlow : iso.flags &&& madtActiveLow = madtActiveLow →
      iso.flags &&& madtActiveHigh = madtActiveHigh := and_eq_of_subset (by decide)
  have hlevel : iso.flags &&& madtTriggerLevel = madtTriggerLevel →
      iso.flags &&& madtTriggerEdge = madtTriggerEdge := and_eq_of_subset (by decide)
  have hhigh : ioapicActiveHigh = 0 := rfl
  have hedge : ioapicTriggerEdge = 0 := rfl
  unfold isoRedtblEntry plainEntry
  by_cases hpolarity : iso.flags &&& madtActiveHigh = madtActiveHigh <;>
    by_cases htrigger : iso.flags &&& madtTriggerEdge = madtTriggerEdge <;>
      simp [hpolarity, htrigger, mt hlow, mt hlevel, hhigh, hedge]

theorem identityRedtblEntry_eq (isaIrqVec lapicId : BitVec 8) :
    identityRedtblEntry isaIrqVec lapicId = plainEntry isaIrqVec lapicId := by
  have hzero : ioapicDelivModeFixed = 0 ∧ ioapicDestModePhysical = 0 ∧
      ioapicActiveHigh = 0 ∧ ioapicTriggerEdge = 0 := ⟨rfl, rfl, rfl, rfl⟩
  simp [identityRedtblEntry, plainEntry, hzero]

/-- With a local APIC the call writes the plain entry for the interrupt's GSI. -/
theorem ioapicUnmaskIsaIrq_cons {lapic : MadtLApic} {lapics : List MadtLApic}
    (hirq : isaIrq.toNat < isaIrqCount) (hlapics : lists.lapics = lapic :: lapics) :
    ioapicUnmaskIsaIrq lists ioapic isaIrq =
      some (writeRedtbl ioapic (gsiOf lists isaIrq)
        (plainEntry (interruptsGetIsaIrqVec isaIrq) lapic.lapicId)) := by
  rw [ioapicUnmaskIsaIrq, if_pos hirq, hlapics, gsiOf]
  cases findIsoByIsaIrq isaIrq lists.ioapicIsos with
  | none => simp [identityRedtblEntry_eq]
  | some iso => simp [isoRedtblEntry_eq]

/-- Without one it follows a null pointer. -/
theorem ioapicUnmaskIsaIrq_nil (hlapics : lists.lapics = []) :
    ioapicUnmaskIsaIrq lists ioapic isaIrq = none := by
  rw [ioapicUnmaskIsaIrq, hlapics]
  split <;> rfl

/-- The fields of the plain entry: an edge-triggered, active-high interrupt. -/
theorem plainEntry_fields (isaIrqVec lapicId : BitVec 8) :
    plainEntry isaIrqVec lapicId &&& 0xff = isaIrqVec.setWidth 64 ∧
      plainEntry isaIrqVec lapicId &&& ioapicActiveLow = 0#64 ∧
      plainEntry isaIrqVec lapicId &&& ioapicTriggerLevel = 0#64 ∧
      plainEntry isaIrqVec lapicId >>> 56 = lapicId.setWidth 64 := by
  have hvec : ∀ vec : BitVec 8, vec.setWidth 64 &&& (0xff : BitVec 64) = vec.setWidth 64 ∧
      vec.setWidth 64 &&& ioapicActiveLow = 0#64 ∧
      vec.setWidth 64 &&& ioapicTriggerLevel = 0#64 ∧ vec.setWidth 64 >>> 56 = 0#64 := by
    decide +kernel
  have hdest : ∀ lapicId : BitVec 8, ioapicDest lapicId &&& 0xff = 0#64 ∧
      ioapicDest lapicId &&& ioapicActiveLow = 0#64 ∧
      ioapicDest lapicId &&& ioapicTriggerLevel = 0#64 ∧
      ioapicDest lapicId >>> 56 = lapicId.setWidth 64 := by
    decide +kernel
  obtain ⟨hvecLow, hvecPolarity, hvecTrigger, hvecHigh⟩ := hvec isaIrqVec
  obtain ⟨hdestLow, hdestPolarity, hdestTrigger, hdestHigh⟩ := hdest lapicId
  refine ⟨?_, ?_, ?_, ?_⟩
  · rw [plainEntry, BitVec.and_or_distrib_right, hvecLow, hdestLow, BitVec.or_zero]
  · rw [plainEntry, BitVec.and_or_distrib_right, hvecPolarity, hdestPolarity,
      BitVec.or_zero]
  · rw [plainEntry, BitVec.and_or_distrib_right, hvecTrigger, hdestTrigger, BitVec.or_zero]
  · rw [plainEntry, BitVec.ushiftRight_or_distrib, hvecHigh, hdestHigh, BitVec.zero_or]

/-- The two writes determine the entry. -/
theorem writeRedtbl_injective {gsi : BitVec 32} {val val' : BitVec 64}
    (hwrites : writeRedtbl ioapic gsi val = writeRedtbl ioapic gsi val') : val = val' := by
  simp only [writeRedtbl, writeReg, List.cons.injEq, RegWrite.mk.injEq, true_and,
    and_true] at hwrites
  obtain ⟨hlow, hhigh⟩ := hwrites
  apply BitVec.eq_of_toNat_eq
  have hmask : ∀ word : BitVec 64, (word &&& 0xffffffff).toNat = word.toNat % 2 ^ 32 := by
    intro word
    rw [BitVec.toNat_and]
    exact Nat.and_two_pow_sub_one_eq_mod word.toNat 32
  have hlow := congrArg BitVec.toNat hlow
  have hhigh := congrArg BitVec.toNat hhigh
  simp only [BitVec.toNat_setWidth, BitVec.toNat_ushiftRight, hmask,
    Nat.shiftRight_eq_div_pow] at hlow hhigh
  have hval := val.isLt
  have hval' := val'.isLt
  omega

end Entry

/-! ## Overrides -/

/-- The entry has the polarity and the trigger mode of the flags, 3 meaning active low
and level, beside the vector and the destination. -/
structure KeepsModes (flags : BitVec 16) (isaIrqVec lapicId : BitVec 8)
    (entry : BitVec 64) : Prop where
  polarity : entry &&& ioapicActiveLow ≠ 0 ↔ flags.extractLsb' 0 2 = 3
  trigger : entry &&& ioapicTriggerLevel ≠ 0 ↔ flags.extractLsb' 2 2 = 3
  vector : entry &&& 0xff = isaIrqVec.setWidth 64
  destination : entry >>> 56 = lapicId.setWidth 64

theorem keepsModes_plainEntry_iff (flags : BitVec 16) (isaIrqVec lapicId : BitVec 8) :
    KeepsModes flags isaIrqVec lapicId (plainEntry isaIrqVec lapicId) ↔
      flags.extractLsb' 0 2 ≠ 3 ∧ flags.extractLsb' 2 2 ≠ 3 := by
  obtain ⟨hvector, hpolarity, htrigger, hdestination⟩ := plainEntry_fields isaIrqVec lapicId
  constructor
  · intro hkeeps
    exact ⟨fun hlow => hkeeps.polarity.mpr hlow hpolarity,
      fun hlevel => hkeeps.trigger.mpr hlevel htrigger⟩
  · rintro ⟨hhigh, hedge⟩
    exact ⟨⟨fun hset => absurd hpolarity hset, fun hlow => absurd hlow hhigh⟩,
      ⟨fun hset => absurd htrigger hset, fun hlevel => absurd hlevel hedge⟩, hvector,
      hdestination⟩

/-- The entry written for an interrupt with an override has the override's modes exactly
if these are not active low and not level. -/
theorem override_modes_kept_iff (lists : MadtLists) (ioapic : MadtIoApic)
    (isaIrq : BitVec 8) (iso : MadtIoApicIso) (hirq : isaIrq.toNat < isaIrqCount)
    (hiso : findIsoByIsaIrq isaIrq lists.ioapicIsos = some iso) :
    (∃ lapic entry, lists.lapics.head? = some lapic ∧
      ioapicUnmaskIsaIrq lists ioapic isaIrq =
        some (writeRedtbl ioapic iso.gsi entry) ∧
      KeepsModes iso.flags (interruptsGetIsaIrqVec isaIrq) lapic.lapicId entry) ↔
      lists.lapics ≠ [] ∧ iso.flags.extractLsb' 0 2 ≠ 3 ∧
        iso.flags.extractLsb' 2 2 ≠ 3 := by
  have hgsi : gsiOf lists isaIrq = iso.gsi := by rw [gsiOf, hiso]
  cases hlapics : lists.lapics with
  | nil => simp
  | cons lapic lapics =>
      have hrun := @ioapicUnmaskIsaIrq_cons lists ioapic isaIrq lapic lapics hirq hlapics
      rw [hgsi] at hrun
      rw [← keepsModes_plainEntry_iff iso.flags (interruptsGetIsaIrqVec isaIrq) lapic.lapicId]
      constructor
      · rintro ⟨lapic', entry, hhead, hwrites, hkeeps⟩
        obtain rfl := Option.some.inj hhead
        rw [hrun] at hwrites
        rw [writeRedtbl_injective (Option.some.inj hwrites)]
        exact ⟨by simp, hkeeps⟩
      · rintro ⟨-, hkeeps⟩
        exact ⟨lapic, _, rfl, hrun, hkeeps⟩

/-- One local APIC and an override of IRQ 9 with the given flags. -/
def overrideLists (flags : BitVec 16) : MadtLists where
  lapics := [⟨0, 2, 1⟩]
  ioapicIsos := [⟨0, 9, 9, flags⟩]

theorem override_modes_kept_iff_high_edge :
    ∃ lapic entry, (overrideLists 0x5).lapics.head? = some lapic ∧
      ioapicUnmaskIsaIrq (overrideLists 0x5) ⟨0, 0, 0xfec00000, 0⟩ 9 =
        some (writeRedtbl ⟨0, 0, 0xfec00000, 0⟩ 9 entry) ∧
      KeepsModes 0x5 (interruptsGetIsaIrqVec 9) lapic.lapicId entry :=
  (override_modes_kept_iff (overrideLists 0x5) ⟨0, 0, 0xfec00000, 0⟩ 9 ⟨0, 9, 9, 0x5⟩
    (by decide) (by decide)).mpr ⟨by decide, by decide, by decide⟩

/-- An active-low, level-triggered interrupt is set up as active high and edge. -/
theorem override_modes_lost :
    findIsoByIsaIrq 9 (overrideLists 0xf).ioapicIsos = some ⟨0, 9, 9, 0xf⟩ ∧
      ioapicUnmaskIsaIrq (overrideLists 0xf) ⟨0, 0, 0xfec00000, 0⟩ 9 =
        some (writeRedtbl ⟨0, 0, 0xfec00000, 0⟩ 9 0x0200000000000039) ∧
      ¬∃ lapic entry, (overrideLists 0xf).lapics.head? = some lapic ∧
        ioapicUnmaskIsaIrq (overrideLists 0xf) ⟨0, 0, 0xfec00000, 0⟩ 9 =
          some (writeRedtbl ⟨0, 0, 0xfec00000, 0⟩ 9 entry) ∧
        KeepsModes 0xf (interruptsGetIsaIrqVec 9) lapic.lapicId entry := by
  have hrun : ioapicUnmaskIsaIrq (overrideLists 0xf) ⟨0, 0, 0xfec00000, 0⟩ 9 =
      some (writeRedtbl ⟨0, 0, 0xfec00000, 0⟩ 9 0x0200000000000039) := by
    decide
  refine ⟨by decide, hrun, ?_⟩
  rintro ⟨lapic, entry, -, hwrites, hkeeps⟩
  rw [hrun] at hwrites
  rw [← writeRedtbl_injective (Option.some.inj hwrites)] at hkeeps
  exact hkeeps.polarity.mpr (by decide) (by decide)

/-! ## Registers of redirection entries -/

/-- There are two writes, to the two registers of the interrupt on a listed I/O APIC
that has it, and all other registers keep their values. -/
def HitsRedirection (lists : MadtLists) (registers : Registers) (gsi : BitVec 32)
    (writes : List RegWrite) : Prop :=
  ∃ ioapic ∈ lists.ioapics, Covers registers ioapic gsi ∧
    ∃ lo hi valLo valHi, writes = [⟨ioapic, lo, valLo⟩, ⟨ioapic, hi, valHi⟩] ∧
      lo.toNat = 0x10 + 2 * (gsi.toNat - ioapic.gsiBase.toNat) ∧
      hi.toNat = 0x10 + 2 * (gsi.toNat - ioapic.gsiBase.toNat) + 1 ∧
      ∀ address reg, ¬(address = ioapic.ioapicAddr ∧ (reg = lo ∨ reg = hi)) →
        applyWrites registers writes address reg = registers address reg

section Redirection

variable {lists : MadtLists} {registers : Registers} {ioapic : MadtIoApic}
variable {gsi : BitVec 32} {val : BitVec 64}

theorem applyWrites_of_ne {lo hi : BitVec 8} {valLo valHi : BitVec 32}
    (address : BitVec 32) (reg : BitVec 8)
    (hother : ¬(address = ioapic.ioapicAddr ∧ (reg = lo ∨ reg = hi))) :
    applyWrites registers [⟨ioapic, lo, valLo⟩, ⟨ioapic, hi, valHi⟩] address reg =
      registers address reg := by
  have hlo : ¬(address = ioapic.ioapicAddr ∧ reg = lo) :=
    fun hsame => hother ⟨hsame.1, Or.inl hsame.2⟩
  have hhi : ¬(address = ioapic.ioapicAddr ∧ reg = hi) :=
    fun hsame => hother ⟨hsame.1, Or.inr hsame.2⟩
  simp only [applyWrites, List.foldl_cons, List.foldl_nil, RegWrite.apply, if_neg hlo,
    if_neg hhi]

/-- An I/O APIC's registers have room for 120 entries. -/
theorem toNat_redirEntryReg (hbase : ioapic.gsiBase.toNat ≤ gsi.toNat)
    (hroom : gsi.toNat - ioapic.gsiBase.toNat < 120) :
    ((ioredtbl + 2 * (gsi - ioapic.gsiBase)).setWidth 8).toNat =
        0x10 + 2 * (gsi.toNat - ioapic.gsiBase.toNat) ∧
      ((ioredtbl + 2 * (gsi - ioapic.gsiBase) + 1).setWidth 8).toNat =
        0x10 + 2 * (gsi.toNat - ioapic.gsiBase.toNat) + 1 := by
  have hgsi := gsi.isLt
  simp only [ioredtbl, BitVec.toNat_setWidth, BitVec.toNat_add, BitVec.toNat_mul,
    BitVec.toNat_sub, BitVec.ofNat_eq_ofNat, BitVec.toNat_ofNat]
  omega

/-- The right registers are written exactly if the selected I/O APIC has the interrupt,
as one of its first 120. -/
theorem hitsRedirection_writeRedtbl_iff (hlisted : ioapic ∈ lists.ioapics) :
    HitsRedirection lists registers gsi (writeRedtbl ioapic gsi val) ↔
      Covers registers ioapic gsi ∧ gsi.toNat - ioapic.gsiBase.toNat < 120 := by
  constructor
  · rintro ⟨ioapic', -, hcovers, lo, hi, valLo, valHi, hwrites, -, hhi, -⟩
    simp only [writeRedtbl, writeReg, List.cons.injEq, RegWrite.mk.injEq] at hwrites
    obtain rfl := hwrites.1.1
    have hlt := hi.isLt
    exact ⟨hcovers, by omega⟩
  · rintro ⟨hcovers, hroom⟩
    obtain ⟨hlo, hhi⟩ := toNat_redirEntryReg hcovers.1 hroom
    exact ⟨ioapic, hlisted, hcovers, _, _, _, _, rfl, hlo, hhi, applyWrites_of_ne⟩

end Redirection

/-- The call writes the two registers of the interrupt, on a listed I/O APIC that has
it, and no other register exactly if the list's first I/O APIC has the interrupt, as
one of its first 120, and there is a local APIC. -/
theorem redirection_hit_iff (lists : MadtLists) (registers : Registers)
    (isaIrq : BitVec 8) (hirq : isaIrq.toNat < isaIrqCount) :
    (∃ ioapic writes, ioapicInit lists = some ioapic ∧
      ioapicUnmaskIsaIrq lists ioapic isaIrq = some writes ∧
      HitsRedirection lists registers (gsiOf lists isaIrq) writes) ↔
      lists.lapics ≠ [] ∧ ∃ ioapic, lists.ioapics.head? = some ioapic ∧
        Covers registers ioapic (gsiOf lists isaIrq) ∧
        (gsiOf lists isaIrq).toNat - ioapic.gsiBase.toNat < 120 := by
  cases hlapics : lists.lapics with
  | nil => simp [ioapicUnmaskIsaIrq_nil hlapics]
  | cons lapic lapics =>
      have hrun := fun ioapic =>
        @ioapicUnmaskIsaIrq_cons lists ioapic isaIrq lapic lapics hirq hlapics
      constructor
      · rintro ⟨ioapic, writes, hinit, hwrites, hhits⟩
        rw [hrun ioapic] at hwrites
        obtain rfl := Option.some.inj hwrites
        have hlisted : ioapic ∈ lists.ioapics := List.mem_of_head? hinit
        rw [hitsRedirection_writeRedtbl_iff hlisted] at hhits
        exact ⟨by simp, ioapic, hinit, hhits⟩
      · rintro ⟨-, ioapic, hinit, hhits⟩
        have hlisted : ioapic ∈ lists.ioapics := List.mem_of_head? hinit
        rw [← hitsRedirection_writeRedtbl_iff hlisted] at hhits
        exact ⟨ioapic, _, hinit, hrun ioapic, hhits⟩

/-- Two I/O APICs with 24 entries each, the second one of the MADT first in the list. -/
def twoIoApics : MadtLists where
  lapics := [⟨0, 0, 1⟩]
  ioapics := [⟨1, 0, 0xfec01000, 24⟩, ⟨0, 0, 0xfec00000, 0⟩]
  ioapicIsos := [⟨0, 9, 25, 0⟩]

/-- All registers hold 23 in bits 16 to 23. -/
def twentyFourEntries : Registers := fun _ _ => 0x170020

/-- An override leads to the first I/O APIC of the list. -/
theorem redirection_hit_iff_override :
    ∃ ioapic writes, ioapicInit twoIoApics = some ioapic ∧
      ioapicUnmaskIsaIrq twoIoApics ioapic 9 = some writes ∧
      HitsRedirection twoIoApics twentyFourEntries (gsiOf twoIoApics 9) writes :=
  (redirection_hit_iff twoIoApics twentyFourEntries 9 (by decide)).mpr
    ⟨by decide, ⟨1, 0, 0xfec01000, 24⟩, by decide, by decide, by decide⟩

/-- IRQ 4 belongs to the other one, and register 0xe8 of the wrong one is written. -/
theorem redirection_missed :
    Covers twentyFourEntries ⟨0, 0, 0xfec00000, 0⟩ (gsiOf twoIoApics 4) ∧
      ioapicInit twoIoApics = some ⟨1, 0, 0xfec01000, 24⟩ ∧
      ioapicUnmaskIsaIrq twoIoApics ⟨1, 0, 0xfec01000, 24⟩ 4 =
        some [⟨⟨1, 0, 0xfec01000, 24⟩, 0xe8, 0x34⟩, ⟨⟨1, 0, 0xfec01000, 24⟩, 0xe9, 0⟩] ∧
      ¬HitsRedirection twoIoApics twentyFourEntries (gsiOf twoIoApics 4)
        [⟨⟨1, 0, 0xfec01000, 24⟩, 0xe8, 0x34⟩, ⟨⟨1, 0, 0xfec01000, 24⟩, 0xe9, 0⟩] := by
  refine ⟨by decide, by decide, by decide, ?_⟩
  rintro ⟨ioapic, -, hcovers, lo, hi, valLo, valHi, hwrites, -⟩
  simp only [List.cons.injEq, RegWrite.mk.injEq] at hwrites
  obtain rfl := hwrites.1.1
  exact absurd hcovers (by decide)

/-! ## Destinations -/

/-- Bit 0 of the flags, `ACPI_PIC_ENABLED`. -/
def Enabled (lapic : MadtLApic) : Prop := lapic.flags.getLsbD 0 = true

instance (lapic : MadtLApic) : Decidable (Enabled lapic) :=
  inferInstanceAs (Decidable (_ = _))

/-- The entry goes to an enabled local APIC. -/
def GoesToEnabled (lapics : List MadtLApic) (entry : BitVec 64) : Prop :=
  ∃ lapic ∈ lapics, Enabled lapic ∧ entry >>> 56 = lapic.lapicId.setWidth 64

theorem goesToEnabled_plainEntry_iff (lapics : List MadtLApic) (isaIrqVec lapicId : BitVec 8) :
    GoesToEnabled lapics (plainEntry isaIrqVec lapicId) ↔
      ∃ lapic ∈ lapics, Enabled lapic ∧ lapic.lapicId = lapicId := by
  have hinj : ∀ other : BitVec 8, lapicId.setWidth 64 = other.setWidth 64 ↔
      other = lapicId := by
    intro other
    constructor
    · intro hwide
      have hnarrow := congrArg (BitVec.setWidth 8) hwide
      simpa using hnarrow.symm
    · rintro rfl
      rfl
  simp only [GoesToEnabled, (plainEntry_fields isaIrqVec lapicId).2.2.2, hinj]

/-- On a well-formed table, every interrupt is sent to an enabled local APIC exactly if
the last local APIC of the table has the identifier of one. -/
theorem irq_destination_enabled_iff (table : MadtTable) :
    (∃ lists, madtInit (some table.bytes) {} = some lists ∧
      ∀ ioapic isaIrq, isaIrq.toNat < isaIrqCount →
        ∃ entry, ioapicUnmaskIsaIrq lists ioapic isaIrq =
            some (writeRedtbl ioapic (gsiOf lists isaIrq) entry) ∧
          GoesToEnabled (table.entries.filterMap MadtEntry.lapic) entry) ↔
      ∃ last, (table.entries.filterMap MadtEntry.lapic).getLast? = some last ∧
        ∃ lapic ∈ table.entries.filterMap MadtEntry.lapic,
          Enabled lapic ∧ lapic.lapicId = last.lapicId := by
  rw [madtInit_bytes, entryLists_empty]
  generalize table.entries.filterMap MadtEntry.lapic = lapics
  cases hlapics : lapics.reverse with
  | nil =>
      obtain rfl := List.reverse_eq_nil_iff.mp hlapics
      constructor
      · rintro ⟨lists, -, hroutes⟩
        obtain ⟨entry, -, lapic, hlapic, -⟩ := hroutes ⟨0, 0, 0, 0⟩ 0 (by decide)
        exact absurd hlapic List.not_mem_nil
      · rintro ⟨last, hlast, -⟩
        exact absurd hlast (by simp)
  | cons last others =>
      have hlast : lapics.getLast? = some last := by
        rw [← List.head?_reverse, hlapics, List.head?_cons]
      constructor
      · rintro ⟨lists, hlists, hroutes⟩
        obtain rfl := Option.some.inj hlists
        obtain ⟨entry, hwrites, hgoes⟩ := hroutes ⟨0, 0, 0, 0⟩ 0 (by decide)
        rw [ioapicUnmaskIsaIrq_cons (by decide) rfl] at hwrites
        rw [← writeRedtbl_injective (Option.some.inj hwrites),
          goesToEnabled_plainEntry_iff] at hgoes
        exact ⟨last, hlast, hgoes⟩
      · rintro ⟨last', hlast', henabled⟩
        obtain rfl : last = last' := Option.some.inj (hlast.symm.trans hlast')
        refine ⟨_, rfl, fun ioapic isaIrq hirq => ⟨_, ioapicUnmaskIsaIrq_cons hirq rfl, ?_⟩⟩
        exact (goesToEnabled_plainEntry_iff lapics _ _).mpr henabled

/-- An enabled local APIC 0 and behind it a disabled one with identifier 1. -/
def disabledLast : MadtTable where
  header := [0x41, 0x50, 0x49, 0x43, 60, 0, 0, 0] ++ List.replicate 36 0
  entries := [⟨0, [0, 0, 1, 0, 0, 0], by decide, by decide⟩,
    ⟨0, [1, 1, 0, 0, 0, 0], by decide, by decide⟩]
  header_length := by decide
  declared := by decide +kernel

/-- Interrupts are sent to the disabled one. -/
theorem irq_sent_to_disabled :
    disabledLast.entries.filterMap MadtEntry.lapic = [⟨0, 0, 1⟩, ⟨1, 1, 0⟩] ∧
      Enabled ⟨0, 0, 1⟩ ∧ ¬Enabled ⟨1, 1, 0⟩ ∧
      (madtInit (some disabledLast.bytes) {}).bind (fun lists =>
        ioapicUnmaskIsaIrq lists ⟨0, 0, 0xfec00000, 0⟩ 4) =
          some (writeRedtbl ⟨0, 0, 0xfec00000, 0⟩ 4 0x0100000000000034) ∧
      ¬GoesToEnabled [⟨0, 0, 1⟩, ⟨1, 1, 0⟩] 0x0100000000000034 := by
  refine ⟨by decide +kernel, by decide, by decide, by decide +kernel, ?_⟩
  rintro ⟨lapic, hlapic, henabled, hdestination⟩
  rcases List.mem_pair.mp hlapic with rfl | rfl
  · exact absurd hdestination (by decide)
  · exact absurd henabled (by decide)

end Flurry.IoApic
