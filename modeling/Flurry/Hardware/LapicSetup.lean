import Flurry.Core.BitSlice
import Flurry.Hardware.IoApic

/-!
# Setting up the local APIC

`lapic_init` reads the physical base of the local APIC from a model-specific
register, maps that page and writes the base back with the enable bit.  Then it
programs the two interrupt pins for the non-maskable interrupts that the MADT lists.
-/

namespace Flurry.LapicSetup

open BitSlice Madt IoApic

/-! ## The base -/

/-- `IA32_APIC_BASE_MSR_ENABLE`. -/
def ia32ApicBaseMsrEnable : BitVec 64 := 0x800

/-- What `x << 32` gives for an `x` of 32 bits.  C leaves it undefined; the processor's
shift and the usual folding to zero agree where `x` is zero. -/
structure FullShift where
  shift : BitVec 32 → BitVec 32
  shift_zero : shift 0 = 0

/-- `read_msr` gives the register in two halves. -/
def cpuGetApicBase (wide : FullShift) (msr : BitVec 64) : BitVec 64 :=
  let eax : BitVec 32 := msr.extractLsb' 0 32
  let edx : BitVec 32 := msr.extractLsb' 32 32
  ((eax &&& 0xfffff000#32) ||| wide.shift (edx &&& 0x0f#32)).setWidth 64

/-- The value that `write_msr` writes. -/
def cpuSetApicBase (apic : BitVec 64) : BitVec 64 :=
  let edx : BitVec 32 := ((apic >>> 32) &&& 0x0f#64).setWidth 32
  let eax : BitVec 32 := ((apic &&& 0xfffff0000#64) ||| ia32ApicBaseMsrEnable).setWidth 32
  edx ++ eax

/-- The base of the local APIC, in bits 12 to 35. -/
def apicBase (msr : BitVec 64) : BitVec 64 := msr &&& 0xffffff000#64

/-- The page that `lapic_init` maps, and the register afterwards. -/
def lapicInitBase (wide : FullShift) (msr : BitVec 64) : BitVec 64 × BitVec 64 :=
  let lapicPhysBase := cpuGetApicBase wide msr
  (lapicPhysBase, cpuSetApicBase lapicPhysBase)

/-- The base is read as it is and written back as it was, with the enable bit, and so
the mapped page is the one the processor uses. -/
structure KeepsBase (wide : FullShift) (msr : BitVec 64) : Prop where
  read : cpuGetApicBase wide msr = apicBase msr
  written : apicBase (cpuSetApicBase (apicBase msr)) = apicBase msr
  enabled : (cpuSetApicBase (apicBase msr)).getLsbD 11 = true
  mapped : (lapicInitBase wide msr).1 = apicBase (lapicInitBase wide msr).2

section Base

variable (wide : FullShift) (msr apic : BitVec 64)

theorem getLsbD_apicBase (bit : ℕ) :
    (apicBase msr).getLsbD bit = (decide (12 ≤ bit ∧ bit < 36) && msr.getLsbD bit) := by
  have hmask : 0xffffff000#64 = sliceMask 64 12 24 := by decide
  rw [apicBase, hmask, getLsbD_and_sliceMask]

/-- Bits 12 to 15 of the base are not written. -/
theorem getLsbD_cpuSetApicBase (bit : ℕ) :
    (cpuSetApicBase apic).getLsbD bit =
      (decide (bit = 11) || decide (16 ≤ bit ∧ bit < 36) && apic.getLsbD bit) := by
  have hlow : 0xfffff0000#64 = sliceMask 64 16 20 := by decide
  have hhigh : 0x0f#64 = sliceMask 64 0 4 := by decide
  have henable : ia32ApicBaseMsrEnable = BitVec.twoPow 64 11 := by decide
  rw [cpuSetApicBase, hlow, hhigh, henable]
  simp only [BitVec.getLsbD_append, BitVec.getLsbD_setWidth, BitVec.getLsbD_or,
    getLsbD_and_sliceMask, BitVec.getLsbD_ushiftRight, BitVec.getLsbD_twoPow]
  by_cases hbit : bit < 32
  · have hinside : 16 ≤ bit ∧ bit < 16 + 20 ↔ 16 ≤ bit ∧ bit < 36 := by omega
    have htwo : 11 < 64 ∧ 11 = bit ↔ bit = 11 := by omega
    simp only [hbit, if_true, decide_true, Bool.true_and, hinside, ← Bool.decide_and, htwo]
    exact Bool.or_comm _ _
  · have hinside : bit - 32 < 32 ∧ 0 ≤ bit - 32 ∧ bit - 32 < 0 + 4 ↔
        16 ≤ bit ∧ bit < 36 := by omega
    have hsource : 32 + (bit - 32) = bit := by omega
    have hother : ¬bit = 11 := by omega
    simp only [if_neg hbit, ← Bool.and_assoc, ← Bool.decide_and, hinside, hsource,
      decide_eq_false hother, Bool.false_or]

/-- Of a base beyond 32 bits the upper part is lost. -/
theorem getLsbD_cpuGetApicBase_of_ge {bit : ℕ} (hbit : 32 ≤ bit) :
    (cpuGetApicBase wide msr).getLsbD bit = false := by
  rw [cpuGetApicBase, BitVec.getLsbD_setWidth, BitVec.getLsbD_of_ge _ bit hbit,
    Bool.and_false]

theorem cpuGetApicBase_eq (hhigh : msr.extractLsb' 32 4 = 0#4) :
    cpuGetApicBase wide msr = apicBase msr := by
  have hmask : 0xfffff000#32 = sliceMask 32 12 20 := by decide
  have hmask' : 0x0f#32 = sliceMask 32 0 4 := by decide
  have hbits := extract_eq_zero_iff.mp hhigh
  have hedx : msr.extractLsb' 32 32 &&& 0x0f#32 = 0 := by
    apply BitVec.eq_of_getLsbD_eq
    intro bit hbit
    rw [hmask', getLsbD_and_sliceMask, BitVec.getLsbD_extractLsb', BitVec.ofNat_eq_ofNat,
      BitVec.getLsbD_zero]
    by_cases hlow : bit < 4
    · rw [hbits (32 + bit) (by omega) (by omega), Bool.and_false, Bool.and_false]
    · rw [decide_eq_false (by omega), Bool.false_and]
  apply BitVec.eq_of_getLsbD_eq
  intro bit hbit
  rw [cpuGetApicBase, hedx, wide.shift_zero, BitVec.ofNat_eq_ofNat, BitVec.or_zero, hmask,
    BitVec.getLsbD_setWidth, getLsbD_and_sliceMask, BitVec.getLsbD_extractLsb',
    getLsbD_apicBase, Nat.zero_add]
  by_cases hlow : bit < 32
  · have hinside : 12 ≤ bit ∧ bit < 12 + 20 ↔ 12 ≤ bit ∧ bit < 36 := by omega
    rw [decide_eq_decide.mpr hinside, decide_eq_true hbit, decide_eq_true hlow,
      Bool.true_and, Bool.true_and]
  · rw [decide_eq_false hlow, Bool.false_and, Bool.and_false, Bool.and_false]
    by_cases hinside : bit < 36
    · rw [hbits bit (by omega) (by omega), Bool.and_false]
    · rw [decide_eq_false (by omega), Bool.false_and]

/-- Reading the base back from what was written. -/
theorem apicBase_cpuSetApicBase_iff :
    apicBase (cpuSetApicBase (apicBase msr)) = apicBase msr ↔
      msr.extractLsb' 12 4 = 0#4 := by
  rw [extract_eq_zero_iff]
  constructor
  · intro hwritten bit hlower hupper
    have hbit := congrArg (fun word => word.getLsbD bit) hwritten
    have hother : ¬bit = 11 := by omega
    have hdropped : ¬(16 ≤ bit ∧ bit < 36) := by omega
    have hinside : 12 ≤ bit ∧ bit < 36 := by omega
    simpa only [getLsbD_apicBase, getLsbD_cpuSetApicBase, decide_eq_false hother,
      decide_eq_false hdropped, decide_eq_true hinside, Bool.true_and, Bool.false_and,
      Bool.false_or, Bool.or_false, eq_comm] using hbit
  · intro hclear
    apply BitVec.eq_of_getLsbD_eq
    intro bit _
    rw [getLsbD_apicBase, getLsbD_apicBase, getLsbD_cpuSetApicBase, getLsbD_apicBase]
    by_cases hinside : 12 ≤ bit ∧ bit < 36
    · have hother : ¬bit = 11 := by omega
      by_cases hkept : 16 ≤ bit
      · simp [hinside, hother, hkept]
      · rw [hclear bit hinside.1 (by omega), Bool.and_false, Bool.and_false,
          decide_eq_false hother, Bool.false_or, Bool.and_false]
    · rw [decide_eq_false hinside, Bool.false_and, Bool.false_and]

end Base

/-- The base of the local APIC survives exactly if its bits 12 to 15 and 32 to 35 are
zero. -/
theorem apic_base_kept_iff (wide : FullShift) (msr : BitVec 64) :
    KeepsBase wide msr ↔ msr.extractLsb' 12 4 = 0#4 ∧ msr.extractLsb' 32 4 = 0#4 := by
  constructor
  · rintro ⟨hread, hwritten, -, -⟩
    refine ⟨(apicBase_cpuSetApicBase_iff msr).mp hwritten, extract_eq_zero_iff.mpr ?_⟩
    intro bit hlower hupper
    have hbit := congrArg (fun word => word.getLsbD bit) hread
    have hinside : 12 ≤ bit ∧ bit < 36 := by omega
    simp only [getLsbD_cpuGetApicBase_of_ge wide msr hlower, getLsbD_apicBase,
      decide_eq_true hinside, Bool.true_and] at hbit
    exact hbit.symm
  · rintro ⟨hlow, hhigh⟩
    have hread := cpuGetApicBase_eq wide msr hhigh
    have hwritten := (apicBase_cpuSetApicBase_iff msr).mpr hlow
    refine ⟨hread, hwritten, ?_, ?_⟩
    · rw [getLsbD_cpuSetApicBase]
      rfl
    · rw [lapicInitBase, hread, hwritten]

/-- A local APIC at `0xfee01000` is mapped there and moved to `0xfee00000`, and one at
`0x100000000` is not found, whatever the shift gives. -/
theorem apic_base_moved :
    (∀ wide : FullShift, lapicInitBase wide 0xfee01900 = (0xfee01000, 0xfee00800)) ∧
      apicBase 0x100000900 = 0x100000000 ∧
      ∀ wide : FullShift, cpuGetApicBase wide 0x100000900 ≠ 0x100000000 := by
  refine ⟨?_, by decide, ?_⟩
  · intro wide
    have hread : cpuGetApicBase wide 0xfee01900 = 0xfee01000 :=
      cpuGetApicBase_eq wide 0xfee01900 (by decide)
    rw [lapicInitBase, hread]
    decide
  · intro wide hread
    have hbit := getLsbD_cpuGetApicBase_of_ge wide 0x100000900 (Nat.le_refl 32)
    rw [hread] at hbit
    exact absurd hbit (by decide)

/-! ## Non-maskable interrupts -/

/-- `LAPIC_NMI_ALL_CPUS`. -/
def lapicNmiAllCpus : BitVec 8 := 0xff

/-- `LAPIC_DELIV_MODE_NMI`. -/
def lapicDelivModeNmi : BitVec 32 := 0x400

inductive LapicReg
  | lapicId
  | lapicVer
  | tpr
  | eoi
  | spurious
  | icrLow
  | icrHigh
  | lvtTimer
  | lvtLint0
  | lvtLint1
  | timerInitCount
  | timerCurrCount
  | timerDiv
  deriving DecidableEq, Repr

abbrev Registers := LapicReg → BitVec 32

def writeReg (registers : Registers) (reg : LapicReg) (val : BitVec 32) : Registers :=
  Function.update registers reg val

/-- The flags that an NMI entry's flags are turned into. -/
def nmiLvtFlags (flags : BitVec 16) : BitVec 16 :=
  if flags &&& madtActiveHigh = madtActiveHigh then madtActiveHigh
  else if flags &&& madtActiveLow = madtActiveLow then madtActiveLow
  else 0

/-- `lvt_flags | LAPIC_DELIV_MODE_NMI | 0x4`. -/
def nmiLvt (flags : BitVec 16) : BitVec 32 :=
  (nmiLvtFlags flags).setWidth 32 ||| lapicDelivModeNmi ||| 0x4

/-- The entry is for another processor than the first one of the list, whose identifier
is not looked at if the entry is for all of them.  Without a first one that is `none`. -/
def skipsNmi (lapics : List MadtLApic) (nmi : MadtLApicNmi) : Option Bool :=
  if nmi.uid ≠ lapicNmiAllCpus then
    lapics.head?.map fun lapic => nmi.uid ≠ lapic.acpiId
  else some false

def programNmi (registers : Registers) (nmi : MadtLApicNmi) : Registers :=
  if nmi.lint = 0 then writeReg registers .lvtLint0 (nmiLvt nmi.flags)
  else if nmi.lint = 1 then writeReg registers .lvtLint1 (nmiLvt nmi.flags)
  else registers

def configureNmis (lapics : List MadtLApic) (registers : Registers) :
    List MadtLApicNmi → Option Registers
  | [] => some registers
  | nmi :: nmis => do
      let skip ← skipsNmi lapics nmi
      if skip then configureNmis lapics registers nmis
      else configureNmis lapics (programNmi registers nmi) nmis

/-! ### What the firmware says -/

/-- The two pins. -/
inductive Lint
  | lint0
  | lint1
  deriving DecidableEq, Repr

def Lint.number : Lint → BitVec 8
  | .lint0 => 0
  | .lint1 => 1

def Lint.reg : Lint → LapicReg
  | .lint0 => .lvtLint0
  | .lint1 => .lvtLint1

/-- The entry is for the processor and names the pin. -/
def Names (acpiId : BitVec 8) (lint : Lint) (nmi : MadtLApicNmi) : Prop :=
  (nmi.uid = lapicNmiAllCpus ∨ nmi.uid = acpiId) ∧ nmi.lint = lint.number

instance (acpiId : BitVec 8) (lint : Lint) (nmi : MadtLApicNmi) :
    Decidable (Names acpiId lint nmi) :=
  inferInstanceAs (Decidable (_ ∧ _))

/-- The last such entry. -/
def lastNmi (acpiId : BitVec 8) (lint : Lint) (nmis : List MadtLApicNmi) :
    Option MadtLApicNmi :=
  (nmis.filter fun nmi => Names acpiId lint nmi).getLast?

/-- The polarity field of the entry says active low. -/
def ActiveLow (nmi : MadtLApicNmi) : Prop := nmi.flags.extractLsb' 0 2 = 3

instance (nmi : MadtLApicNmi) : Decidable (ActiveLow nmi) :=
  inferInstanceAs (Decidable (_ = _))

/-- A pin without an entry keeps its register; otherwise the register has the delivery
mode of an NMI, and in bit 13 the polarity of the last entry. -/
structure ProgramsPin (acpiId : BitVec 8) (nmis : List MadtLApicNmi)
    (before after : Registers) (lint : Lint) : Prop where
  unchanged : lastNmi acpiId lint nmis = none → after lint.reg = before lint.reg
  delivery : ∀ nmi, lastNmi acpiId lint nmis = some nmi →
    after lint.reg &&& 0x700 = lapicDelivModeNmi
  polarity : ∀ nmi, lastNmi acpiId lint nmis = some nmi →
    ((after lint.reg).getLsbD 13 = true ↔ ActiveLow nmi)

/-- The processor that `configure_nmis` takes for this one: the first of the list.
Without a list the code can only pass over entries for all processors. -/
def assumedId (lapics : List MadtLApic) : BitVec 8 :=
  (lapics.head?.map MadtLApic.acpiId).getD lapicNmiAllCpus

/-- When a pin with the given register before is programmed as the firmware says, by the
last entries for the processor that the code assumes and for this one.  If only one of the
two exists, the register has to be right already. -/
def PinAgrees (assumed acpiId : BitVec 8) (nmis : List MadtLApicNmi) (before : BitVec 32)
    (lint : Lint) : Prop :=
  match lastNmi assumed lint nmis, lastNmi acpiId lint nmis with
  | none, none => True
  | some written, none => before = nmiLvt written.flags
  | none, some nmi =>
      before &&& 0x700 = lapicDelivModeNmi ∧ (before.getLsbD 13 = true ↔ ActiveLow nmi)
  | some _, some nmi => ¬ActiveLow nmi

section Nmis

variable {lapics : List MadtLApic} {nmis : List MadtLApicNmi} {registers : Registers}
variable {acpiId : BitVec 8} {lint : Lint} {nmi : MadtLApicNmi}

/-- The registers after the entries for a processor. -/
def programmed (acpiId : BitVec 8) (registers : Registers) (nmis : List MadtLApicNmi) :
    Registers :=
  (nmis.filter fun nmi => nmi.uid = lapicNmiAllCpus ∨ nmi.uid = acpiId).foldl programNmi
    registers

/-- The list is looked at for the entries that are not for all processors. -/
theorem skipsNmi_eq (hlist : nmi.uid ≠ lapicNmiAllCpus → lapics ≠ []) :
    skipsNmi lapics nmi =
      some (!decide (nmi.uid = lapicNmiAllCpus ∨ nmi.uid = assumedId lapics)) := by
  unfold skipsNmi
  by_cases hall : nmi.uid = lapicNmiAllCpus
  · simp [hall]
  · obtain ⟨lapic, rest, rfl⟩ := List.exists_cons_of_ne_nil (hlist hall)
    simp [hall, assumedId]

theorem configureNmis_eq
    (hlist : ∀ nmi ∈ nmis, nmi.uid ≠ lapicNmiAllCpus → lapics ≠ []) :
    configureNmis lapics registers nmis =
      some (programmed (assumedId lapics) registers nmis) := by
  induction nmis generalizing registers with
  | nil => rfl
  | cons nmi nmis ih =>
      obtain ⟨hfirst, hrest⟩ := List.forall_mem_cons.mp hlist
      have hnext := fun registers => @ih registers hrest
      by_cases happlies : nmi.uid = lapicNmiAllCpus ∨ nmi.uid = assumedId lapics
      · simp [configureNmis, skipsNmi_eq hfirst, happlies, hnext, programmed]
      · simp [configureNmis, skipsNmi_eq hfirst, happlies, hnext, programmed]

/-- Without a list, an entry for one processor is a null pointer access. -/
theorem configureNmis_nil (hmem : nmi ∈ nmis) (huid : nmi.uid ≠ lapicNmiAllCpus) :
    configureNmis [] registers nmis = none := by
  induction nmis generalizing registers with
  | nil => exact absurd hmem List.not_mem_nil
  | cons first nmis ih =>
      by_cases hall : first.uid = lapicNmiAllCpus
      · have hrest : nmi ∈ nmis := by
          rcases List.mem_cons.mp hmem with rfl | hrest
          · exact absurd hall huid
          · exact hrest
        simp [configureNmis, skipsNmi, hall, ih hrest]
      · simp [configureNmis, skipsNmi, hall]

/-- An entry writes the register of the pin it names. -/
theorem programNmi_reg (registers : Registers) (nmi : MadtLApicNmi) (lint : Lint) :
    programNmi registers nmi lint.reg =
      if nmi.lint = lint.number then nmiLvt nmi.flags else registers lint.reg := by
  cases lint with
  | lint0 =>
      change programNmi registers nmi .lvtLint0 =
        if nmi.lint = 0 then nmiLvt nmi.flags else registers .lvtLint0
      by_cases hzero : nmi.lint = 0
      · rw [programNmi, if_pos hzero, if_pos hzero]
        exact Function.update_self ..
      · rw [programNmi, if_neg hzero, if_neg hzero]
        split
        · exact Function.update_of_ne (by decide) ..
        · rfl
  | lint1 =>
      change programNmi registers nmi .lvtLint1 =
        if nmi.lint = 1 then nmiLvt nmi.flags else registers .lvtLint1
      by_cases hzero : nmi.lint = 0
      · have hone : ¬nmi.lint = 1 := by
          rw [hzero]
          decide
        rw [programNmi, if_pos hzero, if_neg hone]
        exact Function.update_of_ne (by decide) ..
      · rw [programNmi, if_neg hzero]
        split
        · exact Function.update_self ..
        · rfl

theorem lastNmi_concat :
    lastNmi acpiId lint (nmis ++ [nmi]) =
      if Names acpiId lint nmi then some nmi else lastNmi acpiId lint nmis := by
  by_cases hnames : Names acpiId lint nmi <;> simp [lastNmi, hnames]

theorem programmed_concat :
    programmed acpiId registers (nmis ++ [nmi]) =
      if nmi.uid = lapicNmiAllCpus ∨ nmi.uid = acpiId then
        programNmi (programmed acpiId registers nmis) nmi
      else programmed acpiId registers nmis := by
  by_cases happlies : nmi.uid = lapicNmiAllCpus ∨ nmi.uid = acpiId <;>
    simp [programmed, happlies]

/-- The last entry for a pin decides. -/
theorem programmed_reg :
    programmed acpiId registers nmis lint.reg =
      ((lastNmi acpiId lint nmis).map fun nmi => nmiLvt nmi.flags).getD
        (registers lint.reg) := by
  -- from the end of the list, since its last entry is the last one written
  induction nmis using List.reverseRecOn with
  | nil => rfl
  | append_singleton nmis nmi ih =>
      rw [programmed_concat, lastNmi_concat]
      by_cases happlies : nmi.uid = lapicNmiAllCpus ∨ nmi.uid = acpiId
      · rw [if_pos happlies, programNmi_reg]
        by_cases hlint : nmi.lint = lint.number
        · rw [if_pos hlint, if_pos ⟨happlies, hlint⟩]
          rfl
        · rw [if_neg hlint, if_neg fun hnames : Names acpiId lint nmi => hlint hnames.2, ih]
      · rw [if_neg happlies, if_neg fun hnames : Names acpiId lint nmi => happlies hnames.1, ih]

/-- The polarity never reaches bit 13. -/
theorem nmiLvt_fields (flags : BitVec 16) :
    nmiLvt flags &&& 0x700 = lapicDelivModeNmi ∧ (nmiLvt flags).getLsbD 13 = false := by
  have hlvt : nmiLvtFlags flags = madtActiveHigh ∨ nmiLvtFlags flags = madtActiveLow ∨
      nmiLvtFlags flags = 0 := by
    unfold nmiLvtFlags
    split_ifs <;> simp
  unfold nmiLvt
  rcases hlvt with hlvt | hlvt | hlvt <;> rw [hlvt] <;> decide

theorem programsPin_iff :
    ProgramsPin acpiId nmis registers (programmed (assumedId lapics) registers nmis) lint ↔
      PinAgrees (assumedId lapics) acpiId nmis (registers lint.reg) lint := by
  have hreg := @programmed_reg nmis registers (assumedId lapics) lint
  unfold PinAgrees
  cases hwritten : lastNmi (assumedId lapics) lint nmis with
  | none =>
      rw [hwritten] at hreg
      cases hlast : lastNmi acpiId lint nmis with
      | none => exact iff_of_true ⟨fun _ => hreg, by simp [hlast], by simp [hlast]⟩ trivial
      | some nmi =>
          constructor
          · intro hpin
            have hdelivery := hpin.delivery nmi hlast
            have hpolarity := hpin.polarity nmi hlast
            rw [hreg] at hdelivery hpolarity
            exact ⟨hdelivery, hpolarity⟩
          · rintro ⟨hdelivery, hpolarity⟩
            refine ⟨by simp [hlast], fun other hother => ?_, fun other hother => ?_⟩
            · rw [hreg]
              exact hdelivery
            · obtain rfl := Option.some.inj (hlast.symm.trans hother)
              rw [hreg]
              exact hpolarity
  | some written =>
      rw [hwritten, Option.map_some, Option.getD_some] at hreg
      obtain ⟨hmode, hbit⟩ := nmiLvt_fields written.flags
      cases hlast : lastNmi acpiId lint nmis with
      | none =>
          constructor
          · intro hpin
            rw [← hpin.unchanged hlast, hreg]
          · intro hbefore
            refine ⟨fun _ => ?_, by simp [hlast], by simp [hlast]⟩
            rw [hreg, hbefore]
      | some nmi =>
          constructor
          · intro hpin hlow
            have hset := (hpin.polarity nmi hlast).mpr hlow
            rw [hreg, hbit] at hset
            exact Bool.false_ne_true hset
          · intro hhigh
            refine ⟨by simp [hlast], fun other _ => ?_, fun other hother => ?_⟩
            · rw [hreg]
              exact hmode
            · obtain rfl := Option.some.inj (hlast.symm.trans hother)
              rw [hreg, hbit]
              exact iff_of_false Bool.false_ne_true hhigh

end Nmis

/-- The two pins of a processor are programmed as the firmware says exactly if no entry
makes the code follow a null pointer and the last entries for the first processor of the
list, which the code goes by, agree with those for this one: for each pin there is an entry
for both and the one for this processor is not active low, or there is none for either. -/
theorem nmi_pins_programmed_iff (lapics : List MadtLApic) (nmis : List MadtLApicNmi)
    (registers : Registers) (acpiId : BitVec 8) :
    (∃ after, configureNmis lapics registers nmis = some after ∧
      ∀ lint, ProgramsPin acpiId nmis registers after lint) ↔
      (∀ nmi ∈ nmis, nmi.uid ≠ lapicNmiAllCpus → lapics ≠ []) ∧
        ∀ lint : Lint,
          PinAgrees (assumedId lapics) acpiId nmis (registers lint.reg) lint := by
  constructor
  · rintro ⟨after, hafter, hpins⟩
    have hlist : ∀ nmi ∈ nmis, nmi.uid ≠ lapicNmiAllCpus → lapics ≠ [] := by
      rintro nmi hmem huid rfl
      rw [configureNmis_nil hmem huid] at hafter
      exact absurd hafter (by simp)
    rw [configureNmis_eq hlist] at hafter
    obtain rfl := Option.some.inj hafter
    exact ⟨hlist, fun lint => programsPin_iff.mp (hpins lint)⟩
  · rintro ⟨hlist, hagrees⟩
    exact ⟨_, configureNmis_eq hlist, fun lint => programsPin_iff.mpr (hagrees lint)⟩

/-- An entry for all processors and one for another processor.  This processor is the
second of the list. -/
theorem nmi_pins_programmed_iff_high :
    ∃ after, configureNmis [⟨1, 1, 1⟩, ⟨0, 0, 1⟩] (fun _ => 0x10000)
        [⟨0xff, 5, 1⟩, ⟨3, 0xf, 0⟩] = some after ∧
      ∀ lint, ProgramsPin 0 [⟨0xff, 5, 1⟩, ⟨3, 0xf, 0⟩] (fun _ => 0x10000) after lint := by
  apply (nmi_pins_programmed_iff _ _ _ _).mpr
  refine ⟨by simp, fun lint => ?_⟩
  have hlast : lastNmi 0 lint [⟨0xff, 5, 1⟩, ⟨3, 0xf, 0⟩] =
      lastNmi 1 lint [⟨0xff, 5, 1⟩, ⟨3, 0xf, 0⟩] := by
    cases lint <;> decide
  have hassumed : assumedId [⟨1, 1, 1⟩, ⟨0, 0, 1⟩] = 1 := rfl
  rw [PinAgrees, hassumed, hlast]
  cases lint with
  | lint0 => exact trivial
  | lint1 => exact (by decide : ¬ActiveLow ⟨0xff, 5, 1⟩)

/-- An active-low entry leaves bit 13 clear and sets the lowest bit of the vector.  And
the entry of a processor that is second in the list is skipped. -/
theorem nmi_polarity_lost :
    (lastNmi 0 .lint1 [⟨0xff, 3, 1⟩] = some ⟨0xff, 3, 1⟩ ∧ ActiveLow ⟨0xff, 3, 1⟩ ∧
      (configureNmis [⟨0, 0, 1⟩] (fun _ => 0x10000) [⟨0xff, 3, 1⟩]).map
        (fun after => after .lvtLint1) = some 0x405 ∧
      (0x405 : BitVec 32).getLsbD 13 = false) ∧
    lastNmi 1 .lint1 [⟨1, 0, 1⟩] = some ⟨1, 0, 1⟩ ∧
      (configureNmis [⟨0, 0, 1⟩, ⟨1, 1, 1⟩] (fun _ => 0x10000) [⟨1, 0, 1⟩]).map
        (fun after => after .lvtLint1) = some 0x10000 := by
  decide

end Flurry.LapicSetup
