import Flurry.Core.ByteMemory

/-!
# The local APIC timer of `lapic.c`

The timer counts down from the value in its initial-count register.  A delay in
nanoseconds becomes a number of ticks by the calibration, the ticks counted in
a tenth of a second at boot.
-/

namespace Flurry.Lapic

open ByteMemory

def clamp (value min max : ℕ) : ℕ :=
  if value < min then min else if value > max then max else value

def lvtTimerOneShot : ℕ := 0x0
def lvtTimerPeriodic : ℕ := 0x20000

def uint32Max : ℕ := 2 ^ 32 - 1

/-- The timer's registers. -/
structure Timer where
  lvtTimer : ℕ
  initCount : ℕ
  deriving DecidableEq, Repr

/-- The product is taken in 64 bits. -/
def nsToLapicTicks (calibration ns : ℕ) : ℕ :=
  wrap64 (ns * calibration) / 100000000

def lapicTimer (mode calibration ns vec : ℕ) : Timer where
  lvtTimer := mode ||| vec
  initCount := clamp (nsToLapicTicks calibration ns) 1 uint32Max

def lapicTimerOneShot (calibration ns vec : ℕ) : Timer :=
  lapicTimer lvtTimerOneShot calibration ns vec

def lapicTimerPeriodic (calibration ns vec : ℕ) : Timer :=
  lapicTimer lvtTimerPeriodic calibration ns vec

/-! ## Counts -/

/-- The delay in ticks over the integers, saturated to the range of the register. -/
def saturatedCount (calibration ns : ℕ) : ℕ :=
  min (max (ns * calibration / 100000000) 1) uint32Max

theorem clamp_eq_min_max (value : ℕ) :
    clamp value 1 uint32Max = min (max value 1) uint32Max := by
  have hrange : 1 ≤ uint32Max := by decide
  unfold clamp
  split_ifs <;> omega

theorem saturatedCount_mono (calibration : ℕ) {ns longer : ℕ} (hle : ns ≤ longer) :
    saturatedCount calibration ns ≤ saturatedCount calibration longer := by
  unfold saturatedCount
  gcongr

/-- The product wraps, so that the count is the saturated one exactly if the product
fits, or if the residue happens to saturate as well. -/
theorem lapicTimer_initCount_iff (mode calibration ns vec : ℕ) :
    (lapicTimer mode calibration ns vec).initCount = saturatedCount calibration ns ↔
      ns * calibration < 2 ^ 64 ∨
        uint32Max * 100000000 ≤ ns * calibration % 2 ^ 64 := by
  have hmax : uint32Max = 4294967295 := rfl
  rw [lapicTimer, clamp_eq_min_max, nsToLapicTicks, saturatedCount, wrap64]
  generalize ns * calibration = product
  by_cases hfits : product < 2 ^ 64
  · rw [Nat.mod_eq_of_lt hfits]
    exact iff_of_true rfl (Or.inl hfits)
  · -- a product that does not fit is far beyond the range of the register
    have hlarge : uint32Max ≤ product / 100000000 := by omega
    rw [min_eq_right (le_max_of_le_left hlarge), min_eq_right_iff, le_max_iff]
    omega

/-- A product that wraps only lowers the count. -/
theorem lapicTimer_initCount_le (mode calibration ns vec : ℕ) :
    (lapicTimer mode calibration ns vec).initCount ≤ saturatedCount calibration ns := by
  have hmod : wrap64 (ns * calibration) ≤ ns * calibration := Nat.mod_le _ _
  rw [lapicTimer, clamp_eq_min_max, nsToLapicTicks, saturatedCount]
  dsimp only
  gcongr

theorem saturatedCount_zero (calibration : ℕ) : saturatedCount calibration 0 = 1 := by
  rw [saturatedCount, Nat.zero_mul]
  decide

theorem lapicTimer_initCount_le_one_iff (mode calibration ns vec : ℕ) :
    (lapicTimer mode calibration ns vec).initCount ≤ 1 ↔
      ns * calibration % 2 ^ 64 < 2 * 100000000 := by
  have hmax : uint32Max = 4294967295 := rfl
  rw [lapicTimer, clamp_eq_min_max, nsToLapicTicks, wrap64]
  dsimp only
  omega

/-- Both timers saturate exactly if the product of delay and calibration fits in 64 bits
or its residue saturates too.  As long as the product fits, a longer delay never gives a
smaller count. -/
theorem lapic_timers_saturate_iff (calibration ns vec : ℕ) :
    ((lapicTimerOneShot calibration ns vec).initCount = saturatedCount calibration ns ∧
      (lapicTimerPeriodic calibration ns vec).initCount =
        saturatedCount calibration ns ↔
      ns * calibration < 2 ^ 64 ∨
        uint32Max * 100000000 ≤ ns * calibration % 2 ^ 64) ∧
    ∀ longer, ns ≤ longer → longer * calibration < 2 ^ 64 →
      (lapicTimerOneShot calibration ns vec).initCount ≤
          (lapicTimerOneShot calibration longer vec).initCount ∧
        (lapicTimerPeriodic calibration ns vec).initCount ≤
          (lapicTimerPeriodic calibration longer vec).initCount := by
  constructor
  · rw [lapicTimerOneShot, lapicTimerPeriodic, lapicTimer_initCount_iff,
      lapicTimer_initCount_iff, and_self]
  · intro longer hle hfits
    have hfits' : ns * calibration < 2 ^ 64 :=
      (Nat.mul_le_mul_right calibration hle).trans_lt hfits
    have hmode : ∀ mode, (lapicTimer mode calibration ns vec).initCount ≤
        (lapicTimer mode calibration longer vec).initCount := by
      intro mode
      rw [(lapicTimer_initCount_iff mode calibration ns vec).mpr (Or.inl hfits'),
        (lapicTimer_initCount_iff mode calibration longer vec).mpr (Or.inl hfits)]
      exact saturatedCount_mono calibration hle
    exact ⟨hmode _, hmode _⟩

/-- With 10^8 ticks in a tenth of a second, a delay of 184467440738 ns programs the
smallest count and a delay of one second a larger one. -/
theorem lapic_timer_wraps :
    (lapicTimerOneShot 100000000 184467440738 32).initCount = 1 ∧
      saturatedCount 100000000 184467440738 = uint32Max ∧
      (lapicTimerOneShot 100000000 1000000000 32).initCount = 1000000000 := by
  decide

/-- A one-shot that was started when the clock read `armedAt`. -/
structure OneShot where
  armedAt : ℕ
  timer : Timer
  deriving DecidableEq, Repr

/-- The count runs out no later than `time`, or as early as the timer allows.
Both sides are scaled by the calibration: `calibration` ticks take a tenth of a
second. -/
def OneShot.FiresBy (calibration : ℕ) (oneShot : OneShot) (time : ℕ) : Prop :=
  oneShot.timer.initCount = 1 ∨
    oneShot.armedAt * calibration + oneShot.timer.initCount * 100000000 ≤
      time * calibration
  deriving Decidable

theorem OneShot.FiresBy.mono {calibration time later : ℕ} {oneShot : OneShot}
    (hfires : oneShot.FiresBy calibration time) (hle : time ≤ later) :
    oneShot.FiresBy calibration later :=
  hfires.imp_right fun hcount => hcount.trans (Nat.mul_le_mul_right calibration hle)

/-- A one-shot armed before its time does not fire late, whatever the
calibration: the wrapped product and the upper bound only shorten the delay. -/
theorem lapicTimerOneShot_firesBy {calibration now time delay vec : ℕ}
    (hdelay : now + delay ≤ time) :
    (OneShot.mk now (lapicTimerOneShot calibration delay vec)).FiresBy
      calibration time := by
  have hticks : nsToLapicTicks calibration delay * 100000000 ≤ delay * calibration := by
    apply (Nat.div_mul_le_self _ _).trans
    exact Nat.mod_le _ _
  have htotal : now * calibration + delay * calibration ≤ time * calibration := by
    rw [← Nat.add_mul]
    exact Nat.mul_le_mul_right calibration hdelay
  unfold OneShot.FiresBy lapicTimerOneShot lapicTimer clamp
  generalize nsToLapicTicks calibration delay = ticks at hticks ⊢
  generalize uint32Max = bound
  dsimp only
  split
  · exact Or.inl rfl
  · right
    split <;> omega

end Flurry.Lapic
