import Mathlib.Algebra.Order.Floor.Div
import Flurry.Hardware.Lapic
import Flurry.Hardware.Tsc

/-!
# Waiting on the HPET, and what is calibrated by it

`timer_wait_ns` polls the main counter of the HPET.  The length of a period is
given in femtoseconds and cut to whole nanoseconds before the counter is
multiplied with it, so a wait takes too long by the part that was cut, once for
every period it lasts.  The first read may come at any time within a period, and
the part of it that is over by then is missing from the wait.  The frequency of
the time stamp counter and the calibration of the local APIC timer inherit both
errors.
-/

namespace Flurry.Calibration

open ByteMemory

/-! ## `hpet.c` and `timer.c` -/

/-- `period` is what `hpet_setup` reads from the capabilities, in femtoseconds. -/
def hpetGetElapsedNs (period mainCounter : ℕ) : ℕ :=
  wrap64 (mainCounter * (period / 1000000))

/-- The loop of `timer_wait_ns` from the read with number `index` on, with `reads` the
values it finds in the main counter.  The result is the number of the last read, `none`
if the loop is still running after `fuel` of them. -/
def timerWaitLoop (period time : ℕ) (reads : ℕ → ℕ) : ℕ → ℕ → Option ℕ
  | 0, _ => none
  | fuel + 1, index =>
      if time > hpetGetElapsedNs period (reads index) then
        timerWaitLoop period time reads fuel (index + 1)
      else some index

def timerWaitNs (period value : ℕ) (reads : ℕ → ℕ) (fuel : ℕ) : Option ℕ :=
  let time := wrap64 (hpetGetElapsedNs period (reads 0) + value)
  timerWaitLoop period time reads fuel 1

/-- The loop ends with the first read that has reached the time. -/
theorem timerWaitLoop_iff {period time : ℕ} {reads : ℕ → ℕ} {first last : ℕ} :
    (∃ fuel, timerWaitLoop period time reads fuel first = some last) ↔
      first ≤ last ∧ time ≤ hpetGetElapsedNs period (reads last) ∧
        ∀ index, first ≤ index → index < last →
          hpetGetElapsedNs period (reads index) < time := by
  constructor
  · rintro ⟨fuel, hloop⟩
    induction fuel generalizing first with
    | zero => simp [timerWaitLoop] at hloop
    | succ fuel ih =>
        rw [timerWaitLoop] at hloop
        split at hloop
        · rename_i hwait
          obtain ⟨hle, hreached, hwaits⟩ := ih hloop
          refine ⟨by omega, hreached, fun index hfirst hlast => ?_⟩
          rcases Nat.eq_or_lt_of_le hfirst with rfl | hlater
          · exact hwait
          · exact hwaits index hlater hlast
        · rename_i hdone
          obtain rfl := Option.some.inj hloop
          exact ⟨le_rfl, Nat.le_of_not_lt hdone, fun index hfirst hlast => by omega⟩
  · rintro ⟨hle, hreached, hwaits⟩
    obtain ⟨count, rfl⟩ := Nat.exists_eq_add_of_le hle
    clear hle
    -- the reads that are still ahead are counted down to the last one
    induction count generalizing first with
    | zero => exact ⟨1, if_neg (Nat.not_lt.mpr hreached)⟩
    | succ count ih =>
        have hshift : first + 1 + count = first + (count + 1) := by omega
        obtain ⟨fuel, hloop⟩ := @ih (first + 1) (by rwa [hshift]) (by
          intro index hfirst hlast
          exact hwaits index (by omega) (by omega))
        refine ⟨fuel + 1, ?_⟩
        rw [timerWaitLoop, if_pos (hwaits first le_rfl (by omega)), hloop, hshift]

/-! ## Real time -/

/-- The instants at which the main counter is read, in femtoseconds from the instant at
which it was 0.  The first read finds `start`, at whatever time within that period it
is made, and there is a read at every increment after it. -/
structure Polling (period start : ℕ) where
  time : ℕ → ℕ
  increasing : StrictMono time
  begins : start * period ≤ time 0
  before : time 0 < (start + 1) * period
  polled : ∀ count, start < count → ∃ index, time index = count * period

namespace Polling

variable {period start : ℕ}

/-- What the read finds in the main counter. -/
def counter (polling : Polling period start) (index : ℕ) : ℕ :=
  polling.time index / period

/-- How much of its period is over at the first read. -/
def phase (polling : Polling period start) : ℕ := polling.time 0 - start * period

/-- The real time since the first read. -/
def elapsed (polling : Polling period start) (index : ℕ) : ℕ :=
  polling.time index - polling.time 0

/-- `timer_wait_ns` returns after the read with the given number. -/
def Returns (polling : Polling period start) (value index : ℕ) : Prop :=
  ∃ fuel, timerWaitNs period value polling.counter fuel = some index

/-- No value wraps before the wait is over: neither the time that is waited for nor the
time of any read up to the first that reaches it. -/
def Fits (polling : Polling period start) (value : ℕ) : Prop :=
  start * (period / 1000000) + value < 2 ^ 64 ∧
    ∀ index, (∀ earlier, 0 < earlier → earlier < index →
      polling.counter earlier * (period / 1000000) <
        start * (period / 1000000) + value) →
      polling.counter index * (period / 1000000) < 2 ^ 64

end Polling

/-- A first read with the given phase, and one read at every increment after it. -/
def Polling.everyIncrement (period start phase : ℕ) (hphase : phase < period) :
    Polling period start where
  time := fun index => (start + index) * period + if index = 0 then phase else 0
  increasing := by
    apply strictMono_nat_of_lt_succ
    intro index
    have hnext : (start + (index + 1)) * period = (start + index) * period + period := by
      rw [← Nat.add_assoc, Nat.succ_mul]
    rw [if_neg (Nat.succ_ne_zero index), hnext]
    split <;> omega
  begins := Nat.le_add_right _ _
  before := by
    rw [if_pos rfl, Nat.add_zero, Nat.succ_mul]
    omega
  polled := fun count hcount => ⟨count - start, by
    rw [if_neg (by omega), Nat.add_sub_cancel' hcount.le, Nat.add_zero]⟩

/-- The number of increments a wait lasts: the period counts as whole nanoseconds. -/
def waitIncrements (period value : ℕ) : ℕ := value ⌈/⌉ (period / 1000000)

/-- How much longer the increments of a wait last than the wait, in femtoseconds: what was
cut from the period, once for each of them, and the rounding to whole increments. -/
def waitExcess (period value : ℕ) : ℕ :=
  waitIncrements period value * (period % 1000000) +
    (waitIncrements period value * (period / 1000000) - value) * 1000000

/-- A wait of 0 is over at once.  Any other lasts long enough if the excess makes up for the
phase of the first read, and not too long if what remains of it is less than two
periods. -/
def ExcessFits (period value phase : ℕ) : Prop :=
  value = 0 ∨ phase ≤ waitExcess period value ∧ waitExcess period value < phase + 2 * period

instance (period value phase : ℕ) : Decidable (ExcessFits period value phase) :=
  inferInstanceAs (Decidable (_ ∨ _))

namespace Polling

variable {period start value index : ℕ} {polling : Polling period start}

theorem counter_zero : polling.counter 0 = start :=
  Nat.div_eq_of_lt_le polling.begins polling.before

theorem time_zero : polling.time 0 = start * period + polling.phase :=
  (Nat.add_sub_cancel' polling.begins).symm

theorem phase_lt : polling.phase < period := by
  have hbefore := polling.before
  rw [time_zero, Nat.succ_mul] at hbefore
  omega

theorem counter_le_iff (hperiod : 0 < period) {count : ℕ} :
    count ≤ polling.counter index ↔ count * period ≤ polling.time index :=
  Nat.le_div_iff_mul_le hperiod

/-- Without wrap-around, the wait ends with the first read at or after the time. -/
theorem returns_iff (hfits : polling.Fits value) :
    polling.Returns value index ↔ 1 ≤ index ∧
      start * (period / 1000000) + value ≤ polling.counter index * (period / 1000000) ∧
        ∀ earlier, 1 ≤ earlier → earlier < index →
          polling.counter earlier * (period / 1000000) <
            start * (period / 1000000) + value := by
  obtain ⟨htime, hreads⟩ := hfits
  have hstart : hpetGetElapsedNs period (polling.counter 0) =
      start * (period / 1000000) := by
    rw [hpetGetElapsedNs, counter_zero]
    exact wrap64_of_lt (by omega)
  have hread : ∀ last, (∀ earlier, 1 ≤ earlier → earlier < last →
      polling.counter earlier * (period / 1000000) <
        start * (period / 1000000) + value) →
      hpetGetElapsedNs period (polling.counter last) =
        polling.counter last * (period / 1000000) := by
    intro last hearlier
    exact wrap64_of_lt (hreads last hearlier)
  rw [Returns]
  simp only [timerWaitNs, hstart, wrap64_of_lt htime]
  rw [timerWaitLoop_iff]
  constructor
  · rintro ⟨hfirst, hreached, hwaits⟩
    have hless : ∀ earlier, 1 ≤ earlier → earlier < index →
        polling.counter earlier * (period / 1000000) <
          start * (period / 1000000) + value := by
      intro earlier
      induction earlier using Nat.strong_induction_on with
      | _ earlier ih =>
          intro hone hearlier
          rw [← hread earlier fun other hother hlt => ih other hlt hother (by omega)]
          exact hwaits earlier hone hearlier
    exact ⟨hfirst, hread index hless ▸ hreached, hless⟩
  · rintro ⟨hfirst, hreached, hless⟩
    refine ⟨hfirst, (hread index hless).symm ▸ hreached, ?_⟩
    intro earlier hone hearlier
    rw [hread earlier fun other hother hlt => hless other hother (by omega)]
    exact hless earlier hone hearlier

/-- A time is reached after as many increments as it has periods in whole nanoseconds. -/
theorem reached_iff (hperiod : 1000000 ≤ period) (hstart : start ≤ polling.counter index) :
    start * (period / 1000000) + value ≤ polling.counter index * (period / 1000000) ↔
      start + waitIncrements period value ≤ polling.counter index := by
  obtain ⟨count, hcount⟩ := Nat.exists_eq_add_of_le hstart
  have hpositive : 0 < period / 1000000 := Nat.div_pos hperiod (by decide)
  rw [hcount, Nat.add_mul, Nat.add_le_add_iff_left, Nat.add_le_add_iff_left, waitIncrements,
    ceilDiv_le_iff_le_mul hpositive, Nat.mul_comm]

theorem start_le_counter (hperiod : 0 < period) : start ≤ polling.counter index := by
  rw [counter_le_iff hperiod]
  exact polling.begins.trans (polling.increasing.monotone (Nat.zero_le index))

/-- The read at the increment with number `count`. -/
theorem exists_read (hperiod : 0 < period) {count : ℕ} (hcount : 0 < count) :
    ∃ index, 1 ≤ index ∧ polling.time index = (start + count) * period ∧
      polling.counter index = start + count := by
  obtain ⟨index, hindex⟩ := polling.polled (start + count) (by omega)
  refine ⟨index, ?_, hindex, ?_⟩
  · apply polling.increasing.lt_iff_lt.mp
    rw [hindex]
    exact polling.before.trans_le (Nat.mul_le_mul_right period (by omega))
  · rw [counter, hindex, Nat.mul_div_cancel _ hperiod]

theorem exists_returns (hperiod : 1000000 ≤ period) (hfits : polling.Fits value) :
    ∃ index, polling.Returns value index := by
  have hpositive : 0 < period := by omega
  have hreached : ∃ index, 1 ≤ index ∧ start * (period / 1000000) + value ≤
      polling.counter index * (period / 1000000) := by
    obtain ⟨index, hindex, -, hcounter⟩ :=
      @exists_read period start polling hpositive (waitIncrements period value + 1)
        (Nat.succ_pos _)
    refine ⟨index, hindex, ?_⟩
    rw [reached_iff hperiod (start_le_counter hpositive), hcounter]
    omega
  -- the first of the reads that have reached the time
  classical
  have hspec := Nat.find_spec hreached
  refine ⟨Nat.find hreached, (returns_iff hfits).mpr ⟨hspec.1, hspec.2, ?_⟩⟩
  intro earlier hone hearlier
  exact Nat.lt_of_not_le fun hle => Nat.find_min hreached hearlier ⟨hone, hle⟩

/-- A wait lasts to the end of a whole number of periods; a wait of 0 is over with the next
read. -/
theorem elapsed_of_returns (hperiod : 1000000 ≤ period) (hfits : polling.Fits value)
    (hreturns : polling.Returns value index) :
    if value = 0 then polling.elapsed index ≤ period
    else polling.elapsed index + polling.phase = waitIncrements period value * period := by
  have hpositive : 0 < period := by omega
  obtain ⟨hone, hreached, hless⟩ := (returns_iff hfits).mp hreturns
  rw [reached_iff hperiod (start_le_counter hpositive)] at hreached
  split
  · rename_i hzero
    have hindex : index = 1 := by
      by_contra hne
      have hstart := Nat.mul_le_mul_right (period / 1000000)
        (@start_le_counter period start 1 polling hpositive)
      have hfirst := hless 1 le_rfl (by omega)
      omega
    obtain ⟨next, hnext, htime, -⟩ := @exists_read period start polling hpositive 1 one_pos
    have hle : polling.time index ≤ polling.time next :=
      polling.increasing.monotone (hindex ▸ hnext)
    rw [elapsed, time_zero]
    rw [htime, Nat.add_mul] at hle
    omega
  · rename_i hne
    have hcount : 0 < waitIncrements period value := by
      rw [Nat.pos_iff_ne_zero, ne_eq, ← Nat.le_zero, waitIncrements,
        ceilDiv_le_iff_le_mul (Nat.div_pos hperiod (by decide))]
      omega
    obtain ⟨target, htarget, htime, hcounter⟩ :=
      @exists_read period start polling hpositive _ hcount
    -- the wait does not go past the read at the last increment, and does not end before
    have hindex : index = target := by
      apply Nat.le_antisymm
      · by_contra hlater
        have hearlier := hless target htarget (by omega)
        rw [← Nat.not_le, reached_iff hperiod (start_le_counter hpositive), hcounter]
          at hearlier
        exact hearlier le_rfl
      · apply polling.increasing.le_iff_le.mp
        rw [htime]
        exact (counter_le_iff hpositive).mp hreached
    have hlast : start * period + polling.phase ≤
        start * period + waitIncrements period value * period := by
      rw [← time_zero, ← Nat.add_mul, ← htime]
      exact polling.increasing.monotone (Nat.zero_le target)
    rw [elapsed, hindex, htime, time_zero, Nat.add_mul]
    omega

end Polling

theorem waitIncrements_mul (period value : ℕ) (hperiod : 1000000 ≤ period) :
    waitIncrements period value * period = value * 1000000 + waitExcess period value := by
  have hround : value ≤ waitIncrements period value * (period / 1000000) := by
    rw [waitIncrements, Nat.mul_comm]
    exact (ceilDiv_le_iff_le_mul (Nat.div_pos hperiod (by decide))).mp le_rfl
  unfold waitExcess
  set count := waitIncrements period value
  calc count * period
      = count * (period % 1000000 + 1000000 * (period / 1000000)) := by
        rw [Nat.mod_add_div]
    _ = count * (period % 1000000) + count * (period / 1000000) * 1000000 := by ring
    _ = _ := by omega

section Wait

variable {period start value : ℕ} {polling : Polling period start}

/-- The time a wait takes lies within two periods above the time asked for exactly if the
excess fits. -/
theorem elapsed_bounds_iff {index : ℕ} (hperiod : 1000000 ≤ period)
    (hfits : polling.Fits value) (hreturns : polling.Returns value index) :
    (value * 1000000 ≤ polling.elapsed index ∧
      polling.elapsed index < value * 1000000 + 2 * period) ↔
        ExcessFits period value polling.phase := by
  have helapsed := polling.elapsed_of_returns hperiod hfits hreturns
  have hsplit := waitIncrements_mul period value hperiod
  unfold ExcessFits
  split at helapsed <;> omega

theorem wait_accurate_iff (hperiod : 1000000 ≤ period) (hfits : polling.Fits value) :
    (∃ index, polling.Returns value index ∧ value * 1000000 ≤ polling.elapsed index ∧
      polling.elapsed index < value * 1000000 + 2 * period) ↔
        ExcessFits period value polling.phase := by
  constructor
  · rintro ⟨index, hreturns, hbounds⟩
    exact (elapsed_bounds_iff hperiod hfits hreturns).mp hbounds
  · intro hexcess
    obtain ⟨index, hreturns⟩ := polling.exists_returns hperiod hfits
    exact ⟨index, hreturns, (elapsed_bounds_iff hperiod hfits hreturns).mpr hexcess⟩

end Wait

/-! ## What is calibrated -/

/-- A counter with `rate` ticks in a second advances by `ticks` in the given number of
femtoseconds: the ticks at both ends may be cut. -/
def Advances (rate elapsed ticks : ℕ) : Prop :=
  rate * elapsed < (ticks + 1) * 10 ^ 15 ∧ ticks * 10 ^ 15 < rate * elapsed + 10 ^ 15

def tenMs : ℕ := 10000000

/-- `tsc_init` with the two values it reads from the time stamp counter. -/
def tscInit (tscStart tscEnd : ℕ) : ℕ := wrap64 (sub64 tscEnd tscStart * 100)

def calibrationIntervalNs : ℕ := 100000000

def iterations : ℕ := 5

/-- `init_count - current_count` in 32 bits. -/
def ticksElapsed (currentCount : ℕ) : ℕ :=
  (Lapic.uint32Max + (2 ^ 32 - currentCount)) % 2 ^ 32

/-- `calibrate_timer` with the counts that it reads after each of its waits. -/
def calibrateTimer (currentCounts : List ℕ) : ℕ :=
  (currentCounts.map ticksElapsed).sum / iterations

/-- The count one iteration of `calibrate_timer` reads: the local APIC timer has counted
down from the maximum while `timer_wait_ns` waited, from a first read with the given
phase. -/
def CountAfterWait (period phase rate currentCount : ℕ) : Prop :=
  ∃ (start : ℕ) (polling : Polling period start) (index ticks : ℕ),
    polling.phase = phase ∧ polling.Fits calibrationIntervalNs ∧
      polling.Returns calibrationIntervalNs index ∧ Advances rate (polling.elapsed index) ticks ∧ ticks ≤ Lapic.uint32Max ∧
        currentCount = Lapic.uint32Max - ticks

/-- The ticks counted during an accurate wait. -/
theorem Advances.bounds {rate elapsed ticks shortest period : ℕ}
    (hadvances : Advances rate elapsed ticks) (hlower : shortest ≤ elapsed)
    (hupper : elapsed < shortest + 2 * period) :
    rate * shortest < (ticks + 1) * 10 ^ 15 ∧
      ticks * 10 ^ 15 < rate * (shortest + 2 * period) + 10 ^ 15 :=
  ⟨(Nat.mul_le_mul_left rate hlower).trans_lt hadvances.1,
    hadvances.2.trans_le (Nat.add_le_add_right (Nat.mul_le_mul_left rate hupper.le) _)⟩

theorem tscInit_eq {tscStart ticks : ℕ} (hticks : ticks * 100 < 2 ^ 64) :
    tscInit tscStart (wrap64 (tscStart + ticks)) = ticks * 100 := by
  have hsub : sub64 (wrap64 (tscStart + ticks)) tscStart = ticks := by
    unfold sub64 wrap64
    omega
  rw [tscInit, hsub, wrap64_of_lt hticks]

theorem ticksElapsed_eq {ticks : ℕ} (hticks : ticks ≤ Lapic.uint32Max) :
    ticksElapsed (Lapic.uint32Max - ticks) = ticks := by
  unfold ticksElapsed Lapic.uint32Max at *
  omega

/-- Each of the waits counts the ticks of a tenth of a second. -/
theorem CountAfterWait.bounds {period phase rate currentCount : ℕ}
    (hperiod : 1000000 ≤ period) (hexcess : ExcessFits period calibrationIntervalNs phase)
    (hcount : CountAfterWait period phase rate currentCount) :
    rate * 10 ^ 14 < (ticksElapsed currentCount + 1) * 10 ^ 15 ∧
      ticksElapsed currentCount * 10 ^ 15 < rate * (10 ^ 14 + 2 * period) + 10 ^ 15 := by
  obtain ⟨start, polling, index, ticks, rfl, hfits, hreturns, hadvances, hticks, rfl⟩ := hcount
  obtain ⟨hlower, hupper⟩ := (elapsed_bounds_iff hperiod hfits hreturns).mpr hexcess
  rw [ticksElapsed_eq hticks]
  exact hadvances.bounds hlower hupper

/-- The average of bounded counts is bounded. -/
theorem calibrateTimer_bounds {rate upper : ℕ} {currentCounts : List ℕ}
    (hlength : currentCounts.length = iterations)
    (hbounds : ∀ count ∈ currentCounts, rate * 10 ^ 14 < (ticksElapsed count + 1) * 10 ^ 15 ∧
      ticksElapsed count * 10 ^ 15 < upper) :
    rate < (calibrateTimer currentCounts + 2) * 10 ∧
      calibrateTimer currentCounts * 10 ^ 15 < upper := by
  have hsum : ∀ counts : List ℕ, (∀ count ∈ counts, count ∈ currentCounts) →
      counts.length * (rate * 10 ^ 14) ≤
          ((counts.map ticksElapsed).sum + counts.length) * 10 ^ 15 ∧
        (counts.map ticksElapsed).sum * 10 ^ 15 ≤ counts.length * (upper - 1) := by
    intro counts hcounts
    induction counts with
    | nil => simp
    | cons count counts ih =>
        obtain ⟨hlower, hupper⟩ := ih fun other hother => hcounts other (by simp [hother])
        obtain ⟨hlower', hupper'⟩ := hbounds count (hcounts count (by simp))
        simp only [List.map_cons, List.sum_cons, List.length_cons, Nat.add_mul, Nat.one_mul]
          at hlower' hlower ⊢
        omega
  obtain ⟨hlower, hupper⟩ := hsum currentCounts fun _ hcount => hcount
  rw [hlength] at hlower hupper
  have hpositive : 0 < upper := by
    cases currentCounts with
    | nil => simp [iterations] at hlength
    | cons count counts => exact (Nat.zero_le _).trans_lt (hbounds count (by simp)).2
  unfold calibrateTimer iterations at *
  omega

/-- A wait takes at least the time asked for and less than two periods more exactly if the
excess of its increments fits the phase of its first read.  If it does for the waits of the
calibrations, then the frequencies they find are those of the counters up to two periods and
the ticks that were cut at the ends of a wait. -/
theorem calibration_accurate_iff {period : ℕ} (hperiod : 1000000 ≤ period) :
    (∀ (start : ℕ) (polling : Polling period start) (value : ℕ), polling.Fits value →
      ((∃ index, polling.Returns value index ∧
          value * 1000000 ≤ polling.elapsed index ∧
            polling.elapsed index < value * 1000000 + 2 * period) ↔
        ExcessFits period value polling.phase)) ∧
    (∀ (start : ℕ) (polling : Polling period start) (index rate ticks tscStart : ℕ),
      ExcessFits period tenMs polling.phase → polling.Fits tenMs →
        polling.Returns tenMs index → Advances rate (polling.elapsed index) ticks →
          ticks * 100 < 2 ^ 64 →
            rate < tscInit tscStart (wrap64 (tscStart + ticks)) + 100 ∧
              tscInit tscStart (wrap64 (tscStart + ticks)) * 10 ^ 13 <
                rate * (10 ^ 13 + 2 * period) + 100 * 10 ^ 13) ∧
    (∀ (rate : ℕ) (currentCounts : List ℕ), currentCounts.length = iterations →
      (∀ count ∈ currentCounts, ∃ phase, ExcessFits period calibrationIntervalNs phase ∧
        CountAfterWait period phase rate count) →
          rate < (calibrateTimer currentCounts + 2) * 10 ∧
            calibrateTimer currentCounts * 10 ^ 15 <
              rate * (10 ^ 14 + 2 * period) + 10 ^ 15) := by
  refine ⟨?_, ?_, ?_⟩
  · intro start polling value hfits
    exact wait_accurate_iff hperiod hfits
  · intro start polling index rate ticks tscStart hexcess hfits hreturns hadvances hticks
    obtain ⟨hlower, hupper⟩ := (elapsed_bounds_iff hperiod hfits hreturns).mpr hexcess
    obtain ⟨hleast, hmost⟩ := hadvances.bounds hlower hupper
    have hinterval : tenMs * 1000000 = 10 ^ 13 := by decide
    rw [hinterval] at hleast hmost
    rw [tscInit_eq hticks]
    omega
  · intro rate currentCounts hlength hcounts
    refine calibrateTimer_bounds hlength fun count hcount => ?_
    obtain ⟨phase, hexcess, hafter⟩ := hcounts count hcount
    exact hafter.bounds hperiod hexcess

namespace Polling

variable {period start phase value : ℕ} {hphase : phase < period}

theorem counter_everyIncrement (index : ℕ) :
    (everyIncrement period start phase hphase).counter index = start + index := by
  have hperiod : 0 < period := by omega
  rw [counter, everyIncrement]
  dsimp only
  rw [Nat.add_comm, Nat.add_mul_div_right _ _ hperiod, Nat.div_eq_of_lt, Nat.zero_add]
  split <;> omega

theorem phase_everyIncrement : (everyIncrement period start phase hphase).phase = phase :=
  Nat.add_sub_cancel_left _ _

/-- The time of the last of regular reads is less than one period beyond the wait. -/
theorem fits_everyIncrement
    (hfits : start * (period / 1000000) + value + period / 1000000 < 2 ^ 64) :
    (everyIncrement period start phase hphase).Fits value := by
  refine ⟨by omega, fun index hearlier => ?_⟩
  rw [counter_everyIncrement]
  rcases Nat.lt_or_ge index 2 with hsmall | hlarge
  · have hle : (start + index) * (period / 1000000) ≤
        start * (period / 1000000) + period / 1000000 := by
      rw [← Nat.succ_mul]
      exact Nat.mul_le_mul_right _ (by omega)
    omega
  · obtain ⟨previous, rfl⟩ : ∃ previous, index = previous + 1 := ⟨index - 1, by omega⟩
    have hless := hearlier previous (by omega) (Nat.lt_succ_self previous)
    rw [counter_everyIncrement] at hless
    rw [← Nat.add_assoc, Nat.add_mul, Nat.one_mul]
    omega

end Polling

/-- A period of 10.5 ns, of which half is over at the first read. -/
theorem calibration_accurate_iff_short_wait :
    ∃ index, (Polling.everyIncrement 10500000 0 5250000 (by decide)).Returns 105 index ∧
      105 * 1000000 ≤
          (Polling.everyIncrement 10500000 0 5250000 (by decide)).elapsed index ∧
        (Polling.everyIncrement 10500000 0 5250000 (by decide)).elapsed index <
          105 * 1000000 + 2 * 10500000 := by
  apply ((calibration_accurate_iff (by decide)).1 0 _ 105
    (Polling.fits_everyIncrement (by decide))).mpr
  rw [Polling.phase_everyIncrement]
  decide

/-- With the period of a counter of 14.31818 MHz, a wait of 10 ms takes more than 10.1
ms, and with a period of 10 ns, a wait of 10 ns that begins 9 ns after an increment takes
1 ns. -/
theorem calibration_wait_too_long :
    ((Polling.everyIncrement 69841279 0 0 (by decide)).Fits tenMs ∧
      ¬∃ index, (Polling.everyIncrement 69841279 0 0 (by decide)).Returns tenMs index ∧
        tenMs * 1000000 ≤ (Polling.everyIncrement 69841279 0 0 (by decide)).elapsed index ∧
          (Polling.everyIncrement 69841279 0 0 (by decide)).elapsed index <
            tenMs * 1000000 + 2 * 69841279) ∧
    (Polling.everyIncrement 10000000 0 9000000 (by decide)).Fits 10 ∧
      ¬∃ index, (Polling.everyIncrement 10000000 0 9000000 (by decide)).Returns 10 index ∧
        10 * 1000000 ≤ (Polling.everyIncrement 10000000 0 9000000 (by decide)).elapsed index ∧
          (Polling.everyIncrement 10000000 0 9000000 (by decide)).elapsed index <
            10 * 1000000 + 2 * 10000000 := by
  have hlong : (Polling.everyIncrement 69841279 0 0 (by decide)).Fits tenMs :=
    Polling.fits_everyIncrement (by decide)
  have hshort : (Polling.everyIncrement 10000000 0 9000000 (by decide)).Fits 10 :=
    Polling.fits_everyIncrement (by decide)
  refine ⟨⟨hlong, ?_⟩, hshort, ?_⟩
  · rw [wait_accurate_iff (by decide) hlong, Polling.phase_everyIncrement]
    decide
  · rw [wait_accurate_iff (by decide) hshort, Polling.phase_everyIncrement]
    decide

end Flurry.Calibration
