import Flurry.Core.ByteMemory

/-!
# The clock of `tsc.c`

The time stamp counter is scaled to nanoseconds.  The scaling divides first, so
that neither of the two products it adds needs more than 64 bits.  The way back
multiplies first, and its product wraps after a few seconds.
-/

namespace Flurry.Tsc

open ByteMemory

/-- `ONE_SECOND`, in nanoseconds. -/
def oneSecond : ℕ := 1000000000

/-- `tsc_ticks_to_ns` with `tsc_freq` ticks in a second; all operations are in 64
bits. -/
def tscTicksToNs (freq ticks : ℕ) : ℕ :=
  let quot := ticks / freq
  let rem := ticks % freq
  wrap64 (wrap64 (quot * oneSecond) + wrap64 (rem * oneSecond) / freq)

/-- `tsc_ns_to_ticks`; the product is taken in 64 bits. -/
def tscNsToTicks (freq time : ℕ) : ℕ :=
  wrap64 (freq * time) / oneSecond

/-- Scaling quotient and remainder on their own loses nothing. -/
theorem div_scaled (ticks freq scale : ℕ) (hfreq : 0 < freq) :
    ticks / freq * scale + ticks % freq * scale / freq = ticks * scale / freq := by
  have hsplit : ticks * scale =
      ticks % freq * scale + ticks / freq * scale * freq := by
    calc ticks * scale
        = (ticks % freq + freq * (ticks / freq)) * scale := by rw [Nat.mod_add_div]
      _ = ticks % freq * scale + ticks / freq * scale * freq := by ring
  rw [hsplit, Nat.add_mul_div_right _ _ hfreq, Nat.add_comm]

section Exact

variable {freq ticks : ℕ}

/-- The parts of the time and their sum fit in 64 bits. -/
theorem tscTicksToNs_exact (hfreq : 1 ≤ freq) (hbound : freq ≤ 18446744073)
    (hfits : ticks * 10 ^ 9 / freq < 2 ^ 64) :
    (ticks / freq * oneSecond < 2 ^ 64 ∧ ticks % freq * oneSecond < 2 ^ 64 ∧
      ticks / freq * oneSecond + ticks % freq * oneSecond / freq < 2 ^ 64) ∧
    tscTicksToNs freq ticks = ticks * 10 ^ 9 / freq := by
  have hscale : oneSecond = 10 ^ 9 := by decide
  have hsum := div_scaled ticks freq (10 ^ 9) hfreq
  have hless : ticks / freq * 10 ^ 9 + ticks % freq * 10 ^ 9 / freq < 2 ^ 64 := by
    rw [hsum]
    exact hfits
  have hquot : ticks / freq * 10 ^ 9 < 2 ^ 64 := (Nat.le_add_right _ _).trans_lt hless
  have hproduct : ticks % freq * 10 ^ 9 < 2 ^ 64 := by
    have hrem : ticks % freq < freq := Nat.mod_lt ticks hfreq
    calc ticks % freq * 10 ^ 9
        ≤ 18446744073 * 10 ^ 9 := Nat.mul_le_mul_right _ (hrem.le.trans hbound)
      _ < 2 ^ 64 := by decide
  rw [hscale]
  refine ⟨⟨hquot, hproduct, hless⟩, ?_⟩
  simp only [tscTicksToNs, hscale]
  rw [wrap64_of_lt hquot, wrap64_of_lt hproduct, hsum, wrap64_of_lt hfits]

/-- The clock does not go back.  The earlier count fits because the later one does. -/
theorem tscTicksToNs_mono {earlier : ℕ} (hfreq : 1 ≤ freq) (hbound : freq ≤ 18446744073)
    (hfits : ticks * 10 ^ 9 / freq < 2 ^ 64) (hle : earlier ≤ ticks) :
    tscTicksToNs freq earlier ≤ tscTicksToNs freq ticks := by
  have hmono : earlier * 10 ^ 9 / freq ≤ ticks * 10 ^ 9 / freq := by gcongr
  rw [(tscTicksToNs_exact hfreq hbound (hmono.trans_lt hfits)).2,
    (tscTicksToNs_exact hfreq hbound hfits).2]
  exact hmono

end Exact

/-- If the frequency is small enough for the remainder and the time itself fits in 64
bits, then no operation overflows, the time is exact, and no earlier count gives a later
time. -/
theorem tsc_clock_exact {freq ticks : ℕ} (hfreq : 1 ≤ freq) (hbound : freq ≤ 18446744073)
    (hfits : ticks * 10 ^ 9 / freq < 2 ^ 64) :
    (ticks / freq * oneSecond < 2 ^ 64 ∧ ticks % freq * oneSecond < 2 ^ 64 ∧
      ticks / freq * oneSecond + ticks % freq * oneSecond / freq < 2 ^ 64) ∧
    tscTicksToNs freq ticks = ticks * 10 ^ 9 / freq ∧
    ∀ earlier ≤ ticks, tscTicksToNs freq earlier ≤ tscTicksToNs freq ticks := by
  obtain ⟨hoverflow, hexact⟩ := tscTicksToNs_exact hfreq hbound hfits
  exact ⟨hoverflow, hexact, fun _ hle => tscTicksToNs_mono hfreq hbound hfits hle⟩

/-- A counter of 3 GHz after a minute and a half. -/
theorem tsc_clock_exact_three_ghz :
    tscTicksToNs 3000000000 270000000001 = 90000000000 :=
  (tsc_clock_exact (by decide) (by decide) (by decide)).2.1

/-! ## From nanoseconds to ticks and back -/

section RoundTrip

variable {freq time : ℕ}

/-- What is left of the product after both roundings. -/
theorem tscTicksToNs_tscNsToTicks (hfreq : 1 ≤ freq) (hbound : freq ≤ 18446744073) :
    tscTicksToNs freq (tscNsToTicks freq time) =
      wrap64 (freq * time) / 10 ^ 9 * 10 ^ 9 / freq := by
  have hround : wrap64 (freq * time) / 10 ^ 9 * 10 ^ 9 ≤ wrap64 (freq * time) :=
    Nat.div_mul_le_self _ _
  have hfits : wrap64 (freq * time) / 10 ^ 9 * 10 ^ 9 / freq < 2 ^ 64 :=
    ((Nat.div_le_self _ _).trans hround).trans_lt (Nat.mod_lt _ (by decide))
  exact (tscTicksToNs_exact hfreq hbound hfits).2

/-- A product that fits loses less than one tick, which is less than a nanosecond. -/
theorem round_trip_of_fits (hfreq : 10 ^ 9 ≤ freq) :
    time ≤ freq * time / 10 ^ 9 * 10 ^ 9 / freq + 1 ∧
      freq * time / 10 ^ 9 * 10 ^ 9 / freq ≤ time := by
  have hpositive : 0 < freq := Nat.lt_of_lt_of_le (by decide) hfreq
  constructor
  · rw [← Nat.sub_le_iff_le_add, Nat.le_div_iff_mul_le hpositive, Nat.sub_mul, Nat.one_mul,
      Nat.mul_comm time freq]
    omega
  · apply Nat.div_le_of_le_mul
    exact Nat.div_mul_le_self _ _

/-- A product that wraps loses at least 2^64, which is more than two nanoseconds. -/
theorem round_trip_of_wraps (hfreq : 1 ≤ freq) (hbound : freq ≤ 18446744073)
    (hwraps : 2 ^ 64 ≤ freq * time) :
    wrap64 (freq * time) / 10 ^ 9 * 10 ^ 9 / freq + 2 ≤ time := by
  set result := wrap64 (freq * time) / 10 ^ 9 * 10 ^ 9 / freq with hresult
  have hle : freq * result ≤ wrap64 (freq * time) :=
    (Nat.mul_div_le _ freq).trans (Nat.div_mul_le_self _ _)
  have hwrap : wrap64 (freq * time) + 2 ^ 64 ≤ freq * time := by
    rw [wrap64]
    omega
  apply Nat.le_of_mul_le_mul_left _ hfreq
  calc freq * (result + 2)
      = freq * result + 2 * freq := by ring
    _ ≤ wrap64 (freq * time) + 2 ^ 64 := by omega
    _ ≤ freq * time := hwrap

end RoundTrip

/-- The conversions are inverse up to one nanosecond exactly if the product of frequency
and time fits in 64 bits, whether or not the ticks themselves do. -/
theorem tsc_round_trip_iff {freq time : ℕ} (hfreq : 10 ^ 9 ≤ freq)
    (hbound : freq ≤ 18446744073) :
    (tscTicksToNs freq (tscNsToTicks freq time) = time ∨
      tscTicksToNs freq (tscNsToTicks freq time) + 1 = time) ↔
        freq * time < 2 ^ 64 := by
  have hpositive : 1 ≤ freq := Nat.le_trans (by decide) hfreq
  rw [tscTicksToNs_tscNsToTicks hpositive hbound]
  by_cases hfits : freq * time < 2 ^ 64
  · rw [wrap64_of_lt hfits]
    obtain ⟨hlower, hupper⟩ := @round_trip_of_fits freq time hfreq
    exact iff_of_true (by omega) hfits
  · have hless := round_trip_of_wraps hpositive hbound (Nat.le_of_not_lt hfits)
    exact iff_of_false (by omega) hfits

/-- A quarter of a second at 3 GHz. -/
theorem tsc_round_trip_iff_three_ghz :
    tscTicksToNs 3000000000 (tscNsToTicks 3000000000 250000001) = 250000001 ∨
      tscTicksToNs 3000000000 (tscNsToTicks 3000000000 250000001) + 1 = 250000001 :=
  (tsc_round_trip_iff (by decide) (by decide)).mpr (by decide)

/-- At 1 GHz a time of 18.446744074 seconds becomes 0 ticks. -/
theorem tsc_round_trip_wraps :
    1000000000 * 18446744074 / 10 ^ 9 < 2 ^ 64 ∧
      tscNsToTicks 1000000000 18446744074 = 0 ∧
        ¬(tscTicksToNs 1000000000 (tscNsToTicks 1000000000 18446744074) = 18446744074 ∨
          tscTicksToNs 1000000000 (tscNsToTicks 1000000000 18446744074) + 1 =
            18446744074) := by
  decide

end Flurry.Tsc
