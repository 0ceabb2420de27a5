import Mathlib.Logic.Function.Iterate

/-!
# Loops that count up to a bound

A loop `while position < bound do position := advance position` ends in a way that
is easy to see if every iteration gets further.  Whether it does is decided one
iteration at a time, and an invariant of the positions is enough.
-/

namespace Flurry.Climb

/-- Every iteration gets further, until the bound is reached. -/
def Climbs (advance : ℕ → ℕ) (bound start : ℕ) : Prop :=
  ∃ n, bound ≤ advance^[n] start ∧
    ∀ m < n, advance^[m] start < bound ∧ advance^[m] start < advance^[m + 1] start

variable {advance : ℕ → ℕ} {bound start : ℕ}

theorem Climbs.of_le (hstart : bound ≤ start) : Climbs advance bound start :=
  ⟨0, hstart, by simp⟩

/-- One iteration. -/
theorem climbs_iff_of_lt (hstart : start < bound) :
    Climbs advance bound start ↔
      start < advance start ∧ Climbs advance bound (advance start) := by
  constructor
  · rintro ⟨n, hend, hclimb⟩
    cases n with
    | zero => exact absurd hend (Nat.not_le_of_lt hstart)
    | succ n =>
        refine ⟨(hclimb 0 (Nat.succ_pos n)).2, n, hend, ?_⟩
        intro m hm
        exact hclimb (m + 1) (Nat.succ_lt_succ hm)
  · rintro ⟨hfirst, n, hend, hclimb⟩
    refine ⟨n + 1, hend, ?_⟩
    intro m hm
    cases m with
    | zero => exact ⟨hstart, hfirst⟩
    | succ m => exact hclimb m (Nat.lt_of_succ_lt_succ hm)

/-- An invariant that forces progress below the bound. -/
theorem climbs_of_invariant (Position : ℕ → Prop) (hstart : Position start)
    (hstep : ∀ {position}, Position position → position < bound →
      position < advance position ∧ Position (advance position)) :
    Climbs advance bound start := by
  -- by induction on the distance that is left
  induction hdistance : bound - start using Nat.strongRecOn generalizing start with
  | ind distance ih =>
      by_cases hend : bound ≤ start
      · exact Climbs.of_le hend
      · have hlt : start < bound := Nat.lt_of_not_le hend
        obtain ⟨hfirst, hnext⟩ := hstep hstart hlt
        rw [climbs_iff_of_lt hlt]
        exact ⟨hfirst, ih (bound - advance start) (by omega) hnext rfl⟩

end Flurry.Climb
