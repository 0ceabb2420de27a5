import Mathlib

/-!
# Cells laid out one after another

A list of cells of known sizes, placed without gaps from a start address on.
Different cells occupy disjoint address ranges, and replacing some neighbouring
cells by others of the same total size moves none of the rest.
-/

namespace Flurry.CellLayout

variable {Cell : Type*} (size : Cell → ℕ)

/-- The number of addresses a list of cells covers. -/
def span (cells : List Cell) : ℕ := (cells.map size).sum

/-- The cells with their addresses. -/
def place : ℕ → List Cell → List (ℕ × Cell)
  | _, [] => []
  | address, cell :: cells => (address, cell) :: place (address + size cell) cells

/-- The addresses of the cells that satisfy a test. -/
def addressesOf (test : Cell → Bool) (start : ℕ) (cells : List Cell) : List ℕ :=
  ((place size start cells).filter fun entry => test entry.2).map Prod.fst

@[simp]
theorem span_nil : span size [] = 0 := rfl

@[simp]
theorem span_cons (cell : Cell) (cells : List Cell) :
    span size (cell :: cells) = size cell + span size cells := by
  simp [span]

@[simp]
theorem span_append (before after : List Cell) :
    span size (before ++ after) = span size before + span size after := by
  simp [span]

@[simp]
theorem place_append (start : ℕ) (before after : List Cell) :
    place size start (before ++ after) =
      place size start before ++ place size (start + span size before) after := by
  induction before generalizing start with
  | nil => simp [place]
  | cons cell cells ih => simp [place, ih, Nat.add_assoc]

@[simp]
theorem place_cons (start : ℕ) (cell : Cell) (cells : List Cell) :
    place size start (cell :: cells) =
      (start, cell) :: place size (start + size cell) cells := rfl

@[simp]
theorem map_snd_place (start : ℕ) (cells : List Cell) :
    (place size start cells).map Prod.snd = cells := by
  induction cells generalizing start with
  | nil => rfl
  | cons cell cells ih => rw [place_cons, List.map_cons, ih]

theorem addressesOf_append (test : Cell → Bool) (start : ℕ)
    (before after : List Cell) :
    addressesOf size test start (before ++ after) =
      addressesOf size test start before ++
        addressesOf size test (start + span size before) after := by
  simp [addressesOf]

theorem addressesOf_cons (test : Cell → Bool) (start : ℕ) (cell : Cell)
    (cells : List Cell) :
    addressesOf size test start (cell :: cells) =
      (if test cell then [start] else []) ++
        addressesOf size test (start + size cell) cells := by
  by_cases htest : test cell <;> simp [addressesOf, htest]

variable {size}

theorem mem_addressesOf {test : Cell → Bool} {start address : ℕ}
    {cells : List Cell} :
    address ∈ addressesOf size test start cells ↔
      ∃ cell, (address, cell) ∈ place size start cells ∧ test cell = true := by
  simp [addressesOf]

/-- A placed cell splits the list at its address. -/
theorem exists_split_of_mem {start : ℕ} {cells : List Cell} {entry : ℕ × Cell}
    (hentry : entry ∈ place size start cells) :
    ∃ before after, cells = before ++ entry.2 :: after ∧
      entry.1 = start + span size before := by
  induction cells generalizing start with
  | nil => simp [place] at hentry
  | cons cell cells ih =>
      rcases List.mem_cons.mp hentry with rfl | hrest
      · exact ⟨[], cells, rfl, by simp⟩
      · obtain ⟨before, after, rfl, haddress⟩ := ih hrest
        refine ⟨cell :: before, after, rfl, ?_⟩
        rw [haddress, span_cons]
        omega

theorem mem_place_bounds {start : ℕ} {cells : List Cell} {entry : ℕ × Cell}
    (hentry : entry ∈ place size start cells) :
    start ≤ entry.1 ∧ entry.1 + size entry.2 ≤ start + span size cells := by
  obtain ⟨before, after, rfl, haddress⟩ := exists_split_of_mem hentry
  rw [haddress, span_append, span_cons]
  omega

theorem place_pairwise (start : ℕ) (cells : List Cell) :
    (place size start cells).Pairwise fun left right =>
      left.1 + size left.2 ≤ right.1 := by
  induction cells generalizing start with
  | nil => exact List.Pairwise.nil
  | cons cell cells ih =>
      apply List.Pairwise.cons
      · intro entry hentry
        exact (mem_place_bounds hentry).1
      · exact ih (start + size cell)

/-- Two placed cells are the same one or lie apart. -/
theorem eq_or_apart {start : ℕ} {cells : List Cell} {left right : ℕ × Cell}
    (hleft : left ∈ place size start cells)
    (hright : right ∈ place size start cells) :
    left = right ∨ left.1 + size left.2 ≤ right.1 ∨
      right.1 + size right.2 ≤ left.1 := by
  obtain ⟨before, after, rfl, haddress⟩ := exists_split_of_mem hleft
  rw [place_append, place_cons, ← haddress] at hright
  rcases List.mem_append.mp hright with hbefore | hright
  · have hbounds := mem_place_bounds hbefore
    exact Or.inr (Or.inr (by omega))
  · rcases List.mem_cons.mp hright with heq | hafter
    · exact Or.inl heq.symm
    · exact Or.inr (Or.inl (mem_place_bounds hafter).1)

theorem nodup_addressesOf {test : Cell → Bool} {start : ℕ} {cells : List Cell}
    (hpositive : ∀ cell ∈ cells, 0 < size cell) :
    (addressesOf size test start cells).Nodup := by
  have hcell : ∀ entry ∈ place size start cells, 0 < size entry.2 := by
    intro entry hentry
    obtain ⟨before, after, rfl, -⟩ := exists_split_of_mem hentry
    exact hpositive entry.2 (by simp)
  have hpairwise := (@place_pairwise Cell size start cells).filter
    fun entry => test entry.2
  unfold addressesOf List.Nodup
  rw [List.pairwise_map]
  apply List.Pairwise.imp_of_mem _ hpairwise
  intro left right hleft hright hle
  have := hcell left (List.mem_of_mem_filter hleft)
  omega

end Flurry.CellLayout
