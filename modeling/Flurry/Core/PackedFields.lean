import Flurry.Core.ByteMemory

/-!
# Records without padding

The fields of a packed record follow each other.  Writing a record and reading its
fields are inverse to each other: every field comes back, and a memory that already
holds a record does not change when it is written again.
-/

namespace Flurry.ByteMemory

variable {memory : Memory} {base : ℕ}

theorem store_load (memory : Memory) (width address : ℕ) :
    store memory width address (load memory width address) = memory := by
  induction width generalizing address with
  | zero => exact store_zero memory address _
  | succ width ih =>
      have hbyte := (memory address).isLt
      have hlow : lowByte (load memory (width + 1) address) = memory address := by
        apply Fin.ext
        change load memory (width + 1) address % 256 = (memory address).val
        rw [load, Nat.add_mul_mod_self_left, Nat.mod_eq_of_lt hbyte]
      have hrest : load memory (width + 1) address / 256 =
          load memory width (address + 1) := by
        rw [load, Nat.add_mul_div_left _ _ (by decide), Nat.div_eq_of_lt hbyte, Nat.zero_add]
      rw [store_succ, hlow, hrest, Function.update_eq_self, ih]

/-- Fields that hold their values already. -/
theorem storeFields_eq_self {fields : List Field}
    (hfields : ∀ field ∈ fields,
      field.value = load memory field.width (base + field.offset)) :
    storeFields memory base fields = memory := by
  induction fields with
  | nil => rfl
  | cons field fields ih =>
      obtain ⟨hfirst, hrest⟩ := List.forall_mem_cons.mp hfields
      rw [storeFields, List.foldl_cons, hfirst, store_load, ← storeFields, ih hrest]

/-- One field after the other, from widths and values. -/
def packFields (offset : ℕ) : List (ℕ × ℕ) → List Field
  | [] => []
  | (width, value) :: entries =>
      { width, offset, value } :: packFields (offset + width) entries

theorem le_offset_of_mem_packFields {offset : ℕ} {entries : List (ℕ × ℕ)} {field : Field}
    (hmem : field ∈ packFields offset entries) : offset ≤ field.offset := by
  induction entries generalizing offset with
  | nil => exact absurd hmem List.not_mem_nil
  | cons entry entries ih =>
      rcases List.mem_cons.mp hmem with rfl | hmem
      · exact le_rfl
      · exact (Nat.le_add_right offset entry.1).trans (ih hmem)

theorem packFields_apart (offset : ℕ) (entries : List (ℕ × ℕ)) :
    (packFields offset entries).Pairwise Field.Apart := by
  induction entries generalizing offset with
  | nil => exact List.Pairwise.nil
  | cons entry entries ih =>
      exact List.pairwise_cons.mpr
        ⟨fun other hother => Or.inl (le_offset_of_mem_packFields hother), ih _⟩

/-- A field keeps its width and value when it gets its place. -/
theorem entry_mem_of_mem_packFields {offset : ℕ} {entries : List (ℕ × ℕ)} {field : Field}
    (hmem : field ∈ packFields offset entries) : (field.width, field.value) ∈ entries := by
  induction entries generalizing offset with
  | nil => exact absurd hmem List.not_mem_nil
  | cons entry entries ih =>
      rcases List.mem_cons.mp hmem with rfl | hmem
      · exact List.mem_cons_self
      · exact List.mem_cons_of_mem entry (ih hmem)

/-- The fields of a packed record come back. -/
theorem load_packFields {entries : List (ℕ × ℕ)} {field : Field} (memory : Memory)
    (hfits : ∀ entry ∈ entries, entry.2 < 256 ^ entry.1)
    (hmem : field ∈ packFields 0 entries) :
    load (storeFields memory base (packFields 0 entries)) field.width
      (base + field.offset) = field.value :=
  load_storeFields memory (packFields_apart 0 entries) hmem
    (hfits _ (entry_mem_of_mem_packFields hmem))

end Flurry.ByteMemory
