import Flurry.Core.ByteMemory

/-!
# Fields of byte strings

A packed record is a byte string, and a field is the little-endian number at an
offset.  Reads are checked against the end of the string.  A field of a part is
the same field of the whole, at the offset of the part.
-/

namespace Flurry.ByteString

open ByteMemory

/-- The little-endian number in the `width` bytes from `offset` on. -/
def field (bytes : List Byte) (width offset : ℕ) : BitVec (8 * width) :=
  BitVec.ofNat _ (Nat.ofDigits 256 (((bytes.drop offset).take width).map Fin.val))

/-- A read of `width` bytes, `none` if it leaves the string. -/
def readField (bytes : List Byte) (width offset : ℕ) : Option (BitVec (8 * width)) :=
  if offset + width ≤ bytes.length then
    some (BitVec.ofNat _ (load (fun address => bytes.getD address 0) width offset))
  else none

variable {bytes : List Byte} {width offset : ℕ}

theorem load_eq_ofDigits (hfits : offset + width ≤ bytes.length) :
    load (fun address => bytes.getD address 0) width offset =
      Nat.ofDigits 256 (((bytes.drop offset).take width).map Fin.val) := by
  induction width generalizing offset with
  | zero => rfl
  | succ width ih =>
      have hoffset : offset < bytes.length := by omega
      rw [load, ih (by omega), List.drop_eq_getElem_cons hoffset, List.take_succ_cons,
        List.map_cons, Nat.ofDigits_cons, List.getD_eq_getElem _ _ hoffset]

theorem readField_eq (hfits : offset + width ≤ bytes.length) :
    readField bytes width offset = some (field bytes width offset) := by
  rw [readField, if_pos hfits, load_eq_ofDigits hfits, field]

theorem field_append (before after : List Byte) (hfits : offset + width ≤ bytes.length) :
    field (before ++ bytes ++ after) width (before.length + offset) =
      field bytes width offset := by
  rw [field, field, List.append_assoc, List.drop_append, List.drop_of_length_le (by omega),
    List.nil_append, Nat.add_sub_cancel_left, List.drop_append_of_le_length (by omega),
    List.take_append_of_le_length (by rw [List.length_drop]; omega)]

/-- A read inside a part stays inside the whole. -/
theorem readField_append (before after : List Byte)
    (hfits : offset + width ≤ bytes.length) :
    readField (before ++ bytes ++ after) width (before.length + offset) =
      some (field bytes width offset) := by
  rw [readField_eq, field_append before after hfits]
  rw [List.length_append, List.length_append]
  omega

end Flurry.ByteString
