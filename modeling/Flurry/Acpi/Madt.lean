import Flurry.Core.ByteString

/-!
# The MADT

`madt_init` walks the entries of the ACPI table of interrupt controllers and keeps
five linked lists, each with the latest entry first.  Pointers into the table are
offsets, and reads are checked against its end.
-/

namespace Flurry.Madt

open ByteMemory ByteString

/-! ## The lists -/

structure MadtLApic where
  acpiId : BitVec 8
  lapicId : BitVec 8
  flags : BitVec 8
  deriving DecidableEq, Repr

structure MadtLApicNmi where
  uid : BitVec 8
  flags : BitVec 16
  lint : BitVec 8
  deriving DecidableEq, Repr

structure MadtIoApic where
  ioapicId : BitVec 8
  reserved : BitVec 8
  ioapicAddr : BitVec 32
  gsiBase : BitVec 32
  deriving DecidableEq, Repr

structure MadtIoApicIso where
  bus : BitVec 8
  source : BitVec 8
  gsi : BitVec 32
  flags : BitVec 16
  deriving DecidableEq, Repr

structure MadtIoApicNmi where
  flags : BitVec 16
  gsi : BitVec 32
  deriving DecidableEq, Repr

/-- The static variables, all `NULL` at first. -/
@[ext]
structure MadtLists where
  lapics : List MadtLApic := []
  lapicNmis : List MadtLApicNmi := []
  ioapics : List MadtIoApic := []
  ioapicIsos : List MadtIoApicIso := []
  ioapicNmis : List MadtIoApicNmi := []
  deriving DecidableEq, Repr

/-! ## Entries -/

/-- The entry types that `madt_init` distinguishes. -/
inductive EntryKind
  | lapic
  | ioapic
  | interruptSourceOverride
  | nmiSource
  | lapicNmi
  | other
  deriving DecidableEq, Repr

def EntryKind.ofType (type : BitVec 8) : EntryKind :=
  if type = 0 then .lapic
  else if type = 1 then .ioapic
  else if type = 2 then .interruptSourceOverride
  else if type = 3 then .nmiSource
  else if type = 4 then .lapicNmi
  else .other

/-- The size of the entry's structure; all of them begin with an `acpi_entry_hdr`. -/
def EntryKind.size : EntryKind → ℕ
  | .lapic => 8
  | .ioapic => 12
  | .interruptSourceOverride => 10
  | .nmiSource => 8
  | .lapicNmi => 6
  | .other => 2

def getLapicEntry (table : List Byte) (entry : ℕ) (lists : MadtLists) :
    Option MadtLists := do
  let uid ← readField table 1 (entry + 2)
  let id ← readField table 1 (entry + 3)
  let flags ← readField table 4 (entry + 4)
  some { lists with lapics := ⟨uid, id, flags.setWidth 8⟩ :: lists.lapics }

def getIoapicEntry (table : List Byte) (entry : ℕ) (lists : MadtLists) :
    Option MadtLists := do
  let id ← readField table 1 (entry + 2)
  let rsvd ← readField table 1 (entry + 3)
  let address ← readField table 4 (entry + 4)
  let gsiBase ← readField table 4 (entry + 8)
  some { lists with ioapics := ⟨id, rsvd, address, gsiBase⟩ :: lists.ioapics }

def getLapicNmiEntry (table : List Byte) (entry : ℕ) (lists : MadtLists) :
    Option MadtLists := do
  let uid ← readField table 1 (entry + 2)
  let flags ← readField table 2 (entry + 3)
  let lint ← readField table 1 (entry + 5)
  some { lists with lapicNmis := ⟨uid, flags, lint⟩ :: lists.lapicNmis }

def getIoapicIsoEntry (table : List Byte) (entry : ℕ) (lists : MadtLists) :
    Option MadtLists := do
  let bus ← readField table 1 (entry + 2)
  let source ← readField table 1 (entry + 3)
  let gsi ← readField table 4 (entry + 4)
  let flags ← readField table 2 (entry + 8)
  some { lists with ioapicIsos := ⟨bus, source, gsi, flags⟩ :: lists.ioapicIsos }

def getIoapicNmiEntry (table : List Byte) (entry : ℕ) (lists : MadtLists) :
    Option MadtLists := do
  let flags ← readField table 2 (entry + 2)
  let gsi ← readField table 4 (entry + 4)
  some { lists with ioapicNmis := ⟨flags, gsi⟩ :: lists.ioapicNmis }

/-! ## The walk -/

/-- `sizeof(struct acpi_madt)`, the offset of the first entry. -/
def sizeofMadt : ℕ := 44

/-- The `switch` over the type of an entry. -/
def madtSwitch (table : List Byte) (entry : ℕ) (lists : MadtLists) : Option MadtLists := do
  let type ← readField table 1 entry
  match EntryKind.ofType type with
  | .lapic => getLapicEntry table entry lists
  | .lapicNmi => getLapicNmiEntry table entry lists
  | .ioapic => getIoapicEntry table entry lists
  | .interruptSourceOverride => getIoapicIsoEntry table entry lists
  | .nmiSource => getIoapicNmiEntry table entry lists
  | .other => some lists

/-- `madt->hdr.length - sizeof(*madt)`. -/
def madtBound (table : List Byte) : Option ℕ := do
  let length ← readField table 4 4
  some (sub64 length.toNat sizeofMadt)

/-- The body of the loop. -/
def madtBody (table : List Byte) (offset : ℕ) (lists : MadtLists) :
    Option (ℕ × MadtLists) := do
  let entry := sizeofMadt + offset
  let lists ← madtSwitch table entry lists
  let length ← readField table 1 (entry + 1)
  some (wrap64 (offset + length.toNat), lists)

/-- The loop from `offset` on, `none` if a read leaves the table or the loop is still
running after `fuel` iterations. -/
def madtLoop (table : List Byte) : ℕ → ℕ → MadtLists → Option MadtLists
  | 0, offset, lists => do
      let bound ← madtBound table
      if offset < bound then none else some lists
  | fuel + 1, offset, lists => do
      let bound ← madtBound table
      if offset < bound then
        let (offset, lists) ← madtBody table offset lists
        madtLoop table fuel offset lists
      else some lists

/-- `found` is the table that uACPI finds; the kernel stops if there is none. -/
def madtInit (found : Option (List Byte)) (lists : MadtLists) : Option MadtLists := do
  let table ← found
  madtLoop table table.length 0 lists

/-! ## Well-formed tables -/

/-- An entry whose length fits its own field and covers its structure.  Longer entries
have further bytes that nobody reads. -/
structure MadtEntry where
  type : Byte
  body : List Byte
  length_lt : body.length + 2 < 256
  size_le : (EntryKind.ofType (BitVec.ofFin type)).size ≤ body.length + 2

namespace MadtEntry

def kind (entry : MadtEntry) : EntryKind := EntryKind.ofType (BitVec.ofFin entry.type)

def bytes (entry : MadtEntry) : List Byte :=
  entry.type :: lowByte (entry.body.length + 2) :: entry.body

def lapic (entry : MadtEntry) : Option MadtLApic :=
  if entry.kind = .lapic then
    some ⟨field entry.bytes 1 2, field entry.bytes 1 3,
      (field entry.bytes 4 4).setWidth 8⟩
  else none

def ioapic (entry : MadtEntry) : Option MadtIoApic :=
  if entry.kind = .ioapic then
    some ⟨field entry.bytes 1 2, field entry.bytes 1 3, field entry.bytes 4 4,
      field entry.bytes 4 8⟩
  else none

def lapicNmi (entry : MadtEntry) : Option MadtLApicNmi :=
  if entry.kind = .lapicNmi then
    some ⟨field entry.bytes 1 2, field entry.bytes 2 3, field entry.bytes 1 5⟩
  else none

def ioapicIso (entry : MadtEntry) : Option MadtIoApicIso :=
  if entry.kind = .interruptSourceOverride then
    some ⟨field entry.bytes 1 2, field entry.bytes 1 3, field entry.bytes 4 4,
      field entry.bytes 2 8⟩
  else none

def ioapicNmi (entry : MadtEntry) : Option MadtIoApicNmi :=
  if entry.kind = .nmiSource then
    some ⟨field entry.bytes 2 2, field entry.bytes 4 4⟩
  else none

end MadtEntry

/-- A header and entries that together have the declared length. -/
structure MadtTable where
  header : List Byte
  entries : List MadtEntry
  header_length : header.length = sizeofMadt
  declared : (field header 4 4).toNat =
    header.length + (entries.flatMap MadtEntry.bytes).length

def MadtTable.bytes (table : MadtTable) : List Byte :=
  table.header ++ table.entries.flatMap MadtEntry.bytes

/-- The entries of each kind, the last one first. -/
def entryLists (entries : List MadtEntry) (lists : MadtLists) : MadtLists where
  lapics := (entries.filterMap MadtEntry.lapic).reverse ++ lists.lapics
  lapicNmis := (entries.filterMap MadtEntry.lapicNmi).reverse ++ lists.lapicNmis
  ioapics := (entries.filterMap MadtEntry.ioapic).reverse ++ lists.ioapics
  ioapicIsos := (entries.filterMap MadtEntry.ioapicIso).reverse ++ lists.ioapicIsos
  ioapicNmis := (entries.filterMap MadtEntry.ioapicNmi).reverse ++ lists.ioapicNmis

theorem entryLists_cons (entry : MadtEntry) (entries : List MadtEntry) (lists : MadtLists) :
    entryLists (entry :: entries) lists = entryLists entries (entryLists [entry] lists) := by
  have hcons : ∀ {Value : Type} (decode : MadtEntry → Option Value) (tail : List Value),
      ((entry :: entries).filterMap decode).reverse ++ tail =
        (entries.filterMap decode).reverse ++ (([entry].filterMap decode).reverse ++ tail) := by
    intro Value decode tail
    rw [← List.append_assoc, ← List.reverse_append, ← List.filterMap_append]
    rfl
  simp only [entryLists, hcons]

section Walk

variable {before after : List Byte} {entry : MadtEntry} {lists : MadtLists}

theorem MadtEntry.length_bytes (entry : MadtEntry) :
    entry.bytes.length = entry.body.length + 2 := rfl

/-- The fields of an entry are read from the entry. -/
theorem readField_entry {width offset : ℕ} (hfits : offset + width ≤ entry.bytes.length) :
    readField (before ++ entry.bytes ++ after) width (before.length + offset) =
      some (field entry.bytes width offset) :=
  readField_append before after hfits

theorem readField_type :
    readField (before ++ entry.bytes ++ after) 1 before.length =
      some (BitVec.ofFin entry.type) := by
  have hread := @readField_entry before after entry 1 0
    (by rw [entry.length_bytes]; omega)
  rw [Nat.add_zero] at hread
  rw [hread, field, MadtEntry.bytes]
  simp

/-- One entry adds at most one element, to the list of its kind. -/
theorem entryLists_singleton :
    entryLists [entry] lists =
      { lapics := entry.lapic.toList ++ lists.lapics
        lapicNmis := entry.lapicNmi.toList ++ lists.lapicNmis
        ioapics := entry.ioapic.toList ++ lists.ioapics
        ioapicIsos := entry.ioapicIso.toList ++ lists.ioapicIsos
        ioapicNmis := entry.ioapicNmi.toList ++ lists.ioapicNmis } := by
  have hsingle : ∀ {Value : Type} (decode : MadtEntry → Option Value),
      ([entry].filterMap decode).reverse = (decode entry).toList := by
    intro Value decode
    cases hdecode : decode entry <;> simp [hdecode]
  simp only [entryLists, hsingle]

theorem madtSwitch_eq :
    madtSwitch (before ++ entry.bytes ++ after) before.length lists =
      some (entryLists [entry] lists) := by
  have hread : ∀ {width offset : ℕ}, offset + width ≤ entry.kind.size →
      readField (before ++ entry.bytes ++ after) width (before.length + offset) =
        some (field entry.bytes width offset) :=
    fun hfits => readField_entry (hfits.trans entry.size_le)
  have hkind : EntryKind.ofType (BitVec.ofFin entry.type) = entry.kind := rfl
  rw [madtSwitch, readField_type, entryLists_singleton]
  simp only [Option.bind_eq_bind, Option.bind_some, hkind, MadtEntry.lapic,
    MadtEntry.lapicNmi, MadtEntry.ioapic, MadtEntry.ioapicIso, MadtEntry.ioapicNmi]
  generalize before ++ entry.bytes ++ after = table at hread
  cases hcase : entry.kind with
  | lapic =>
      rw [hcase, EntryKind.size] at hread
      simp [getLapicEntry, hread]
  | ioapic =>
      rw [hcase, EntryKind.size] at hread
      simp [getIoapicEntry, hread]
  | interruptSourceOverride =>
      rw [hcase, EntryKind.size] at hread
      simp [getIoapicIsoEntry, hread]
  | nmiSource =>
      rw [hcase, EntryKind.size] at hread
      simp [getIoapicNmiEntry, hread]
  | lapicNmi =>
      rw [hcase, EntryKind.size] at hread
      simp [getLapicNmiEntry, hread]
  | other => simp

theorem readField_length :
    ∃ length, readField (before ++ entry.bytes ++ after) 1 (before.length + 1) =
      some length ∧ length.toNat = entry.bytes.length := by
  refine ⟨_, readField_entry (by rw [entry.length_bytes]; omega), ?_⟩
  have hlength : (lowByte (entry.body.length + 2)).val = entry.bytes.length :=
    Nat.mod_eq_of_lt entry.length_lt
  rw [← hlength]
  simp [field, MadtEntry.bytes]

/-- One iteration moves past one entry. -/
theorem madtBody_eq {offset : ℕ} (hoffset : before.length = sizeofMadt + offset)
    (hlength : before.length + entry.bytes.length < 2 ^ 64) :
    madtBody (before ++ entry.bytes ++ after) offset lists =
      some (offset + entry.bytes.length, entryLists [entry] lists) := by
  obtain ⟨length, hread, hvalue⟩ := @readField_length before after entry
  have hnext : wrap64 (offset + length.toNat) = offset + entry.bytes.length := by
    rw [hvalue]
    exact wrap64_of_lt (by omega)
  rw [hoffset] at hread
  rw [madtBody, ← hoffset, madtSwitch_eq, hoffset]
  simp only [Option.bind_eq_bind, Option.bind_some, hread, hnext]

/-- The loop from the first of the remaining entries on. -/
theorem madtLoop_eq {table : List Byte} {entries : List MadtEntry} {offset fuel : ℕ}
    (hbound : madtBound table = some (table.length - sizeofMadt))
    (hlength : table.length < 2 ^ 64)
    (htable : table = before ++ entries.flatMap MadtEntry.bytes)
    (hoffset : before.length = sizeofMadt + offset) (hfuel : entries.length ≤ fuel) :
    madtLoop table fuel offset lists = some (entryLists entries lists) := by
  induction entries generalizing before offset fuel lists with
  | nil =>
      have hend : ¬offset < table.length - sizeofMadt := by
        rw [htable, List.flatMap_nil, List.append_nil]
        omega
      cases fuel <;> simp [madtLoop, hbound, hend, entryLists]
  | cons entry entries ih =>
      rw [List.flatMap_cons, ← List.append_assoc] at htable
      have hentry := entry.length_bytes
      have hinside : before.length + entry.bytes.length ≤ table.length := by
        rw [htable, List.length_append, List.length_append]
        omega
      cases fuel with
      | zero => simp at hfuel
      | succ fuel =>
          have hbody : madtBody table offset lists =
              some (offset + entry.bytes.length, entryLists [entry] lists) := by
            rw [htable]
            exact madtBody_eq hoffset (by omega)
          have hrest := @ih (before ++ entry.bytes) (entryLists [entry] lists)
            (offset + entry.bytes.length) fuel htable
            (by rw [List.length_append]; omega) (by simpa using hfuel)
          have hmore : offset < table.length - sizeofMadt := by omega
          rw [madtLoop, hbound, entryLists_cons]
          simp only [Option.bind_eq_bind, Option.bind_some, hbody, hrest, if_pos hmore]

end Walk

/-- The entries of a well-formed table go to the lists one after the other. -/
theorem madtInit_bytes (table : MadtTable) :
    madtInit (some table.bytes) {} = some (entryLists table.entries {}) := by
  have hlength : (field table.header 4 4).toNat = table.bytes.length := by
    rw [table.declared, MadtTable.bytes, List.length_append]
  have hlt : table.bytes.length < 2 ^ (8 * 4) := hlength ▸ (field table.header 4 4).isLt
  have hbound : madtBound table.bytes = some (table.bytes.length - sizeofMadt) := by
    have hheader := table.header_length
    unfold sizeofMadt at hheader
    have hread : readField table.bytes 4 4 = some (field table.header 4 4) := by
      have hpart := @readField_append table.header 4 4 []
        (table.entries.flatMap MadtEntry.bytes) (by omega)
      rw [List.nil_append, List.length_nil, Nat.zero_add] at hpart
      exact hpart
    have hsub : sub64 table.bytes.length sizeofMadt = table.bytes.length - sizeofMadt := by
      apply sub64_of_le (by omega)
      rw [MadtTable.bytes, List.length_append, table.header_length]
      omega
    rw [madtBound, hread, Option.bind_eq_bind, Option.bind_some, hlength, hsub]
  have hfuel : table.entries.length ≤ table.bytes.length := by
    have hone : ∀ entry ∈ table.entries, 1 ≤ entry.bytes.length := by
      intro entry _
      rw [entry.length_bytes]
      omega
    have hsum := List.card_nsmul_le_sum (table.entries.map fun entry => entry.bytes.length) 1
      (by simpa using hone)
    rw [List.length_map, smul_eq_mul, Nat.mul_one] at hsum
    rw [MadtTable.bytes, List.length_append, List.length_flatMap]
    omega
  have hloop := @madtLoop_eq table.header {} table.bytes table.entries 0 table.bytes.length
    hbound (by omega) rfl table.header_length hfuel
  rw [madtInit, Option.bind_eq_bind, Option.bind_some, hloop]

theorem entryLists_empty (entries : List MadtEntry) :
    entryLists entries {} =
      { lapics := (entries.filterMap MadtEntry.lapic).reverse
        lapicNmis := (entries.filterMap MadtEntry.lapicNmi).reverse
        ioapics := (entries.filterMap MadtEntry.ioapic).reverse
        ioapicIsos := (entries.filterMap MadtEntry.ioapicIso).reverse
        ioapicNmis := (entries.filterMap MadtEntry.ioapicNmi).reverse } := by
  simp [entryLists]

/-- On a well-formed table `madt_init` ends without a read outside the table, and its
lists are the decoded entries of each kind, the last one first. -/
theorem madtInit_faithful (table : MadtTable) :
    madtInit (some table.bytes) {} =
      some { lapics := (table.entries.filterMap MadtEntry.lapic).reverse
             lapicNmis := (table.entries.filterMap MadtEntry.lapicNmi).reverse
             ioapics := (table.entries.filterMap MadtEntry.ioapic).reverse
             ioapicIsos := (table.entries.filterMap MadtEntry.ioapicIso).reverse
             ioapicNmis := (table.entries.filterMap MadtEntry.ioapicNmi).reverse } := by
  rw [madtInit_bytes, entryLists_empty]

/-- A local APIC, an entry of an unknown type and an over-long source override. -/
example :
    madtInit (some ([0x41, 0x50, 0x49, 0x43, 67, 0, 0, 0] ++ List.replicate 36 0 ++
      [0, 8, 1, 2, 5, 1, 0, 0] ++ [0x80, 3, 7] ++ [2, 12, 0, 9, 4, 1, 0, 0, 13, 0, 8, 8])) {} =
    some { lapics := [⟨1, 2, 5⟩], ioapicIsos := [⟨0, 9, 0x104, 13⟩] } := by
  decide +kernel

end Flurry.Madt
