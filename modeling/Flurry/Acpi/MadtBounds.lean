import Flurry.Acpi.Madt
import Flurry.Core.Climb

/-!
# Tables that are not well formed

`madt_init` trusts the firmware.  It advances by a length byte that may be 0, its
bound is a difference that wraps around for a table shorter than its own header,
and a decoder reads its whole structure even where the table ends earlier.  These
are all the ways in which the loop fails to end or leaves the table.
-/

namespace Flurry.Madt

open ByteMemory ByteString Climb

/-! ## The offsets of the loop -/

/-- `madt->hdr.length`, in memory seen from the start of the table on. -/
def hdrLength (memory : Memory) : ℕ := load memory 4 4

/-- `madt->hdr.length - sizeof(*madt)`. -/
def loopBound (memory : Memory) : ℕ := sub64 (hdrLength memory) sizeofMadt

/-- `entry->length`. -/
def entryLength (memory : Memory) (offset : ℕ) : ℕ :=
  (memory (wrap64 (sizeofMadt + offset + 1))).val

/-- `entry->type`, as far as `madt_init` distinguishes it. -/
def entryKind (memory : Memory) (offset : ℕ) : EntryKind :=
  EntryKind.ofType (BitVec.ofFin (memory (wrap64 (sizeofMadt + offset))))

/-- `offset += entry->length`. -/
def nextOffset (memory : Memory) (offset : ℕ) : ℕ :=
  wrap64 (offset + entryLength memory offset)

/-- Where the entries of the table begin, each behind the one before. -/
inductive EntryAt (memory : Memory) : ℕ → Prop
  | first : EntryAt memory 0
  | next {offset : ℕ} : EntryAt memory offset → offset < loopBound memory →
      EntryAt memory (offset + entryLength memory offset)

section Offsets

variable {memory : Memory} {offset : ℕ}

theorem loopBound_lt (memory : Memory) : loopBound memory < 2 ^ 64 :=
  Nat.mod_lt _ (by decide)

theorem entryLength_lt (memory : Memory) (offset : ℕ) : entryLength memory offset < 256 :=
  (memory (wrap64 (sizeofMadt + offset + 1))).isLt

theorem nextOffset_of_lt (hoffset : offset + entryLength memory offset < 2 ^ 64) :
    nextOffset memory offset = offset + entryLength memory offset :=
  wrap64_of_lt hoffset

/-- The offset grows exactly if the entry has a length and the sum does not wrap. -/
theorem lt_nextOffset_iff (hoffset : offset < 2 ^ 64) :
    offset < nextOffset memory offset ↔
      entryLength memory offset ≠ 0 ∧ offset + entryLength memory offset < 2 ^ 64 := by
  have hlength := entryLength_lt memory offset
  unfold nextOffset wrap64
  omega

/-- Every entry is visited while the offsets climb. -/
theorem EntryAt.climbs (hentry : EntryAt memory offset)
    (hclimbs : Climbs (nextOffset memory) (loopBound memory) 0) :
    Climbs (nextOffset memory) (loopBound memory) offset := by
  induction hentry with
  | first => exact hclimbs
  | @next offset hentry hlt ih =>
      obtain ⟨hgrows, hrest⟩ := (climbs_iff_of_lt hlt).mp ih
      have hoffset := hlt.trans (loopBound_lt memory)
      rw [lt_nextOffset_iff hoffset] at hgrows
      rwa [nextOffset_of_lt hgrows.2] at hrest

/-- The loop ends, with a greater offset after every iteration, exactly if no entry
before the bound has length 0 and no offset wraps around. -/
theorem madt_offsets_climb_iff (memory : Memory) :
    Climbs (nextOffset memory) (loopBound memory) 0 ↔
      ∀ offset, EntryAt memory offset → offset < loopBound memory →
        entryLength memory offset ≠ 0 ∧ offset + entryLength memory offset < 2 ^ 64 := by
  constructor
  · intro hclimbs offset hentry hlt
    have hgrows := ((climbs_iff_of_lt hlt).mp (hentry.climbs hclimbs)).1
    rwa [lt_nextOffset_iff (hlt.trans (loopBound_lt memory))] at hgrows
  · intro hentries
    apply climbs_of_invariant (EntryAt memory) EntryAt.first
    intro offset hentry hlt
    have hgrows := hentries offset hentry hlt
    rw [lt_nextOffset_iff (hlt.trans (loopBound_lt memory)), nextOffset_of_lt hgrows.2]
    exact ⟨hgrows, hentry.next hlt⟩

end Offsets

/-- The memory that holds a table and zeros behind it. -/
def tableMemory (table : List Byte) : Memory := fun address => table.getD address 0

/-- A table of the given length with one entry. -/
def tableWith (length : Byte) (entry : List Byte) : List Byte :=
  [0x41, 0x50, 0x49, 0x43, length, 0, 0, 0] ++ List.replicate 36 0 ++ entry

/-- An entry of length 0 keeps the loop where it is. -/
theorem madt_offsets_stuck :
    hdrLength (tableMemory (tableWith 46 [0x80, 0])) = (tableWith 46 [0x80, 0]).length ∧
      (∀ n, (nextOffset (tableMemory (tableWith 46 [0x80, 0])))^[n] 0 = 0) ∧
      ¬Climbs (nextOffset (tableMemory (tableWith 46 [0x80, 0])))
        (loopBound (tableMemory (tableWith 46 [0x80, 0]))) 0 := by
  have hfixed : nextOffset (tableMemory (tableWith 46 [0x80, 0])) 0 = 0 := by decide
  have hbound : 0 < loopBound (tableMemory (tableWith 46 [0x80, 0])) := by decide
  refine ⟨by decide, Function.iterate_fixed hfixed, ?_⟩
  rintro ⟨n, hend, -⟩
  rw [Function.iterate_fixed hfixed] at hend
  omega

/-! ## Reads outside the table -/

/-- The loop cut off after some iterations, with its offset and lists at that point;
`none` only if a read leaves the table. -/
def madtRun (table : List Byte) : ℕ → ℕ → MadtLists → Option (ℕ × MadtLists)
  | 0, offset, lists => do
      let _ ← madtBound table
      some (offset, lists)
  | iterations + 1, offset, lists => do
      let bound ← madtBound table
      if offset < bound then
        let (offset, lists) ← madtBody table offset lists
        madtRun table iterations offset lists
      else some (offset, lists)

section Reads

variable {table : List Byte} {entry offset : ℕ} {lists : MadtLists}

theorem readField_eq_none {width : ℕ} (houtside : table.length < offset + width) :
    readField table width offset = none :=
  if_neg (Nat.not_le_of_lt houtside)

/-- Whether a read succeeds does not depend on what follows. -/
theorem any_readField {width : ℕ} (rest : Bool) :
    (readField table width offset).any (fun _ => rest) =
      (decide (offset + width ≤ table.length) && rest) := by
  unfold readField
  split <;> simp [*]

theorem readField_byte (hinside : offset + 1 ≤ table.length) :
    readField table 1 offset = some (BitVec.ofFin (tableMemory table offset)) := by
  rw [readField, if_pos hinside]
  simp [load, tableMemory]

theorem two_le_size (kind : EntryKind) : 2 ≤ kind.size := by
  cases kind <;> decide

/-- The decoders and the length byte need the entry's structure, no more and no less. -/
theorem madtBody_isSome_iff (hoffset : sizeofMadt + offset + 1 < 2 ^ 64) :
    (madtBody table offset lists).isSome ↔
      sizeofMadt + offset + (entryKind (tableMemory table) offset).size ≤ table.length := by
  have hsize := two_le_size (entryKind (tableMemory table) offset)
  by_cases htype : sizeofMadt + offset + 1 ≤ table.length
  · have hkind : EntryKind.ofType (BitVec.ofFin (tableMemory table (sizeofMadt + offset))) =
        entryKind (tableMemory table) offset := by
      rw [entryKind, wrap64_of_lt (by omega)]
    simp only [madtBody, madtSwitch, readField_byte htype, Option.bind_eq_bind,
      Option.bind_some, hkind]
    cases entryKind (tableMemory table) offset <;>
      simp only [getLapicEntry, getIoapicEntry, getIoapicIsoEntry, getIoapicNmiEntry,
        getLapicNmiEntry, EntryKind.size, Option.bind_eq_bind, Option.bind_assoc,
        Option.bind_some, Option.isSome_bind, Option.isSome_some, any_readField,
        Bool.and_true, Bool.and_eq_true, decide_eq_true_eq] <;>
      omega
  · have hread : readField table 1 (sizeofMadt + offset) = none :=
      readField_eq_none (by omega)
    have hbody : madtBody table offset lists = none := by
      simp [madtBody, madtSwitch, hread]
    rw [hbody]
    simp only [Option.isSome_none, Bool.false_eq_true, false_iff]
    omega

theorem madtBody_offset {next : ℕ} {lists' : MadtLists}
    (hoffset : sizeofMadt + offset + 1 < 2 ^ 64)
    (hbody : madtBody table offset lists = some (next, lists')) :
    next = nextOffset (tableMemory table) offset := by
  have hinside : sizeofMadt + offset + 1 + 1 ≤ table.length := by
    have hsome := (madtBody_isSome_iff hoffset).mp (Option.isSome_of_eq_some hbody)
    have hsize := two_le_size (entryKind (tableMemory table) offset)
    omega
  obtain ⟨decoded, -, hrest⟩ := Option.bind_eq_some_iff.mp hbody
  rw [readField_byte hinside, Option.bind_eq_bind, Option.bind_some] at hrest
  rw [nextOffset, entryLength, wrap64_of_lt hoffset]
  exact (congrArg Prod.fst (Option.some.inj hrest)).symm

/-- The table has as many bytes as its header says, if it has a length field. -/
def Declared (table : List Byte) : Prop :=
  ∀ length, readField table 4 4 = some length → length.toNat = table.length

theorem hdrLength_lt (memory : Memory) : hdrLength memory < 2 ^ 32 := by
  have hlt := load_lt memory 4 4
  rw [hdrLength]
  omega

theorem readField_hdrLength (hlength : 8 ≤ table.length) :
    ∃ length, readField table 4 4 = some length ∧
      length.toNat = hdrLength (tableMemory table) := by
  refine ⟨_, if_pos hlength, ?_⟩
  rw [BitVec.toNat_ofNat]
  exact Nat.mod_eq_of_lt (hdrLength_lt (tableMemory table))

theorem declared_of_eq (hsame : hdrLength (tableMemory table) = table.length) :
    Declared table := by
  intro length hread
  by_cases hlength : 8 ≤ table.length
  · obtain ⟨length', hread', hvalue⟩ := readField_hdrLength hlength
    obtain rfl := Option.some.inj (hread.symm.trans hread')
    exact hvalue.trans hsame
  · rw [readField_eq_none (Nat.lt_of_not_le hlength)] at hread
    exact absurd hread (by simp)

theorem madtBound_eq (hlength : 8 ≤ table.length) :
    madtBound table = some (loopBound (tableMemory table)) := by
  obtain ⟨length, hread, hvalue⟩ := readField_hdrLength hlength
  rw [madtBound, hread, Option.bind_eq_bind, Option.bind_some, hvalue, loopBound]

theorem madtBound_eq_none (hlength : table.length < 8) : madtBound table = none := by
  rw [madtBound, readField_eq_none hlength]
  rfl

theorem Declared.length_lt (hdeclared : Declared table) (hlength : 8 ≤ table.length) :
    hdrLength (tableMemory table) = table.length ∧ table.length < 2 ^ 32 := by
  obtain ⟨length, hread, hvalue⟩ := readField_hdrLength hlength
  have hsame : hdrLength (tableMemory table) = table.length :=
    hvalue.symm.trans (hdeclared length hread)
  exact ⟨hsame, hsame ▸ hdrLength_lt (tableMemory table)⟩

theorem Declared.loopBound_eq (hdeclared : Declared table)
    (hlength : sizeofMadt ≤ table.length) :
    loopBound (tableMemory table) = table.length - sizeofMadt := by
  have hheader : sizeofMadt = 44 := rfl
  obtain ⟨hsame, hlt⟩ := hdeclared.length_lt (by omega)
  rw [loopBound, hsame, sub64_of_le (by omega) hlength]

/-! ### Runs -/

theorem madtRun_zero (hlength : 8 ≤ table.length) :
    madtRun table 0 offset lists = some (offset, lists) := by
  simp [madtRun, madtBound_eq hlength]

theorem madtRun_succ (hlength : 8 ≤ table.length)
    (hlt : offset < loopBound (tableMemory table)) (iterations : ℕ) :
    madtRun table (iterations + 1) offset lists =
      (madtBody table offset lists).bind fun next =>
        madtRun table iterations next.1 next.2 := by
  rw [madtRun, madtBound_eq hlength, Option.bind_eq_bind, Option.bind_some, if_pos hlt]
  cases madtBody table offset lists with
  | none => rfl
  | some next => simp only [Option.bind_eq_bind, Option.bind_some]

theorem madtRun_of_le (hlength : 8 ≤ table.length)
    (hend : loopBound (tableMemory table) ≤ offset) (iterations : ℕ) :
    madtRun table iterations offset lists = some (offset, lists) := by
  cases iterations with
  | zero => exact madtRun_zero hlength
  | succ iterations =>
      rw [madtRun, madtBound_eq hlength, Option.bind_eq_bind, Option.bind_some,
        if_neg (Nat.not_lt_of_le hend)]

/-- Every entry before the end of the loop lies inside the table with its whole
structure. -/
def EntriesInside (table : List Byte) : Prop :=
  ∀ offset, EntryAt (tableMemory table) offset →
    offset < loopBound (tableMemory table) →
      sizeofMadt + offset + (entryKind (tableMemory table) offset).size ≤ table.length

/-- One iteration over an entry that lies inside. -/
theorem EntriesInside.madtBody_eq (hdeclared : Declared table)
    (hlength : sizeofMadt ≤ table.length) (hinside : EntriesInside table)
    (hentry : EntryAt (tableMemory table) offset)
    (hlt : offset < loopBound (tableMemory table)) :
    ∃ lists', madtBody table offset lists =
      some (offset + entryLength (tableMemory table) offset, lists') := by
  have hheader : sizeofMadt = 44 := rfl
  have hbound := hdeclared.loopBound_eq hlength
  have htable := (hdeclared.length_lt (by omega)).2
  have hbyte := entryLength_lt (tableMemory table) offset
  have hsome : (madtBody table offset lists).isSome :=
    (madtBody_isSome_iff (by omega)).mpr (hinside offset hentry hlt)
  obtain ⟨⟨next, lists'⟩, hbody⟩ := Option.isSome_iff_exists.mp hsome
  have hnext := madtBody_offset (by omega) hbody
  rw [nextOffset_of_lt (by omega)] at hnext
  exact ⟨lists', hnext ▸ hbody⟩

/-- While entries lie inside, the loop stays inside. -/
theorem EntriesInside.madtRun_isSome (hdeclared : Declared table)
    (hlength : sizeofMadt ≤ table.length) (hinside : EntriesInside table)
    (hentry : EntryAt (tableMemory table) offset) (iterations : ℕ) :
    (madtRun table iterations offset lists).isSome := by
  have hfield : 8 ≤ table.length := le_trans (by decide) hlength
  induction iterations generalizing offset lists with
  | zero => simp [madtRun_zero hfield]
  | succ iterations ih =>
      by_cases hlt : offset < loopBound (tableMemory table)
      · obtain ⟨lists', hbody⟩ := hinside.madtBody_eq hdeclared hlength hentry hlt
        rw [madtRun_succ hfield hlt, hbody, Option.bind_some]
        exact ih (hentry.next hlt)
      · simp [madtRun_of_le hfield (Nat.le_of_not_lt hlt)]

/-- While the loop stays inside, it comes to every entry. -/
theorem EntryAt.madtRun_eq (hdeclared : Declared table)
    (hlength : sizeofMadt ≤ table.length)
    (hruns : ∀ iterations, (madtRun table iterations 0 lists).isSome)
    (hentry : EntryAt (tableMemory table) offset) :
    ∃ before lists', ∀ iterations, madtRun table (iterations + before) 0 lists =
      madtRun table iterations offset lists' := by
  have hheader : sizeofMadt = 44 := rfl
  have hbound := hdeclared.loopBound_eq hlength
  have htable := (hdeclared.length_lt (by omega)).2
  induction hentry with
  | first => exact ⟨0, lists, fun iterations => by rw [Nat.add_zero]⟩
  | @next offset hentry hlt ih =>
      have hbyte := entryLength_lt (tableMemory table) offset
      obtain ⟨before, lists', hrun⟩ := ih
      have hsome := hruns (0 + 1 + before)
      rw [hrun, madtRun_succ (by omega) hlt] at hsome
      obtain ⟨⟨next, lists''⟩, hbody⟩ :=
        Option.isSome_iff_exists.mp (Option.isSome_of_isSome_bind hsome)
      have hnext := madtBody_offset (by omega) hbody
      rw [nextOffset_of_lt (by omega)] at hnext
      refine ⟨before + 1, lists'', ?_⟩
      intro iterations
      rw [show iterations + (before + 1) = iterations + 1 + before by omega, hrun,
        madtRun_succ (by omega) hlt, hbody, Option.bind_some, hnext]

/-- The first iteration of a table without room for its header leaves it. -/
theorem sizeofMadt_le_of_madtRun (hdeclared : Declared table)
    (hruns : ∀ iterations, (madtRun table iterations 0 lists).isSome) :
    sizeofMadt ≤ table.length := by
  have hheader : sizeofMadt = 44 := rfl
  have hfield : 8 ≤ table.length := by
    by_contra hshort
    have hrun := hruns 0
    rw [madtRun, madtBound_eq_none (Nat.lt_of_not_le hshort)] at hrun
    exact absurd hrun (by simp)
  obtain ⟨hsame, htable⟩ := hdeclared.length_lt hfield
  by_contra hshort
  have hlt : 0 < loopBound (tableMemory table) := by
    rw [loopBound, hsame, sub64_of_lt (by omega) (by omega)]
    omega
  have hrun := hruns (0 + 1)
  rw [madtRun_succ hfield hlt] at hrun
  have hinside := (madtBody_isSome_iff (by omega)).mp (Option.isSome_of_isSome_bind hrun)
  omega

/-- However long it runs, the loop reads no byte behind the end of the table exactly
if the table has room for its header and every entry for its structure. -/
theorem madt_reads_inside_iff (table : List Byte) (lists : MadtLists)
    (hdeclared : Declared table) :
    (∀ iterations, (madtRun table iterations 0 lists).isSome) ↔
      sizeofMadt ≤ table.length ∧ EntriesInside table := by
  constructor
  · intro hruns
    have hlength := sizeofMadt_le_of_madtRun hdeclared hruns
    refine ⟨hlength, ?_⟩
    intro offset hentry hlt
    have hheader : sizeofMadt = 44 := rfl
    have hbound := hdeclared.loopBound_eq hlength
    have htable := (hdeclared.length_lt (by omega)).2
    obtain ⟨before, lists', hrun⟩ := hentry.madtRun_eq hdeclared hlength hruns
    have hsome := hruns (0 + 1 + before)
    rw [hrun, madtRun_succ (by omega) hlt] at hsome
    exact (madtBody_isSome_iff (by omega)).mp (Option.isSome_of_isSome_bind hsome)
  · rintro ⟨hlength, hinside⟩ iterations
    exact hinside.madtRun_isSome hdeclared hlength EntryAt.first iterations

/-- One entry of each kind: a local APIC, an I/O APIC, an override, an NMI source, the NMI
pins of the local APICs, and an entry of an unknown type at the very end. -/
def everyKindTable : List Byte :=
  tableWith 90 ([0, 8, 1, 2, 1, 0, 0, 0] ++ [1, 12, 3, 0, 0, 0, 0xc0, 0xfe, 0, 0, 0, 0] ++
    [2, 10, 0, 0, 2, 0, 0, 0, 5, 0] ++ [3, 8, 5, 0, 9, 0, 0, 0] ++ [4, 6, 0xff, 5, 0, 1] ++
    [0x80, 2])

theorem madt_reads_inside_iff_every_kind :
    Declared everyKindTable ∧
      (∀ iterations, (madtRun everyKindTable iterations 0 {}).isSome) ∧
      madtRun everyKindTable 6 0 {} = some (46,
        { lapics := [⟨1, 2, 1⟩]
          lapicNmis := [⟨0xff, 5, 1⟩]
          ioapics := [⟨3, 0, 0xfec00000, 0⟩]
          ioapicIsos := [⟨0, 0, 2, 5⟩]
          ioapicNmis := [⟨5, 9⟩] }) := by
  have hdeclared : Declared everyKindTable := declared_of_eq (by decide)
  have hnext : ∀ offset ∈ [0, 8, 20, 30, 38, 44, 46],
      offset < loopBound (tableMemory everyKindTable) →
        offset + entryLength (tableMemory everyKindTable) offset ∈
            [0, 8, 20, 30, 38, 44, 46] ∧
          sizeofMadt + offset + (entryKind (tableMemory everyKindTable) offset).size ≤
            everyKindTable.length := by
    decide
  have hentries : ∀ offset, EntryAt (tableMemory everyKindTable) offset →
      offset ∈ [0, 8, 20, 30, 38, 44, 46] := by
    intro offset hentry
    induction hentry with
    | first => decide
    | next _ hlt ih => exact (hnext _ ih hlt).1
  have hinside : EntriesInside everyKindTable := fun offset hentry hlt =>
    (hnext offset (hentries offset hentry) hlt).2
  exact ⟨hdeclared,
    (madt_reads_inside_iff everyKindTable {} hdeclared).mpr ⟨by decide, hinside⟩, by decide⟩

/-- An I/O APIC entry cut short by the end of the table. -/
theorem madt_reads_outside :
    Declared (tableWith 46 [1, 2]) ∧ madtRun (tableWith 46 [1, 2]) 1 0 {} = none :=
  ⟨declared_of_eq (by decide), by decide⟩

/-! ### Tables that `madt_init` can handle -/

theorem madtLoop_succ (hlength : 8 ≤ table.length)
    (hlt : offset < loopBound (tableMemory table)) (fuel : ℕ) :
    madtLoop table (fuel + 1) offset lists =
      (madtBody table offset lists).bind fun next => madtLoop table fuel next.1 next.2 := by
  rw [madtLoop, madtBound_eq hlength, Option.bind_eq_bind, Option.bind_some, if_pos hlt]
  cases madtBody table offset lists with
  | none => rfl
  | some next => simp only [Option.bind_eq_bind, Option.bind_some]

theorem madtLoop_of_le (hlength : 8 ≤ table.length)
    (hend : loopBound (tableMemory table) ≤ offset) (fuel : ℕ) :
    madtLoop table fuel offset lists = some lists := by
  cases fuel <;>
    rw [madtLoop, madtBound_eq hlength, Option.bind_eq_bind, Option.bind_some,
      if_neg (Nat.not_lt_of_le hend)]

/-- On every table whose entries lie inside it and are not empty `madt_init` returns,
well formed or not. -/
theorem madtInit_returns (table : List Byte) (lists : MadtLists)
    (hdeclared : Declared table) (hlength : sizeofMadt ≤ table.length)
    (hinside : EntriesInside table)
    (hnonempty : ∀ offset, EntryAt (tableMemory table) offset →
      offset < loopBound (tableMemory table) → entryLength (tableMemory table) offset ≠ 0) :
    ∃ lists', madtInit (some table) lists = some lists' := by
  have hfield : 8 ≤ table.length := le_trans (by decide) hlength
  -- each iteration takes one step of the fuel and at least one byte
  have hloop : ∀ {fuel offset lists}, EntryAt (tableMemory table) offset →
      loopBound (tableMemory table) ≤ offset + fuel →
        ∃ lists', madtLoop table fuel offset lists = some lists' := by
    intro fuel
    induction fuel with
    | zero =>
        intro offset lists _ hend
        exact ⟨lists, madtLoop_of_le hfield hend 0⟩
    | succ fuel ih =>
        intro offset lists hentry hfuel
        by_cases hlt : offset < loopBound (tableMemory table)
        · have hlength' := hnonempty offset hentry hlt
          obtain ⟨decoded, hbody⟩ := hinside.madtBody_eq hdeclared hlength hentry hlt
          obtain ⟨lists', hrest⟩ := ih (hentry.next hlt) (by omega)
          refine ⟨lists', ?_⟩
          rw [madtLoop_succ hfield hlt, hbody, Option.bind_some]
          exact hrest
        · exact ⟨lists, madtLoop_of_le hfield (Nat.le_of_not_lt hlt) _⟩
  rw [madtInit, Option.bind_eq_bind, Option.bind_some]
  apply hloop EntryAt.first
  rw [hdeclared.loopBound_eq hlength]
  omega

end Reads

end Flurry.Madt
