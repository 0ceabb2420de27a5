import Flurry.Core.PackedFields

/-!
# ELF headers

`elf_read` looks at the first bytes of a boot module as an ELF header, checks its
identification and returns what a loader needs of it.  It is compared with the
format: headers are records of 64 bytes without padding.
-/

namespace Flurry.Elf

open ByteMemory

inductive ElfResult
  | ok
  | errNotElf
  | errInvalidMachine
  | errInvalidClass
  | errInvalidEncoding
  | errInvalidVersion
  deriving DecidableEq, Repr

/-- `Elf64_Ehdr`. -/
@[ext]
structure Elf64Ehdr where
  eIdent : Fin 16 → Byte
  eType : BitVec 16
  eMachine : BitVec 16
  eVersion : BitVec 32
  eEntry : BitVec 64
  ePhoff : BitVec 64
  eShoff : BitVec 64
  eFlags : BitVec 32
  eEhsize : BitVec 16
  ePhentsize : BitVec 16
  ePhnum : BitVec 16
  eShentsize : BitVec 16
  eShnum : BitVec 16
  eShstrndx : BitVec 16

structure ElfFile where
  entryPoint : BitVec 64
  phdrsSize : BitVec 64
  phdrsOffset : BitVec 64
  phdrsCount : BitVec 64
  deriving DecidableEq, Repr

/-- A `Module` without its path and command line, which nobody reads. -/
structure Module where
  address : ℕ
  size : ℕ

def emX8664 : BitVec 16 := 62
def evCurrent : BitVec 32 := 1
def elfClass64 : Byte := 2
def elfData2Lsb : Byte := 1

/-- The header at an address. -/
def readEhdr (memory : Memory) (address : ℕ) : Elf64Ehdr where
  eIdent index := memory (address + index)
  eType := BitVec.ofNat 16 (load memory 2 (address + 16))
  eMachine := BitVec.ofNat 16 (load memory 2 (address + 18))
  eVersion := BitVec.ofNat 32 (load memory 4 (address + 20))
  eEntry := BitVec.ofNat 64 (load memory 8 (address + 24))
  ePhoff := BitVec.ofNat 64 (load memory 8 (address + 32))
  eShoff := BitVec.ofNat 64 (load memory 8 (address + 40))
  eFlags := BitVec.ofNat 32 (load memory 4 (address + 48))
  eEhsize := BitVec.ofNat 16 (load memory 2 (address + 52))
  ePhentsize := BitVec.ofNat 16 (load memory 2 (address + 54))
  ePhnum := BitVec.ofNat 16 (load memory 2 (address + 56))
  eShentsize := BitVec.ofNat 16 (load memory 2 (address + 58))
  eShnum := BitVec.ofNat 16 (load memory 2 (address + 60))
  eShstrndx := BitVec.ofNat 16 (load memory 2 (address + 62))

/-- What `elf_read` takes from a header. -/
def Elf64Ehdr.file (header : Elf64Ehdr) : ElfFile where
  entryPoint := header.eEntry
  phdrsSize := header.ePhentsize.setWidth 64
  phdrsOffset := header.ePhoff
  phdrsCount := header.ePhnum.setWidth 64

/-- The result and `*elf_file` afterwards. -/
def elfRead (memory : Memory) (module : Module) (elfFile : ElfFile) : ElfResult × ElfFile :=
  let header := readEhdr memory module.address
  if header.eIdent 0 ≠ 0x7f ∨ header.eIdent 1 ≠ 0x45 ∨ header.eIdent 2 ≠ 0x4c ∨
      header.eIdent 3 ≠ 0x46 then (.errNotElf, elfFile)
  else if header.eIdent 4 ≠ elfClass64 then (.errInvalidClass, elfFile)
  else if header.eMachine ≠ emX8664 then (.errInvalidMachine, elfFile)
  else if header.eIdent 5 ≠ elfData2Lsb then (.errInvalidEncoding, elfFile)
  else if header.eVersion ≠ evCurrent then (.errInvalidVersion, elfFile)
  else (.ok, header.file)

/-! ## The format -/

/-- The fields of a header with their widths. -/
def Elf64Ehdr.entries (header : Elf64Ehdr) : List (ℕ × ℕ) :=
  (List.finRange 16).map (fun index => (1, (header.eIdent index).val)) ++
    [(2, header.eType.toNat), (2, header.eMachine.toNat), (4, header.eVersion.toNat),
      (8, header.eEntry.toNat), (8, header.ePhoff.toNat), (8, header.eShoff.toNat),
      (4, header.eFlags.toNat), (2, header.eEhsize.toNat), (2, header.ePhentsize.toNat),
      (2, header.ePhnum.toNat), (2, header.eShentsize.toNat), (2, header.eShnum.toNat),
      (2, header.eShstrndx.toNat)]

def writeEhdr (memory : Memory) (address : ℕ) (header : Elf64Ehdr) : Memory :=
  storeFields memory address (packFields 0 header.entries)

/-- The requirements on a header in the order of their checks, each with its error. -/
def Elf64Ehdr.requirements (header : Elf64Ehdr) : List (ElfResult × Bool) :=
  [(.errNotElf, [header.eIdent 0, header.eIdent 1, header.eIdent 2, header.eIdent 3] ==
      [0x7f, 0x45, 0x4c, 0x46]),
    (.errInvalidClass, header.eIdent 4 == elfClass64),
    (.errInvalidMachine, header.eMachine == emX8664),
    (.errInvalidEncoding, header.eIdent 5 == elfData2Lsb),
    (.errInvalidVersion, header.eVersion == evCurrent)]

/-- The first requirement that is not met. -/
def Elf64Ehdr.violation (header : Elf64Ehdr) : Option ElfResult :=
  (header.requirements.find? fun requirement => !requirement.2).map Prod.fst

/-- The offsets of the fields. -/
theorem packFields_entries (header : Elf64Ehdr) :
    packFields 0 header.entries =
      (List.finRange 16).map (fun index => ⟨1, index, (header.eIdent index).val⟩) ++
        [⟨2, 16, header.eType.toNat⟩, ⟨2, 18, header.eMachine.toNat⟩,
          ⟨4, 20, header.eVersion.toNat⟩, ⟨8, 24, header.eEntry.toNat⟩,
          ⟨8, 32, header.ePhoff.toNat⟩, ⟨8, 40, header.eShoff.toNat⟩,
          ⟨4, 48, header.eFlags.toNat⟩, ⟨2, 52, header.eEhsize.toNat⟩,
          ⟨2, 54, header.ePhentsize.toNat⟩, ⟨2, 56, header.ePhnum.toNat⟩,
          ⟨2, 58, header.eShentsize.toNat⟩, ⟨2, 60, header.eShnum.toNat⟩,
          ⟨2, 62, header.eShstrndx.toNat⟩] := rfl

theorem entries_fit (header : Elf64Ehdr) :
    ∀ entry ∈ header.entries, entry.2 < 256 ^ entry.1 := by
  rw [Elf64Ehdr.entries, List.forall_mem_append]
  constructor
  · intro entry hident
    obtain ⟨index, -, rfl⟩ := List.mem_map.mp hident
    exact (header.eIdent index).isLt
  · simp only [List.forall_mem_cons, List.not_mem_nil, false_implies, implies_true, and_true]
    exact ⟨header.eType.isLt, header.eMachine.isLt, header.eVersion.isLt, header.eEntry.isLt,
      header.ePhoff.isLt, header.eShoff.isLt, header.eFlags.isLt, header.eEhsize.isLt,
      header.ePhentsize.isLt, header.ePhnum.isLt, header.eShentsize.isLt, header.eShnum.isLt,
      header.eShstrndx.isLt⟩

/-- The field at a position of the record. -/
theorem load_writeEhdr {header : Elf64Ehdr} (memory : Memory) (address position : ℕ)
    {width offset value : ℕ}
    (hfield : (packFields 0 header.entries)[position]? = some ⟨width, offset, value⟩) :
    load (writeEhdr memory address header) width (address + offset) = value :=
  load_packFields memory (entries_fit header) (List.mem_of_getElem? hfield)

theorem ofNat_load_writeEhdr {header : Elf64Ehdr} (memory : Memory) (address position : ℕ)
    {width offset bits : ℕ} {value : BitVec bits}
    (hfield : (packFields 0 header.entries)[position]? = some ⟨width, offset, value.toNat⟩) :
    BitVec.ofNat bits (load (writeEhdr memory address header) width (address + offset)) =
      value := by
  rw [load_writeEhdr memory address position hfield, BitVec.ofNat_toNat, BitVec.setWidth_eq]

theorem readEhdr_writeEhdr (memory : Memory) (address : ℕ) (header : Elf64Ehdr) :
    readEhdr (writeEhdr memory address header) address = header := by
  have hident : ∀ index : Fin 16,
      (packFields 0 header.entries)[index.val]? =
        some ⟨1, index, (header.eIdent index).val⟩ := by
    intro index
    fin_cases index <;> rfl
  apply Elf64Ehdr.ext
  · funext index
    exact Fin.ext (load_writeEhdr memory address index (hident index))
  · exact ofNat_load_writeEhdr memory address 16 rfl
  · exact ofNat_load_writeEhdr memory address 17 rfl
  · exact ofNat_load_writeEhdr memory address 18 rfl
  · exact ofNat_load_writeEhdr memory address 19 rfl
  · exact ofNat_load_writeEhdr memory address 20 rfl
  · exact ofNat_load_writeEhdr memory address 21 rfl
  · exact ofNat_load_writeEhdr memory address 22 rfl
  · exact ofNat_load_writeEhdr memory address 23 rfl
  · exact ofNat_load_writeEhdr memory address 24 rfl
  · exact ofNat_load_writeEhdr memory address 25 rfl
  · exact ofNat_load_writeEhdr memory address 26 rfl
  · exact ofNat_load_writeEhdr memory address 27 rfl
  · exact ofNat_load_writeEhdr memory address 28 rfl

/-- Every 64 bytes are a header. -/
theorem writeEhdr_readEhdr (memory : Memory) (address : ℕ) :
    writeEhdr memory address (readEhdr memory address) = memory := by
  have hfield : ∀ width offset, (BitVec.ofNat (8 * width)
      (load memory width (address + offset))).toNat = load memory width (address + offset) := by
    intro width offset
    have hlt := load_lt memory width (address + offset)
    rw [BitVec.toNat_ofNat, Nat.mod_eq_of_lt]
    rwa [pow_mul]
  apply storeFields_eq_self
  rw [packFields_entries, List.forall_mem_append]
  constructor
  · intro field hmem
    obtain ⟨index, -, rfl⟩ := List.mem_map.mp hmem
    rfl
  · simp only [List.forall_mem_cons, List.not_mem_nil, false_implies, implies_true, and_true]
    exact ⟨hfield 2 16, hfield 2 18, hfield 4 20, hfield 8 24, hfield 8 32, hfield 8 40,
      hfield 4 48, hfield 2 52, hfield 2 54, hfield 2 56, hfield 2 58, hfield 2 60,
      hfield 2 62⟩

/-- The code's chain of checks finds the first violated requirement. -/
theorem elfRead_eq (memory : Memory) (module : Module) (elfFile : ElfFile) :
    elfRead memory module elfFile =
      match (readEhdr memory module.address).violation with
      | none => (.ok, (readEhdr memory module.address).file)
      | some error => (error, elfFile) := by
  generalize hheader : readEhdr memory module.address = header
  simp only [elfRead, hheader, Elf64Ehdr.violation, Elf64Ehdr.requirements]
  split_ifs <;> simp_all

/-- Success is not an error. -/
theorem violation_ne_ok (header : Elf64Ehdr) : header.violation ≠ some .ok := by
  intro hok
  obtain ⟨requirement, hfound, herror⟩ := Option.map_eq_some_iff.mp hok
  have hmem := List.mem_map_of_mem (f := Prod.fst) (List.mem_of_find?_eq_some hfound)
  have herrors : header.requirements.map Prod.fst = [.errNotElf, .errInvalidClass,
      .errInvalidMachine, .errInvalidEncoding, .errInvalidVersion] := rfl
  rw [herrors, herror] at hmem
  exact absurd hmem (by decide)

/-- A header that was written to memory is judged by its first violated requirement, and
the loader gets its fields if there is none; on an error `*elf_file` keeps its value.
What is accepted is a header without violations. -/
theorem elf_read_round_trip (memory : Memory) (module : Module) (elfFile : ElfFile) :
    (∀ header, elfRead (writeEhdr memory module.address header) module elfFile =
      match header.violation with
      | none => (.ok, header.file)
      | some error => (error, elfFile)) ∧
    ∀ file, elfRead memory module elfFile = (.ok, file) ↔
      ∃ header, writeEhdr memory module.address header = memory ∧
        header.violation = none ∧ header.file = file := by
  have hwritten : ∀ memory header, elfRead (writeEhdr memory module.address header) module
      elfFile = match header.violation with
      | none => (.ok, header.file)
      | some error => (error, elfFile) := by
    intro memory header
    rw [elfRead_eq, readEhdr_writeEhdr]
  refine ⟨hwritten memory, fun file => ⟨?_, ?_⟩⟩
  · intro haccepted
    refine ⟨readEhdr memory module.address, writeEhdr_readEhdr memory module.address, ?_⟩
    have hread := hwritten memory (readEhdr memory module.address)
    rw [writeEhdr_readEhdr, haccepted] at hread
    cases hviolation : (readEhdr memory module.address).violation with
    | none =>
        rw [hviolation] at hread
        exact ⟨rfl, (congrArg Prod.snd hread).symm⟩
    | some error =>
        rw [hviolation] at hread
        obtain rfl : ElfResult.ok = error := congrArg Prod.fst hread
        exact absurd hviolation (violation_ne_ok _)
  · rintro ⟨header, hmemory, hviolation, rfl⟩
    have hread := hwritten memory header
    rwa [hmemory, hviolation] at hread

/-! ## The size of the module -/

theorem elfRead_congr {memory memory' : Memory} {module : Module} (elfFile : ElfFile)
    (hagree : ∀ target, module.address ≤ target → target < module.address + 58 →
      memory' target = memory target) :
    elfRead memory' module elfFile = elfRead memory module elfFile := by
  have hload : ∀ width offset, offset + width ≤ 58 →
      load memory' width (module.address + offset) =
        load memory width (module.address + offset) := by
    intro width offset hoffset
    exact load_congr fun target hlower hupper => hagree target (by omega) (by omega)
  have hbyte : ∀ index : Fin 16, memory' (module.address + index) =
      memory (module.address + index) :=
    fun index => hagree _ (by omega) (by omega)
  have hviolation : (readEhdr memory' module.address).violation =
      (readEhdr memory module.address).violation := by
    simp only [Elf64Ehdr.violation, Elf64Ehdr.requirements, readEhdr, hbyte,
      hload 2 18 (by decide), hload 4 20 (by decide)]
  have hfile : (readEhdr memory' module.address).file =
      (readEhdr memory module.address).file := by
    simp only [Elf64Ehdr.file, readEhdr, hload 8 24 (by decide), hload 8 32 (by decide),
      hload 2 54 (by decide), hload 2 56 (by decide)]
  rw [elfRead_eq, elfRead_eq, hviolation, hfile]

/-- The same bytes at another address. -/
theorem load_shift (memory : Memory) (address width offset : ℕ) :
    load (fun target => memory (target - address)) width (address + offset) =
      load memory width offset := by
  induction width generalizing offset with
  | zero => rfl
  | succ width ih =>
      rw [load, load, Nat.add_sub_cancel_left, Nat.add_assoc, ih]

theorem readEhdr_shift (memory : Memory) (address : ℕ) :
    readEhdr (fun target => memory (target - address)) address = readEhdr memory 0 := by
  simp only [readEhdr, load_shift, Nat.add_sub_cancel_left, Nat.zero_add]

theorem elfRead_shift (memory : Memory) (module : Module) (elfFile : ElfFile) :
    elfRead (fun target => memory (target - module.address)) module elfFile =
      elfRead memory ⟨0, 0⟩ elfFile := by
  rw [elfRead_eq, elfRead_eq, readEhdr_shift]

/-- A header without program headers. -/
def emptyProgram : Elf64Ehdr where
  eIdent := ![0x7f, 0x45, 0x4c, 0x46, 2, 1, 1, 0, 0, 0, 0, 0, 0, 0, 0, 0]
  eType := 2
  eMachine := emX8664
  eVersion := evCurrent
  eEntry := 0x401000
  ePhoff := 64
  eShoff := 0
  eFlags := 0
  eEhsize := 64
  ePhentsize := 56
  ePhnum := 0
  eShentsize := 0
  eShnum := 0
  eShstrndx := 0

/-- `elf_read` never looks at the size of a module.  Its outcome depends on the bytes of
the module alone exactly if there are 58 of them, up to the end of `e_phnum`. -/
theorem elf_read_inside_iff (module : Module) :
    (∀ memory memory' elfFile, (∀ target, module.address ≤ target →
        target < module.address + module.size → memory' target = memory target) →
      elfRead memory' module elfFile = elfRead memory module elfFile) ↔ 58 ≤ module.size := by
  constructor
  · intro hinside
    by_contra hshort
    let memory := writeEhdr (fun _ => 0) 0 emptyProgram
    have hagree : ∀ target, module.address ≤ target → target < module.address + module.size →
        Function.update memory 57 1 (target - module.address) =
          memory (target - module.address) :=
      fun target hlower hupper => Function.update_of_ne (by omega) _ _
    have hsame := hinside (fun target => memory (target - module.address))
      (fun target => Function.update memory 57 1 (target - module.address)) ⟨0, 0, 0, 0⟩ hagree
    rw [elfRead_shift, elfRead_shift] at hsame
    exact absurd hsame (by decide +kernel)
  · intro hlong memory memory' elfFile hagree
    exact elfRead_congr elfFile fun target hlower hupper => hagree target hlower (by omega)

end Flurry.Elf
