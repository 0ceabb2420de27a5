import Flurry.Cpu.Gdt
import Flurry.Interrupts.Isr

/-!
# The interrupt descriptor table

`idt_init` writes 256 descriptors of 16 bytes each, with the address of a stub
spread over three fields.  The processor reads the descriptor of a vector from
memory, puts the address together and loads the code segment that it names from the
descriptors of `gdt.c`.
-/

namespace Flurry.Interrupts

open ByteMemory Processor BitSlice

def kCodeSelector : ℕ := 0x08
def idtMaxDescriptors : ℕ := 256
def sizeofIdtDescriptor : ℕ := 16

/-- The fields of an `IdtDescriptor` in the order they are written in. -/
def descriptorFields (isr : Word) (flags : ℕ) : List Field :=
  [⟨2, 0, (isr &&& 0xffff).toNat⟩, ⟨2, 2, kCodeSelector⟩, ⟨1, 4, 0⟩, ⟨1, 5, flags⟩,
    ⟨2, 6, (isr >>> 16 &&& 0xffff).toNat⟩, ⟨4, 8, (isr >>> 32 &&& 0xffffffff).toNat⟩,
    ⟨4, 12, 0⟩]

/-- `idt` is the address of the table. -/
def idtSetDescriptor (memory : Memory) (idt : ℕ) (vector : Fin 256) (isr : Word)
    (flags : ℕ) : Memory :=
  storeFields memory (idt + sizeofIdtDescriptor * vector) (descriptorFields isr flags)

/-- The loop of `idt_init`. -/
def idtInit (memory : Memory) (idt : ℕ) (isrArray : Fin 256 → Word) : Memory :=
  (List.finRange idtMaxDescriptors).foldl
    (fun memory vector => idtSetDescriptor memory idt vector (isrArray vector) 0x8e) memory

/-- What `lidt` loads. -/
structure Idtr where
  base : ℕ
  limit : ℕ

def idtrOf (idt : ℕ) : Idtr where
  base := idt
  limit := sizeofIdtDescriptor * idtMaxDescriptors - 1

/-! ## The processor's side -/

structure GateDescriptor where
  offset : Word
  selector : BitVec 16
  ist : BitVec 3
  gateType : BitVec 4
  dpl : BitVec 2
  present : Bool
  deriving DecidableEq, Repr

/-- The descriptor of a vector, `none` beyond the limit. -/
def readGate (memory : Memory) (idtr : Idtr) (vector : Fin 256) : Option GateDescriptor :=
  let address := idtr.base + 16 * vector
  if 16 * vector.val + 15 ≤ idtr.limit then
    let attributes := BitVec.ofNat 8 (load memory 1 (address + 5))
    some
      { offset := BitVec.ofNat 32 (load memory 4 (address + 8)) ++
          (BitVec.ofNat 16 (load memory 2 (address + 6)) ++
            BitVec.ofNat 16 (load memory 2 (address + 0)))
        selector := BitVec.ofNat 16 (load memory 2 (address + 2))
        ist := (BitVec.ofNat 8 (load memory 1 (address + 4))).extractLsb' 0 3
        gateType := attributes.extractLsb' 0 4
        dpl := attributes.extractLsb' 5 2
        present := attributes.getLsbD 7 }
  else none

/-- A present code segment of the highest privilege, in 64-bit mode. -/
def isKernelCode (segment : Gdt.Segment) : Bool :=
  segment.access.getLsbD 7 && segment.access.extractLsb' 5 2 == 0 &&
    segment.access.getLsbD 4 && segment.access.getLsbD 3 && segment.flags.getLsbD 1

/-- The segment that a selector names in the global table. -/
def segmentOf (gdt : Fin 7 → BitVec 64) (selector : BitVec 16) : Option Gdt.Segment :=
  let index := (selector.extractLsb' 3 13).toNat
  if hindex : index < 7 then
    bif selector.getLsbD 2 then none else some (Gdt.decode (gdt ⟨index, hindex⟩))
  else none

/-- Where an interruption leads: through a present interrupt gate on the current stack
into kernel code.  Anything else is a fault, `none`. -/
def gateFor (memory : Memory) (idtr : Idtr) (gdt : Fin 7 → BitVec 64) (vector : Fin 256) :
    Option Gate := do
  let descriptor ← readGate memory idtr vector
  let segment ← segmentOf gdt descriptor.selector
  if descriptor.present && descriptor.gateType == 0xe && descriptor.ist == 0 &&
      isKernelCode segment then
    some ⟨descriptor.offset, descriptor.selector⟩
  else none

/-! ## Descriptors in memory -/

/-- The fields of a descriptor can be read at an address. -/
def HoldsDescriptor (memory : Memory) (address : ℕ) (isr : Word) (flags : ℕ) : Prop :=
  ∀ field ∈ descriptorFields isr flags,
    load memory field.width (address + field.offset) = field.value

section Descriptors

variable {memory memory' : Memory} {address idt flags : ℕ} {isr : Word} {vector : Fin 256}

theorem descriptorFields_end (isr : Word) (flags : ℕ) :
    ∀ field ∈ descriptorFields isr flags, field.offset + field.width ≤ 16 := by
  simp [descriptorFields]

theorem descriptorFields_lt (isr : Word) (hflags : flags < 256) :
    ∀ field ∈ descriptorFields isr flags, field.value < 256 ^ field.width := by
  have hmask : ∀ word mask : Word, (word &&& mask).toNat ≤ mask.toNat := by
    intro word mask
    rw [BitVec.toNat_and]
    exact Nat.and_le_right
  have hlow := hmask isr 0xffff
  have hmiddle := hmask (isr >>> 16) 0xffff
  have hhigh := hmask (isr >>> 32) 0xffffffff
  change _ ≤ 0xffff at hlow hmiddle
  change _ ≤ 0xffffffff at hhigh
  simp only [descriptorFields, List.mem_cons, List.not_mem_nil, or_false, kCodeSelector]
  rintro field (rfl | rfl | rfl | rfl | rfl | rfl | rfl) <;> dsimp only <;> omega

theorem HoldsDescriptor.congr (hholds : HoldsDescriptor memory address isr flags)
    (hagree : ∀ target, address ≤ target → target < address + 16 →
      memory' target = memory target) : HoldsDescriptor memory' address isr flags := by
  intro field hfield
  have hend := descriptorFields_end isr flags field hfield
  rw [← hholds field hfield]
  apply load_congr
  intro target hfrom hto
  exact hagree target (by omega) (by omega)

theorem holdsDescriptor_set (memory : Memory) (hflags : flags < 256) :
    HoldsDescriptor (idtSetDescriptor memory idt vector isr flags) (idt + 16 * vector) isr
      flags := by
  intro field hfield
  apply load_storeFields memory _ hfield (descriptorFields_lt isr hflags field hfield)
  simp [descriptorFields, Field.Apart]

/-- Setting one descriptor leaves the others alone. -/
theorem HoldsDescriptor.set {other : Fin 256} {isr' : Word} {flags' : ℕ}
    (hholds : HoldsDescriptor memory (idt + 16 * vector) isr flags) (hne : other ≠ vector) :
    HoldsDescriptor (idtSetDescriptor memory idt other isr' flags') (idt + 16 * vector) isr
      flags := by
  apply hholds.congr
  have hval : other.val ≠ vector.val := fun hval => hne (Fin.ext hval)
  intro target hfrom hto
  apply agreeOutside_storeFields memory (descriptorFields_end isr' flags') target
  simp only [sizeofIdtDescriptor]
  omega

/-- After the loop every descriptor of the table names its stub. -/
theorem holdsDescriptor_idtInit (memory : Memory) (idt : ℕ) (isrArray : Fin 256 → Word)
    (vector : Fin 256) :
    HoldsDescriptor (idtInit memory idt isrArray) (idt + 16 * vector) (isrArray vector)
      0x8e := by
  -- by induction on the vectors that are still to come: done, or still in the list
  have hloop : ∀ (vectors : List (Fin 256)) (memory : Memory),
      vector ∈ vectors ∨ HoldsDescriptor memory (idt + 16 * vector) (isrArray vector) 0x8e →
        HoldsDescriptor (vectors.foldl (fun memory vector =>
          idtSetDescriptor memory idt vector (isrArray vector) 0x8e) memory)
            (idt + 16 * vector) (isrArray vector) 0x8e := by
    intro vectors
    induction vectors with
    | nil => exact fun memory hholds => hholds.resolve_left List.not_mem_nil
    | cons first vectors ih =>
        intro memory hholds
        apply ih
        by_cases hfirst : first = vector
        · subst hfirst
          exact Or.inr (holdsDescriptor_set memory (by decide))
        · exact hholds.imp (fun hmem => (List.mem_cons.mp hmem).resolve_left (Ne.symm hfirst))
            fun hset => hset.set hfirst
  exact hloop _ memory (Or.inl (List.mem_finRange vector))

/-- The three parts of an address put together. -/
theorem isr_eq_append (isr : Word) :
    BitVec.ofNat 32 (isr >>> 32 &&& 0xffffffff).toNat ++
      (BitVec.ofNat 16 (isr >>> 16 &&& 0xffff).toNat ++
        BitVec.ofNat 16 (isr &&& 0xffff).toNat) = isr := by
  have hword : (0xffff : Word) = sliceMask 64 0 16 := by decide
  have hhalf : (0xffffffff : Word) = sliceMask 64 0 32 := by decide
  rw [hword, hhalf, ofNat_and_sliceMask, ofNat_and_sliceMask, ofNat_and_sliceMask,
    extract_ushiftRight, extract_ushiftRight, ← extract_eq_append 16 16,
    ← extract_eq_append 32 32]
  exact BitVec.extractLsb'_eq_self

theorem HoldsDescriptor.readGate (hholds : HoldsDescriptor memory (idt + 16 * vector) isr 0x8e) :
    readGate memory (idtrOf idt) vector =
      some ⟨isr, BitVec.ofNat 16 kCodeSelector, 0, 0xe, 0, true⟩ := by
  have hlimit : 16 * vector.val + 15 ≤ (idtrOf idt).limit := by
    have hvector := vector.isLt
    change _ ≤ 4095
    omega
  simp only [HoldsDescriptor, descriptorFields, List.forall_mem_cons] at hholds
  obtain ⟨hlow, hselector, hist, hattributes, hmiddle, hhigh, -⟩ := hholds
  rw [Interrupts.readGate, if_pos hlimit]
  simp only [idtrOf, hlow, hselector, hist, hattributes, hmiddle, hhigh, isr_eq_append]
  rfl

/-- A memory that has the table leads every interruption to its stub, in kernel code. -/
theorem gateFor_eq {isrArray : Fin 256 → Word} (tss : Word)
    (hagree : ∀ target, idt ≤ target → target < idt + 4096 →
      memory' target = idtInit memory idt isrArray target) :
    gateFor memory' (idtrOf idt) (Gdt.gdtInit tss) vector =
      some ⟨isrArray vector, BitVec.ofNat 16 kCodeSelector⟩ := by
  have hholds : HoldsDescriptor memory' (idt + 16 * vector) (isrArray vector) 0x8e := by
    apply (holdsDescriptor_idtInit memory idt isrArray vector).congr
    intro target hfrom hto
    have hvector := vector.isLt
    exact hagree target (by omega) (by omega)
  have hsegment : segmentOf (Gdt.gdtInit tss) (BitVec.ofNat 16 kCodeSelector) =
      some (Gdt.decode (Gdt.gdtEncodeEntry 0xfffff 0 0x9a 0xa)) := rfl
  have hcode : isKernelCode (Gdt.decode (Gdt.gdtEncodeEntry 0xfffff 0 0x9a 0xa)) = true := by
    decide
  simp only [gateFor, hholds.readGate, Option.bind_eq_bind, Option.bind_some, hsegment, hcode]
  rfl

end Descriptors

end Flurry.Interrupts
