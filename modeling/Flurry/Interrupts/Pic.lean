import Flurry.Interrupts.Dispatch

/-!
# The PICs are silenced

`lapic_init` runs with interrupts on and begins with `disable_pic`, which restarts
the two PICs, gives them the vectors 0x20 to 0x2f and masks all of their lines.
Devices may pull and release lines between any two of its writes.  A restarted PIC
has an empty mask and a base that is not set yet, but it interrupts only once it has
all its command words.
-/

namespace Flurry.Pic

open Interrupts

/-! ## The controllers -/

/-- The command word that a PIC waits for after a restart. -/
inductive Awaits
  | icw2
  | icw3
  | icw4
  | nothing
  deriving DecidableEq, Repr

/-- A PIC without the state of its lines. -/
structure Config where
  awaits : Awaits
  icw4Needed : Bool
  single : Bool
  base : BitVec 8
  cascade : BitVec 8
  mode8086 : Bool
  mask : BitVec 8
  deriving DecidableEq, Repr

namespace Config

/-- Bit 4 marks the word that restarts the PIC.  The other commands, which end
interrupts and select what is read, leave all of this alone. -/
def writeCommand (config : Config) (val : BitVec 8) : Config :=
  if val.getLsbD 4 then
    { config with
      awaits := .icw2
      icw4Needed := val.getLsbD 0
      single := val.getLsbD 1
      mode8086 := if val.getLsbD 0 then config.mode8086 else false
      mask := 0 }
  else config

/-- The word after `icw2` and `icw3`. -/
def afterIcw3 (config : Config) : Awaits := if config.icw4Needed then .icw4 else .nothing

def writeData (config : Config) (val : BitVec 8) : Config :=
  match config.awaits with
  | .icw2 =>
      { config with
        base := val &&& 0xf8
        awaits := if config.single then config.afterIcw3 else .icw3 }
  | .icw3 => { config with cascade := val, awaits := config.afterIcw3 }
  | .icw4 => { config with mode8086 := val.getLsbD 0, awaits := .nothing }
  | .nothing => { config with mask := val }

/-- A line that is pulled can interrupt. -/
def Passes (config : Config) (line : Fin 8) : Prop :=
  config.awaits = .nothing ∧ config.mask.getLsbD line = false

/-- The vector of a line: the base and the number of the line. -/
def vector (config : Config) (line : Fin 8) : BitVec 8 :=
  config.base ||| BitVec.ofNat 8 line

end Config

/-- The two PICs, the second one behind a line of the first. -/
structure Configs where
  pic1 : Config
  pic2 : Config
  deriving DecidableEq, Repr

structure Pics extends Configs where
  /-- the lines that are pulled, eight of each PIC -/
  lines1 : BitVec 8
  lines2 : BitVec 8

def pic1CommandPort : BitVec 16 := 0x20
def pic1DataPort : BitVec 16 := 0x21
def pic2CommandPort : BitVec 16 := 0xa0
def pic2DataPort : BitVec 16 := 0xa1

def Configs.write (configs : Configs) (port : BitVec 16) (val : BitVec 8) : Configs :=
  if port = pic1CommandPort then { configs with pic1 := configs.pic1.writeCommand val }
  else if port = pic1DataPort then { configs with pic1 := configs.pic1.writeData val }
  else if port = pic2CommandPort then { configs with pic2 := configs.pic2.writeCommand val }
  else if port = pic2DataPort then { configs with pic2 := configs.pic2.writeData val }
  else configs

/-- Some order of priorities delivers the vector: that of a pulled line of the first
PIC, or of the second one through the line it is connected to. -/
def Pics.Delivers (pics : Pics) (vector : BitVec 8) : Prop :=
  (∃ line, pics.pic1.Passes line ∧ pics.lines1.getLsbD line = true ∧
      vector = pics.pic1.vector line) ∨
    ∃ inner line, pics.pic1.Passes inner ∧ pics.pic1.cascade.getLsbD inner = true ∧
      pics.pic2.Passes line ∧ pics.lines2.getLsbD line = true ∧
      vector = pics.pic2.vector line

/-! ## `disable_pic` among other events -/

inductive PicEvent where
  | writePortb (port : BitVec 16) (val : BitVec 8)
  /-- devices pull or release lines -/
  | lines (lines1 lines2 : BitVec 8)
  deriving DecidableEq, Repr

def PicEvent.run (pics : Pics) : PicEvent → Pics
  | writePortb port val => { pics with toConfigs := pics.toConfigs.write port val }
  | lines lines1 lines2 => { pics with lines1 := lines1, lines2 := lines2 }

def runPicEvents (pics : Pics) (events : List PicEvent) : Pics := events.foldl PicEvent.run pics

def PicEvent.portWrite : PicEvent → Option (BitVec 16 × BitVec 8)
  | writePortb port val => some (port, val)
  | lines _ _ => none

/-- The writes among some events, in order. -/
def portWrites (events : List PicEvent) : List (BitVec 16 × BitVec 8) :=
  events.filterMap PicEvent.portWrite

def irqSlavePicToMasterPic : ℕ := 2
def icw1Icw4Present : BitVec 8 := 0x01
def icw1Init : BitVec 8 := 0x10
def icw48086 : BitVec 8 := 0x01
def pic1IrqBase : BitVec 8 := 0x20
def pic2IrqBase : BitVec 8 := 0x28

def disablePic : List (BitVec 16 × BitVec 8) :=
  [(pic1CommandPort, icw1Init ||| icw1Icw4Present),
    (pic2CommandPort, icw1Init ||| icw1Icw4Present),
    (pic1DataPort, pic1IrqBase),
    (pic2DataPort, pic2IrqBase),
    (pic1DataPort, 1 <<< irqSlavePicToMasterPic),
    (pic2DataPort, BitVec.ofNat 8 irqSlavePicToMasterPic),
    (pic1DataPort, icw48086),
    (pic2DataPort, icw48086),
    (pic1DataPort, 0xff),
    (pic2DataPort, 0xff)]

def Configs.writes (configs : Configs) (writes : List (BitVec 16 × BitVec 8)) : Configs :=
  writes.foldl (fun configs write => configs.write write.1 write.2) configs

/-- Lines come and go without a trace in the configurations. -/
theorem toConfigs_runPicEvents (pics : Pics) (events : List PicEvent) :
    (runPicEvents pics events).toConfigs = pics.toConfigs.writes (portWrites events) := by
  induction events generalizing pics with
  | nil => rfl
  | cons event events ih =>
      cases event with
      | writePortb port val => exact ih _
      | lines lines1 lines2 => exact ih _

/-- A PIC that interrupts at all has its new base. -/
structure Configs.Rebased (configs : Configs) : Prop where
  pic1 : configs.pic1.awaits = .nothing → configs.pic1.base = pic1IrqBase
  pic2 : configs.pic2.awaits = .nothing → configs.pic2.base = pic2IrqBase

/-- The configurations that `disable_pic` leaves. -/
def silenced : Configs where
  pic1 := ⟨.nothing, true, false, pic1IrqBase, 0x04, true, 0xff⟩
  pic2 := ⟨.nothing, true, false, pic2IrqBase, 0x02, true, 0xff⟩

theorem writes_disablePic (configs : Configs) : configs.writes disablePic = silenced := rfl

/-- From the second write on. -/
theorem rebased_writes_take (configs : Configs) {count : ℕ} (hcount : 2 ≤ count) :
    (configs.writes (disablePic.take count)).Rebased := by
  by_cases hall : disablePic.length ≤ count
  · rw [List.take_of_length_le hall, writes_disablePic]
    exact ⟨fun _ => rfl, fun _ => rfl⟩
  · have hlength : disablePic.length = 10 := rfl
    rw [hlength] at hall
    interval_cases count <;> constructor <;> intro hawaits <;>
      first | rfl | exact absurd hawaits (by intro h; cases h)

theorem Pics.Delivers.vector_mem {pics : Pics} {vector : BitVec 8}
    (hrebased : pics.toConfigs.Rebased) (hdelivers : pics.Delivers vector) :
    defaultHandler vector.toFin = .picIrqHandler := by
  have hpic : ∀ line : Fin 8,
      defaultHandler (pic1IrqBase ||| BitVec.ofNat 8 line).toFin = .picIrqHandler ∧
        defaultHandler (pic2IrqBase ||| BitVec.ofNat 8 line).toFin = .picIrqHandler := by
    decide
  rcases hdelivers with ⟨line, hpasses, -, rfl⟩ | ⟨-, line, -, -, hpasses, -, rfl⟩
  · rw [Config.vector, hrebased.pic1 hpasses.1]
    exact (hpic line).1
  · rw [Config.vector, hrebased.pic2 hpasses.1]
    exact (hpic line).2

theorem not_delivers_silenced {pics : Pics} (hconfigs : pics.toConfigs = silenced)
    (vector : BitVec 8) : ¬pics.Delivers vector := by
  have hmask : ∀ line : Fin 8, silenced.pic1.mask.getLsbD line = true := by decide
  have hmasked : ∀ line : Fin 8, ¬pics.pic1.Passes line := by
    intro line hpasses
    rw [Config.Passes, hconfigs, hmask line] at hpasses
    exact absurd hpasses.2 (by decide)
  rintro (⟨line, hpasses, -⟩ | ⟨inner, line, hpasses, -⟩)
  · exact hmasked line hpasses
  · exact hmasked inner hpasses

/-- Whatever the PICs did before and whatever devices do in between: once `disable_pic`
has restarted both PICs, their interrupts have the vectors that `interrupts_init` has
given to `pic_irq_handler`, and when it is done they do not interrupt any more. -/
theorem disable_pic_silences (pics : Pics) (before after : List PicEvent)
    (hwrites : portWrites (before ++ after) = disablePic) :
    (2 ≤ (portWrites before).length → ∀ vector,
      (runPicEvents pics before).Delivers vector →
        defaultHandler vector.toFin = .picIrqHandler) ∧
    ∀ later, portWrites later = [] → ∀ vector,
      ¬(runPicEvents pics (before ++ after ++ later)).Delivers vector := by
  constructor
  · intro hcount vector hdelivers
    have hbefore : portWrites before = disablePic.take (portWrites before).length := by
      rw [← hwrites, portWrites, portWrites, List.filterMap_append, List.take_left]
    apply hdelivers.vector_mem
    rw [toConfigs_runPicEvents, hbefore]
    exact rebased_writes_take _ hcount
  · intro later hlater vector
    apply not_delivers_silenced
    rw [toConfigs_runPicEvents, portWrites, List.filterMap_append, ← portWrites, ← portWrites,
      hwrites, hlater, List.append_nil, writes_disablePic]

/-- The vectors of the firmware, with the timer's line pulled. -/
def firmwarePics : Pics where
  pic1 := ⟨.nothing, true, false, 0x08, 0x04, true, 0xb8⟩
  pic2 := ⟨.nothing, true, false, 0x70, 0x02, true, 0x8e⟩
  lines1 := 0x01
  lines2 := 0x00

/-- The timer comes through before the masks are written, and not afterwards. -/
theorem disable_pic_silences_timer :
    (runPicEvents firmwarePics
      ((disablePic.take 8).map fun write => .writePortb write.1 write.2)).Delivers 0x20 ∧
    defaultHandler 0x20 = .picIrqHandler ∧
    ¬(runPicEvents firmwarePics ((disablePic.take 8).map (fun write =>
        .writePortb write.1 write.2) ++ (disablePic.drop 8).map (fun write =>
        .writePortb write.1 write.2) ++ [.lines 0xff 0xff])).Delivers 0x20 := by
  obtain ⟨hduring, hafter⟩ := disable_pic_silences firmwarePics
    ((disablePic.take 8).map fun write => .writePortb write.1 write.2)
    ((disablePic.drop 8).map fun write => .writePortb write.1 write.2) (by decide)
  have hdelivers : (runPicEvents firmwarePics ((disablePic.take 8).map fun write =>
      .writePortb write.1 write.2)).Delivers 0x20 :=
    Or.inl ⟨0, ⟨by decide, by decide⟩, by decide, by decide⟩
  exact ⟨hdelivers, hduring (by decide) 0x20 hdelivers, hafter _ rfl 0x20⟩

end Flurry.Pic
