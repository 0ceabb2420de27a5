import Flurry.Log.Kprintf
import Mathlib.Logic.Function.Basic

/-!
# What the screen shows

The console keeps no copy of its text: a character is drawn once, over whatever its cell
showed before.  As long as the output stays in the framebuffer the screen nevertheless
shows a text, cell by cell the character that was printed there last.  Nothing is ever
cleared, so when the cursor comes back to a row, the rest of the old line stays behind
the new one.
-/

namespace Flurry.Log

open ByteMemory

/-! ## The framebuffer -/

/-- The pixels by their index. -/
abbrev Framebuffer := ℕ → BitVec 32

def PixelWrite.apply (framebuffer : Framebuffer) (write : PixelWrite) : Framebuffer :=
  Function.update framebuffer write.index write.colour

def Glyph.draw (framebuffer : Framebuffer) (glyph : Glyph) : Framebuffer :=
  glyph.lines.flatten.foldl PixelWrite.apply framebuffer

section Writes

variable {index : ℕ} {writes : List PixelWrite}

theorem foldl_apply_of_ne (framebuffer : Framebuffer)
    (hne : ∀ write ∈ writes, write.index ≠ index) :
    writes.foldl PixelWrite.apply framebuffer index = framebuffer index := by
  induction writes generalizing framebuffer with
  | nil => rfl
  | cons write writes ih =>
      rw [List.foldl_cons, ih _ fun other hother => hne other (List.mem_cons_of_mem _ hother)]
      exact Function.update_of_ne (hne write List.mem_cons_self).symm _ _

/-- Writes to one pixel that agree on its colour. -/
theorem foldl_apply_of_mem {write : PixelWrite} (framebuffer : Framebuffer)
    (hmem : write ∈ writes)
    (hsame : ∀ other ∈ writes, other.index = write.index → other = write) :
    writes.foldl PixelWrite.apply framebuffer write.index = write.colour := by
  induction writes generalizing framebuffer with
  | nil => exact absurd hmem List.not_mem_nil
  | cons first writes ih =>
      have hrest : ∀ other ∈ writes, other.index = write.index → other = write :=
        fun other hother => hsame other (List.mem_cons_of_mem _ hother)
      rw [List.foldl_cons]
      by_cases hlater : write ∈ writes
      · exact ih _ hlater hrest
      · obtain rfl := (List.mem_cons.mp hmem).resolve_right hlater
        rw [foldl_apply_of_ne]
        · exact Function.update_self _ _ _
        · intro other hother hindex
          exact hlater (hrest other hother hindex ▸ hother)

end Writes

/-! ## One character -/

/-- The colour of a pixel of a character.  The table has eight pixels for the nine of a
line; as its bytes are signed, the first of them is drawn twice. -/
def glyphColour (font : Font) (c : Byte) (number pixel : ℕ) : BitVec 32 :=
  match glyphData font c with
  | some data =>
      if (data ⟨number % 16, Nat.mod_lt number (Nat.succ_pos 15)⟩).getMsbD (pixel - 1) then
        0xffffff
      else 0x0
  | none => 0x0

theorem getLsbD_signExtend_byte (byte : BitVec 8) {pixel : ℕ} (hpixel : pixel < 9) :
    (byte.signExtend 32).getLsbD (8 - pixel) = byte.getMsbD (pixel - 1) := by
  rw [BitVec.getLsbD_signExtend]
  cases pixel with
  | zero => rfl
  | succ pixel =>
      have hbit : 8 - (pixel + 1) < 8 := by omega
      have hplace : 8 - (pixel + 1) = 8 - 1 - pixel := by omega
      rw [if_pos hbit, BitVec.getMsbD, hplace, Nat.add_sub_cancel,
        decide_eq_true (show 8 - 1 - pixel < 32 by omega),
        decide_eq_true (show pixel < 8 by omega)]

section Drawing

variable {font : Font} {width height column row : ℕ} {data : Fin 16 → BitVec 8} {c : Byte}

theorem map_colour_glyphLine {byte : BitVec 8} {count x y : ℕ} :
    (glyphLine width y byte count x).map PixelWrite.colour =
      (List.range count).map fun pixel =>
        if (byte.signExtend 32).getLsbD (count - 1 - pixel) then 0xffffff else 0x0 := by
  induction count generalizing x with
  | zero => rfl
  | succ count ih =>
      rw [glyphLine, List.map_cons, List.range_succ_eq_map, List.map_cons, List.map_map, ih]
      congr 1
      apply List.map_congr_left
      intro pixel _
      have hbit : count + 1 - 1 - pixel.succ = count - 1 - pixel := by omega
      rw [Function.comp_apply, hbit]

/-- A scan line of a character in a cell that fits. -/
def scanLine (font : Font) (c : Byte) (width column row number : ℕ) : List PixelWrite :=
  (List.range 9).map fun pixel =>
    ⟨(17 * row + number) * width + (9 * column + pixel), glyphColour font c number pixel⟩

theorem cellGlyph_scanLine (hfits : CellFits width height column row)
    (hdata : glyphData font c = some data) {number : ℕ} (hnumber : number < 16) :
    (cellGlyph width column row data).lines[number]? =
      some (scanLine font c width column row number) := by
  obtain ⟨line, hline⟩ := @exists_cellGlyph_line width column row data number hnumber
  have hindices : line.map PixelWrite.index =
      (scanLine font c width column row number).map PixelWrite.index := by
    rw [(cellGlyph_line hline).2, scanLine, List.map_map]
    apply List.map_congr_left
    intro pixel hpixel
    exact hfits.pixelIndex_eq hnumber (List.mem_range.mp hpixel)
  have hcolours : line.map PixelWrite.colour =
      (scanLine font c width column row number).map PixelWrite.colour := by
    have hbyte : (List.ofFn data)[number]? =
        some (data ⟨number % 16, Nat.mod_lt number (Nat.succ_pos 15)⟩) := by
      rw [List.getElem?_ofFn, dif_pos hnumber]
      congr 2
      exact Fin.ext (Nat.mod_eq_of_lt hnumber).symm
    have hdrawn := hline
    rw [cellGlyph, getElem?_glyphLines (Nat.mod_lt _ (by omega)), hbyte] at hdrawn
    obtain rfl := Option.some.inj hdrawn
    rw [map_colour_glyphLine, scanLine, List.map_map]
    apply List.map_congr_left
    intro pixel hpixel
    simp only [Function.comp_apply, glyphColour, hdata,
      getLsbD_signExtend_byte _ (List.mem_range.mp hpixel)]
  have hzip : ∀ writes : List PixelWrite, writes =
      List.zipWith PixelWrite.mk (writes.map PixelWrite.index)
        (writes.map PixelWrite.colour) := by
    intro writes
    simp [List.zipWith_map]
  rw [hline, hzip line, hindices, hcolours, ← hzip]

theorem mem_cellGlyph (hfits : CellFits width height column row)
    (hdata : glyphData font c = some data) {write : PixelWrite} :
    write ∈ (cellGlyph width column row data).lines.flatten ↔
      ∃ number < 16, ∃ pixel < 9,
        write = ⟨(17 * row + number) * width + (9 * column + pixel),
          glyphColour font c number pixel⟩ := by
  constructor
  · intro hwrite
    obtain ⟨line, hline, hmem⟩ := List.mem_flatten.mp hwrite
    obtain ⟨number, hat⟩ := List.mem_iff_getElem?.mp hline
    have hnumber := (cellGlyph_line hat).1
    obtain rfl := Option.some.inj (hat.symm.trans (cellGlyph_scanLine hfits hdata hnumber))
    obtain ⟨pixel, hpixel, rfl⟩ := List.mem_map.mp hmem
    exact ⟨number, hnumber, pixel, List.mem_range.mp hpixel, rfl⟩
  · rintro ⟨number, hnumber, pixel, hpixel, rfl⟩
    exact List.mem_flatten.mpr ⟨_, List.mem_of_getElem? (cellGlyph_scanLine hfits hdata hnumber),
      List.mem_map_of_mem (List.mem_range.mpr hpixel)⟩

/-- A pixel belongs to one scan line and one place on it. -/
theorem pixel_inj {x y x' y' : ℕ} (hx : x < width) (hx' : x' < width)
    (heq : y * width + x = y' * width + x') : y = y' ∧ x = x' := by
  have hwidth : 0 < width := by omega
  have hdiv : (y * width + x) / width = y ∧ (y * width + x) % width = x :=
    (Nat.div_mod_unique hwidth).mpr ⟨by rw [Nat.mul_comm, Nat.add_comm], hx⟩
  have hdiv' : (y * width + x) / width = y' ∧ (y * width + x) % width = x' :=
    (Nat.div_mod_unique hwidth).mpr ⟨by rw [heq, Nat.mul_comm, Nat.add_comm], hx'⟩
  exact ⟨hdiv.1.symm.trans hdiv'.1, hdiv.2.symm.trans hdiv'.2⟩

/-- Drawing a character changes its cell, without the last of the 17 scan lines. -/
theorem draw_cellGlyph (hfits : CellFits width height column row)
    (hdata : glyphData font c = some data) (framebuffer : Framebuffer) {x y : ℕ}
    (hx : x < width) :
    (cellGlyph width column row data).draw framebuffer (y * width + x) =
      if (x / 9 = column ∧ y / 17 = row) ∧ y % 17 < 16 then
        glyphColour font c (y % 17) (x % 9)
      else framebuffer (y * width + x) := by
  have hright := column_lt_iff.mp hfits.column_lt
  split
  · next hcell =>
    obtain ⟨⟨rfl, rfl⟩, hnumber⟩ := hcell
    have hy : 17 * (y / 17) + y % 17 = y := Nat.div_add_mod y 17
    have hx' : 9 * (x / 9) + x % 9 = x := Nat.div_add_mod x 9
    have hmem := (mem_cellGlyph hfits hdata).mpr
      ⟨y % 17, hnumber, x % 9, Nat.mod_lt x (by omega), rfl⟩
    rw [hy, hx'] at hmem
    apply foldl_apply_of_mem framebuffer hmem
    intro other hother hindex
    obtain ⟨number, hlt, pixel, hpixel, rfl⟩ := (mem_cellGlyph hfits hdata).mp hother
    obtain ⟨hline, hplace⟩ := pixel_inj (by omega) hx hindex
    obtain rfl : number = y % 17 := by omega
    obtain rfl : pixel = x % 9 := by omega
    rw [hy, hx']
  · next hcell =>
    apply foldl_apply_of_ne
    intro write hwrite hindex
    obtain ⟨number, hlt, pixel, hpixel, rfl⟩ := (mem_cellGlyph hfits hdata).mp hwrite
    obtain ⟨hline, hplace⟩ := pixel_inj (by omega) hx hindex
    exact hcell (by omega)

end Drawing

/-! ## Texts -/

/-- The characters of a text that are drawn, with their column and line. -/
def placed (line column : ℕ) : List Byte → List ((ℕ × ℕ) × Byte)
  | [] => []
  | c :: text =>
      if c = newline then placed (line + 1) 0 text
      else ((column, line), c) :: placed line (column + 1) text

/-- The last character that was placed in a cell. -/
def lastIn (charHeight column row : ℕ) (chars : List ((ℕ × ℕ) × Byte)) : Option Byte :=
  (chars.reverse.find? fun char =>
    char.1.1 = column ∧ lineRow charHeight char.1.2 = row).map Prod.snd

/-- The cells of a screen on which a text has been printed, by column and row. -/
def shown (charHeight : ℕ) (text : List Byte) (column row : ℕ) : Option Byte :=
  lastIn charHeight column row (placed 0 0 text)

/-- The colour of a pixel, given the character in its cell.  Between two rows, and where
there is no character, it is what it was. -/
def shownColour (font : Font) (char : Option Byte) (x y : ℕ) (old : BitVec 32) : BitVec 32 :=
  match char with
  | some c => if y % 17 < 16 then glyphColour font c (y % 17) (x % 9) else old
  | none => old

section Texts

variable {font : Font} {width height line column x y : ℕ} {c : Byte} {text : List Byte}

theorem map_fst_placed : (placed line column text).map Prod.fst = cells line column text := by
  induction text generalizing line column with
  | nil => rfl
  | cons c text ih =>
      rw [placed, cells]
      split
      · exact ih
      · rw [List.map_cons, ih]

/-- Later characters cover the first one. -/
theorem lastIn_cons (charHeight : ℕ) (char : (ℕ × ℕ) × Byte) (chars : List ((ℕ × ℕ) × Byte)) :
    lastIn charHeight x y (char :: chars) =
      (lastIn charHeight x y chars).or
        (if char.1.1 = x ∧ lineRow charHeight char.1.2 = y then some char.2 else none) := by
  rw [lastIn, lastIn, List.reverse_cons, List.find?_append, Option.map_or]
  congr 1
  rw [List.find?_singleton]
  split
  · next hcell => rw [if_pos (of_decide_eq_true hcell), Option.map_some]
  · next hcell => rw [if_neg fun hat => hcell (decide_eq_true hat), Option.map_none]

/-- The colour after one more character below those that are drawn later. -/
theorem shownColour_or (later : Option Byte) (old : BitVec 32) (cell : Prop) [Decidable cell] :
    shownColour font (later.or (if cell then some c else none)) x y old =
      shownColour font later x y
        (if cell ∧ y % 17 < 16 then glyphColour font c (y % 17) (x % 9) else old) := by
  cases later with
  | some later =>
      simp only [Option.some_or, shownColour]
      split_ifs <;> tauto
  | none =>
      rw [Option.none_or]
      by_cases hcell : cell <;> simp [shownColour, hcell]

/-- Printing from a position on shows the characters that are placed from there on. -/
theorem kputs_shows (hwidth : 9 ≤ width) (hheight : 17 ≤ height) (hcolumn : column ≤ width / 9)
    (htext : ∀ c ∈ text, c = newline ∨ Printable c)
    (hfits : ∀ cell ∈ cells line column text,
      CellFits width height cell.1 (lineRow (height / 17) cell.2)) :
    ∃ after glyphs, kputs font (ttyAt width height line column) text = some (after, glyphs) ∧
      ∀ (framebuffer : Framebuffer) (x y : ℕ), x < width →
        glyphs.foldl Glyph.draw framebuffer (y * width + x) =
          shownColour font (lastIn (height / 17) (x / 9) (y / 17) (placed line column text))
            x y (framebuffer (y * width + x)) := by
  induction text generalizing line column with
  | nil => exact ⟨_, [], rfl, fun framebuffer x y hx => rfl⟩
  | cons c text ih =>
      have hrest : ∀ c ∈ text, c = newline ∨ Printable c :=
        fun c hc => htext c (List.mem_cons_of_mem _ hc)
      rw [kputs_cons, placed]
      rw [cells] at hfits
      rcases htext c List.mem_cons_self with rfl | hprintable
      · rw [if_pos rfl] at hfits ⊢
        rw [kputchar_newline hheight, followedBy_nil]
        exact ih (Nat.zero_le _) hrest hfits
      · have hc : c ≠ newline := by
          rintro rfl
          exact absurd hprintable (by decide)
        rw [if_neg hc] at hfits ⊢
        obtain ⟨hcell, hcells⟩ := List.forall_mem_cons.mp hfits
        obtain ⟨data, next, hdata, hput, hnext⟩ := @kputchar_printable font width height line
          column c hwidth hheight hcolumn hprintable
        obtain rfl := hnext hcell.column_lt
        obtain ⟨after, glyphs, hrun, hshows⟩ := ih hcell.column_lt hrest hcells
        refine ⟨after, cellGlyph width column (lineRow (height / 17) line) data :: glyphs, ?_, ?_⟩
        · rw [hput, followedBy]
          simp [hrun]
        intro framebuffer x y hx
        rw [List.foldl_cons, hshows _ x y hx, draw_cellGlyph hcell hdata framebuffer hx,
          lastIn_cons, shownColour_or]
        simp only [eq_comm]

/-- A character is shown where there is room for it. -/
theorem lt_height_of_shown
    (hfits : ∀ cell ∈ cells line column text,
      CellFits width height cell.1 (lineRow (height / 17) cell.2))
    (hshown : lastIn (height / 17) x (y / 17) (placed line column text) = some c)
    (hline : y % 17 < 16) : y < height := by
  obtain ⟨char, hfind, -⟩ := Option.map_eq_some_iff.mp hshown
  have hcell := List.find?_some hfind
  rw [decide_eq_true_eq] at hcell
  have hmem : char.1 ∈ cells line column text := by
    rw [← map_fst_placed]
    exact List.mem_map_of_mem (List.mem_reverse.mp (List.mem_of_find?_eq_some hfind))
  have hroom := (hfits _ hmem).row_le
  rw [hcell.2] at hroom
  omega

end Texts

/-! ## Formatted output -/

/-- A call of `kprintf`, with what its buffer happens to hold. -/
structure KprintfCall where
  buffer : List Byte
  format : List Byte
  args : List Arg

/-- One call after another. -/
def kprintfs (font : Font) : Tty → List KprintfCall → Option (Tty × List Glyph)
  | tty, [] => some (tty, [])
  | tty, call :: calls =>
      followedBy (kprintf font tty call.buffer call.format call.args) fun tty =>
        kprintfs font tty calls

/-- What the calls print. -/
def Prints (calls : List KprintfCall) (texts : List (List Byte)) : Prop :=
  List.Forall₂ (fun call text => expand call.format call.args = some text) calls texts

theorem kprintfs_eq_kputs {font : Font} {tty : Tty} {calls : List KprintfCall}
    {texts : List (List Byte)} (hprints : Prints calls texts)
    (hbuffers : ∀ call ∈ calls, call.buffer.length = 21) :
    kprintfs font tty calls = kputs font tty texts.flatten := by
  induction hprints generalizing tty with
  | nil => rfl
  | @cons call text calls texts hcall _ ih =>
      obtain ⟨hbuffer, hrest⟩ := List.forall_mem_cons.mp hbuffers
      rw [kprintfs, kprintf_eq_kputs _ _ hbuffer, hcall, Option.bind_some, List.flatten_cons,
        kputs_append]
      simp only [ih hrest]

/-- After any calls of `kprintf` whose output consists of printable characters and newlines
and stays in the framebuffer the screen shows, cell by cell, the character that was printed
there last, and nothing else has changed. -/
theorem screen_shows_output {font : Font} {width height : ℕ} {calls : List KprintfCall}
    {texts : List (List Byte)} (hwidth : 9 ≤ width) (hheight : 17 ≤ height)
    (hbuffers : ∀ call ∈ calls, call.buffer.length = 21) (hprints : Prints calls texts)
    (hprintable : ∀ c ∈ texts.flatten, c = newline ∨ Printable c)
    (hfits : ∀ cell ∈ cells 0 0 texts.flatten,
      CellFits width height cell.1 (lineRow (height / 17) cell.2)) :
    ∃ tty glyphs, kprintfs font (ttyInit width height) calls = some (tty, glyphs) ∧
      ∀ framebuffer : Framebuffer,
        (∀ x < width, ∀ y < height,
          glyphs.foldl Glyph.draw framebuffer (y * width + x) =
            shownColour font (shown (height / 17) texts.flatten (x / 9) (y / 17)) x y
              (framebuffer (y * width + x))) ∧
        ∀ index ≥ width * height,
          glyphs.foldl Glyph.draw framebuffer index = framebuffer index := by
  obtain ⟨tty, glyphs, hrun, hshows⟩ := @kputs_shows font width height 0 0 texts.flatten hwidth
    hheight (Nat.zero_le _) hprintable hfits
  refine ⟨tty, glyphs, (kprintfs_eq_kputs hprints hbuffers).trans hrun, fun framebuffer =>
    ⟨fun x hx y _ => hshows framebuffer x y hx, fun index hindex => ?_⟩⟩
  have hpixel : index / width * width + index % width = index := Nat.div_add_mod' index width
  have hbelow : height ≤ index / width :=
    (Nat.le_div_iff_mul_le (by omega)).mpr (by rwa [Nat.mul_comm])
  have hcolour := hshows framebuffer (index % width) (index / width) (Nat.mod_lt _ (by omega))
  rw [hpixel] at hcolour
  rw [hcolour]
  cases hchar : lastIn (height / 17) (index % width / 9) (index / width / 17)
      (placed 0 0 texts.flatten) with
  | none => rfl
  | some c =>
      exact if_neg fun hline =>
        absurd (lt_height_of_shown hfits hchar hline) (Nat.not_lt.mpr hbelow)

/-- The calls `kprintf("%d\n", 7)` and `kprintf("a")`. -/
def sevenCalls : List KprintfCall :=
  [⟨List.replicate 21 0, [37, 100, newline], [.number 7]⟩,
    ⟨List.replicate 21 0, [97], []⟩]

/-- A font with all pixels set. -/
def solidFont : Font := fun _ _ => 0xff#8

/-- Two rows of one cell: the scan line between them keeps its colour. -/
theorem screen_shows_output_seven :
    ∃ tty glyphs, kprintfs solidFont (ttyInit 9 34) sevenCalls = some (tty, glyphs) ∧
      ∀ framebuffer : Framebuffer,
        glyphs.foldl Glyph.draw framebuffer (15 * 9 + 8) = 0xffffff ∧
        glyphs.foldl Glyph.draw framebuffer (16 * 9 + 8) = framebuffer (16 * 9 + 8) ∧
        glyphs.foldl Glyph.draw framebuffer (17 * 9) = 0xffffff ∧
        glyphs.foldl Glyph.draw framebuffer (9 * 34) = framebuffer (9 * 34) := by
  have hprints : Prints sevenCalls [[55, newline], [97]] :=
    .cons (by decide +kernel) (.cons (by decide +kernel) .nil)
  obtain ⟨tty, glyphs, hrun, hshows⟩ := @screen_shows_output solidFont 9 34 sevenCalls _
    (by decide) (by decide) (by decide) hprints (by decide +kernel) (by
      change ∀ cell ∈ [(0, 0), (0, 1)], CellFits 9 34 cell.1 (lineRow 2 cell.2)
      simp only [List.forall_mem_cons]
      exact ⟨⟨by decide, by decide, by decide⟩, ⟨by decide, by decide, by decide⟩, nofun⟩)
  refine ⟨tty, glyphs, hrun, fun framebuffer => ?_⟩
  obtain ⟨hpixels, houtside⟩ := hshows framebuffer
  exact ⟨hpixels 8 (by decide) 15 (by decide), hpixels 8 (by decide) 16 (by decide),
    hpixels 0 (by decide) 17 (by decide), houtside _ (by decide)⟩

end Flurry.Log
