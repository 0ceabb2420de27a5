import Flurry.Core.ByteMemory

/-!
# The console

`tty.c` draws characters into the framebuffer, in cells of 9 by 17 pixels.  Pixel
positions and indices are 32-bit numbers.  The cursor is kept inside the screen by
tests that compare cells with pixels in two of four cases.
-/

namespace Flurry.Log

open ByteMemory

/-- The static variables, without the address of the framebuffer. -/
structure Tty where
  charWidth : ℕ
  charHeight : ℕ
  fbWidth : ℕ
  fbHeight : ℕ
  row : ℕ
  column : ℕ
  deriving DecidableEq, Repr

def ttyInit (width height : ℕ) : Tty where
  charWidth := width / 9
  charHeight := height / 17
  fbWidth := width
  fbHeight := height
  row := 0
  column := 0

/-- The table `font_8x16`. -/
abbrev Font := Fin 224 → Fin 16 → BitVec 8

/-- `framebuffer[index] = colour`. -/
structure PixelWrite where
  index : ℕ
  colour : BitVec 32
  deriving DecidableEq, Repr

/-- What one call of `tty_kputchar_at` draws: the cell, and the writes line by line. -/
structure Glyph where
  column : ℕ
  row : ℕ
  lines : List (List PixelWrite)
  deriving DecidableEq, Repr

/-- The row of the table for a character.  A `char` is signed, and the table ends below
the first row that a negative one would select. -/
def glyphData (font : Font) (c : Byte) : Option (Fin 16 → BitVec 8) :=
  if h : 32 ≤ c.val ∧ c.val < 128 then some (font ⟨c.val - 32, by omega⟩) else none

/-- The inner loop, for `i` from the given number down. -/
def glyphLine (fbWidth y : ℕ) (byte : BitVec 8) : ℕ → ℕ → List PixelWrite
  | 0, _ => []
  | i + 1, x =>
      ⟨(y * fbWidth + x) % 2 ^ 32,
        if (byte.signExtend 32).getLsbD i then 0xffffff else 0x0⟩ ::
          glyphLine fbWidth y byte i ((x + 1) % 2 ^ 32)

/-- The outer loop. -/
def glyphLines (fbWidth x : ℕ) : List (BitVec 8) → ℕ → List (List PixelWrite)
  | [], _ => []
  | byte :: data, y =>
      glyphLine fbWidth y byte 9 x :: glyphLines fbWidth x data ((y + 1) % 2 ^ 32)

def ttyKputcharAt (font : Font) (tty : Tty) (x y : ℕ) (c : Byte) : Option Glyph := do
  let column := if x ≥ tty.fbWidth then 0 else x
  let row := if y ≥ tty.fbHeight then 0 else y
  let x := column * 9 % 2 ^ 32
  let y := row * 17 % 2 ^ 32
  let data ← glyphData font c
  some ⟨column, row, glyphLines tty.fbWidth x (List.ofFn data) y⟩

/-- The character `'\n'`. -/
def newline : Byte := 10

/-- The console after a character, and what was drawn. -/
def ttyKputchar (font : Font) (tty : Tty) (c : Byte) : Option (Tty × List Glyph) := do
  let row := if tty.row ≥ tty.fbHeight then 0 else tty.row
  let column := if tty.column ≥ tty.fbWidth then 0 else tty.column
  if c = newline then
    let row := if row > tty.charHeight then 0 else row
    some ({ tty with row := row + 1, column := 0 }, [])
  else
    let glyph ← ttyKputcharAt font tty column row c
    let column := column + 1
    if column > tty.charWidth then
      some ({ tty with row := row + 1, column := 0 }, [glyph])
    else some ({ tty with row := row, column := column }, [glyph])

def kputchar (font : Font) (tty : Tty) (c : Byte) : Option (Tty × List Glyph) :=
  ttyKputchar font tty c

/-- The characters of a string before its terminator, one after another. -/
def kputs (font : Font) : Tty → List Byte → Option (Tty × List Glyph)
  | tty, [] => some (tty, [])
  | tty, c :: s => do
      let (tty, drawn) ← kputchar font tty c
      let (tty, rest) ← kputs font tty s
      some (tty, drawn ++ rest)

/-! ## Glyphs inside the framebuffer -/

/-- All pixels of the glyph are in the framebuffer, on the 16 scan lines of its row. -/
structure Glyph.Inside (width height : ℕ) (glyph : Glyph) : Prop where
  right : 9 * glyph.column + 8 < width
  index_lt : ∀ line ∈ glyph.lines, ∀ pixel ∈ line, pixel.index < width * height
  scanLine : ∀ number line, glyph.lines[number]? = some line →
    ∀ pixel ∈ line, pixel.index / width = 17 * glyph.row + number

/-- The cell has room for a glyph, and its indices do not wrap. -/
structure CellFits (width height column row : ℕ) : Prop where
  column_lt : column < width / 9
  row_le : 17 * row + 16 ≤ height
  index_lt : (17 * row + 15) * width + (9 * column + 8) < 2 ^ 32

section Glyphs

variable {width height column row : ℕ}

theorem map_index_glyphLine {byte : BitVec 8} {count x y x' y' : ℕ}
    (hx : x ≡ x' [MOD 2 ^ 32]) (hy : y ≡ y' [MOD 2 ^ 32]) :
    (glyphLine width y byte count x).map PixelWrite.index =
      (List.range count).map fun pixel => (y' * width + (x' + pixel)) % 2 ^ 32 := by
  induction count generalizing x x' with
  | zero => rfl
  | succ count ih =>
      have hnext : (x + 1) % 2 ^ 32 ≡ x' + 1 [MOD 2 ^ 32] :=
        (Nat.mod_modEq _ _).trans (hx.add_right 1)
      have hfirst : (y * width + x) % 2 ^ 32 = (y' * width + (x' + 0)) % 2 ^ 32 :=
        (hy.mul_right width).add hx
      rw [glyphLine, List.map_cons, List.range_succ_eq_map, List.map_cons, List.map_map,
        ih hnext, hfirst]
      congr 1
      apply List.map_congr_left
      intro pixel _
      rw [Function.comp_apply, Nat.succ_eq_add_one, Nat.add_assoc x' 1 pixel,
        Nat.add_comm 1 pixel]

theorem getElem?_glyphLines {x y number : ℕ} {data : List (BitVec 8)} (hy : y < 2 ^ 32) :
    (glyphLines width x data y)[number]? =
      data[number]?.map fun byte => glyphLine width ((y + number) % 2 ^ 32) byte 9 x := by
  induction data generalizing y number with
  | nil => rfl
  | cons byte data ih =>
      cases number with
      | zero =>
          rw [glyphLines, List.getElem?_cons_zero, List.getElem?_cons_zero, Option.map_some,
            Nat.add_zero, Nat.mod_eq_of_lt hy]
      | succ number =>
          have hnext : (y + 1) % 2 ^ 32 < 2 ^ 32 := Nat.mod_lt _ (by omega)
          have hsum : ((y + 1) % 2 ^ 32 + number) % 2 ^ 32 = (y + (number + 1)) % 2 ^ 32 := by
            omega
          rw [glyphLines, List.getElem?_cons_succ, List.getElem?_cons_succ, ih hnext, hsum]

/-- The glyph that is drawn into a cell. -/
def cellGlyph (width column row : ℕ) (data : Fin 16 → BitVec 8) : Glyph :=
  ⟨column, row,
    glyphLines width (column * 9 % 2 ^ 32) (List.ofFn data) (row * 17 % 2 ^ 32)⟩

/-- The index of a pixel, by its scan line and its position there. -/
def pixelIndex (width column row number pixel : ℕ) : ℕ :=
  ((17 * row + number) * width + (9 * column + pixel)) % 2 ^ 32

theorem cellGlyph_line {data : Fin 16 → BitVec 8} {number : ℕ} {line : List PixelWrite}
    (hline : (cellGlyph width column row data).lines[number]? = some line) :
    number < 16 ∧
      line.map PixelWrite.index = (List.range 9).map (pixelIndex width column row number) := by
  have hy : row * 17 % 2 ^ 32 < 2 ^ 32 := Nat.mod_lt _ (by omega)
  rw [cellGlyph, getElem?_glyphLines hy] at hline
  obtain ⟨byte, hbyte, rfl⟩ := Option.map_eq_some_iff.mp hline
  have hnumber : number < (List.ofFn data).length := (List.getElem?_eq_some_iff.mp hbyte).1
  rw [List.length_ofFn] at hnumber
  refine ⟨hnumber, map_index_glyphLine ?_ ?_⟩
  · rw [Nat.mul_comm]
    exact Nat.mod_modEq _ _
  · rw [Nat.mul_comm row 17]
    exact (Nat.mod_modEq _ _).trans ((Nat.mod_modEq _ _).add_right number)

theorem exists_cellGlyph_line (data : Fin 16 → BitVec 8) {number : ℕ} (hnumber : number < 16) :
    ∃ line, (cellGlyph width column row data).lines[number]? = some line := by
  have hy : row * 17 % 2 ^ 32 < 2 ^ 32 := Nat.mod_lt _ (by omega)
  have hbyte : (List.ofFn data)[number]? = some (data ⟨number, hnumber⟩) := by
    rw [List.getElem?_ofFn, dif_pos hnumber]
  rw [cellGlyph, getElem?_glyphLines hy, hbyte]
  exact ⟨_, rfl⟩

/-- The pixels of a line are the nine that belong to it. -/
theorem forall_pixel_iff {data : Fin 16 → BitVec 8} {number : ℕ} {line : List PixelWrite}
    (holds : ℕ → Prop) (hline : (cellGlyph width column row data).lines[number]? = some line) :
    (∀ pixel ∈ line, holds pixel.index) ↔
      ∀ pixel < 9, holds (pixelIndex width column row number pixel) := by
  have hmap := (cellGlyph_line hline).2
  constructor
  · intro hall pixel hpixel
    have hmem : pixelIndex width column row number pixel ∈ line.map PixelWrite.index := by
      rw [hmap]
      exact List.mem_map_of_mem (List.mem_range.mpr hpixel)
    obtain ⟨write, hwrite, hindex⟩ := List.mem_map.mp hmem
    rw [← hindex]
    exact hall write hwrite
  · intro hall write hwrite
    have hmem : write.index ∈ line.map PixelWrite.index := List.mem_map_of_mem hwrite
    rw [hmap] at hmem
    obtain ⟨pixel, hpixel, hindex⟩ := List.mem_map.mp hmem
    rw [← hindex]
    exact hall pixel (List.mem_range.mp hpixel)

theorem column_lt_iff : column < width / 9 ↔ 9 * column + 8 < width := by omega

/-- A pixel of a cell that fits is where it should be. -/
theorem CellFits.pixelIndex_eq (hfits : CellFits width height column row) {number pixel : ℕ}
    (hnumber : number < 16) (hpixel : pixel < 9) :
    pixelIndex width column row number pixel =
      (17 * row + number) * width + (9 * column + pixel) := by
  have hline : (17 * row + number) * width ≤ (17 * row + 15) * width :=
    Nat.mul_le_mul_right width (by omega)
  have hlast := hfits.index_lt
  exact Nat.mod_eq_of_lt (by omega)

theorem inside_cellGlyph (hfits : CellFits width height column row)
    (data : Fin 16 → BitVec 8) :
    (cellGlyph width column row data).Inside width height := by
  have hright : 9 * column + 8 < width := column_lt_iff.mp hfits.column_lt
  have hpixel : ∀ number line,
      (cellGlyph width column row data).lines[number]? = some line →
        ∀ write ∈ line, write.index / width = 17 * row + number ∧ number < 16 := by
    intro number line hline
    have hnumber := (cellGlyph_line hline).1
    apply (forall_pixel_iff (fun index => index / width = 17 * row + number ∧ number < 16)
      hline).mpr
    intro pixel hlt
    rw [hfits.pixelIndex_eq hnumber hlt]
    refine ⟨?_, hnumber⟩
    rw [Nat.mul_comm, Nat.mul_add_div (by omega), Nat.div_eq_of_lt (by omega), Nat.add_zero]
  refine ⟨hright, ?_, fun number line hline write hwrite =>
    (hpixel number line hline write hwrite).1⟩
  intro line hline write hwrite
  obtain ⟨number, hnumber⟩ := List.mem_iff_getElem?.mp hline
  obtain ⟨hscan, hlt⟩ := hpixel number line hnumber write hwrite
  have hrow := hfits.row_le
  rw [Nat.mul_comm, ← Nat.div_lt_iff_lt_mul (by omega), hscan]
  omega

/-- The last pixel of a glyph inside the framebuffer shows that its cell fits. -/
theorem cellFits_of_inside {data : Fin 16 → BitVec 8}
    (hinside : (cellGlyph width column row data).Inside width height) :
    CellFits width height column row := by
  have hright : 9 * column + 8 < width := hinside.right
  obtain ⟨line, hline⟩ := @exists_cellGlyph_line width column row data 15 (by omega)
  have hindex := (forall_pixel_iff (· < width * height) hline).mp
    (hinside.index_lt line (List.mem_of_getElem? hline)) 8 (by omega)
  have hscan := (forall_pixel_iff (· / width = 17 * row + 15) hline).mp
    (hinside.scanLine 15 line hline) 8 (by omega)
  have hrow : 17 * row + 15 < height := by
    rw [← hscan, Nat.div_lt_iff_lt_mul (by omega), Nat.mul_comm]
    exact hindex
  have hlower : (17 * row + 15) * width ≤ pixelIndex width column row 15 8 := by
    rw [← hscan]
    exact Nat.div_mul_le_self _ _
  refine ⟨column_lt_iff.mpr hright, hrow, ?_⟩
  -- an index that wrapped would be below its scan line
  have hwidth : width ≤ (17 * row + 15) * width := Nat.le_mul_of_pos_left width (by omega)
  unfold pixelIndex at hlower
  omega

end Glyphs

/-! ## Texts -/

def Printable (c : Byte) : Prop := 32 ≤ c.val ∧ c.val < 127

instance (c : Byte) : Decidable (Printable c) := inferInstanceAs (Decidable (_ ∧ _))

/-- The characters of a text that are drawn, by column and line, from a position on. -/
def cells (line column : ℕ) : List Byte → List (ℕ × ℕ)
  | [] => []
  | c :: text =>
      if c = newline then cells (line + 1) 0 text
      else (column, line) :: cells line (column + 1) text

/-- The row of the screen for a line of the text.  From the row below the last one
that has room the cursor goes to row 1. -/
def lineRow (charHeight line : ℕ) : ℕ :=
  if line = 0 then 0 else (line - 1) % (charHeight + 1) + 1

/-- The text can be printed, and everything that is drawn is inside. -/
def StaysInside (font : Font) (width height : ℕ) (tty : Tty) (text : List Byte) : Prop :=
  ∃ after glyphs, kputs font tty text = some (after, glyphs) ∧
    ∀ glyph ∈ glyphs, glyph.Inside width height

section Texts

variable {font : Font} {width height line column : ℕ} {c : Byte} {text : List Byte}

theorem staysInside_cons {tty next : Tty} {drawn : List Glyph}
    (hput : kputchar font tty c = some (next, drawn)) :
    StaysInside font width height tty (c :: text) ↔
      (∀ glyph ∈ drawn, glyph.Inside width height) ∧
        StaysInside font width height next text := by
  constructor
  · rintro ⟨after, glyphs, hrun, hinside⟩
    simp only [kputs, hput, Option.bind_eq_bind, Option.bind_some] at hrun
    obtain ⟨⟨after', rest⟩, hrest, heq⟩ := Option.bind_eq_some_iff.mp hrun
    obtain ⟨rfl, rfl⟩ := Prod.mk.inj (Option.some.inj heq)
    exact ⟨fun glyph hglyph => hinside glyph (List.mem_append_left rest hglyph), after', rest,
      hrest, fun glyph hglyph => hinside glyph (List.mem_append_right drawn hglyph)⟩
  · rintro ⟨hdrawn, after, rest, hrest, hinside⟩
    refine ⟨after, drawn ++ rest, ?_, ?_⟩
    · simp only [kputs, hput, Option.bind_eq_bind, Option.bind_some, hrest]
    · intro glyph hglyph
      exact (List.mem_append.mp hglyph).elim (hdrawn glyph) (hinside glyph)

/-- The console with the cursor at a position of the text. -/
def ttyAt (width height line column : ℕ) : Tty :=
  { ttyInit width height with row := lineRow (height / 17) line, column := column }

theorem lineRow_le (charHeight line : ℕ) : lineRow charHeight line ≤ charHeight + 1 := by
  have hmod : (line - 1) % (charHeight + 1) < charHeight + 1 :=
    Nat.mod_lt (line - 1) (Nat.succ_pos charHeight)
  unfold lineRow
  split <;> omega

/-- A newline goes to the row of the next line. -/
theorem lineRow_succ {charHeight : ℕ} (hheight : 0 < charHeight) (line : ℕ) :
    lineRow charHeight (line + 1) =
      (if lineRow charHeight line > charHeight then 0 else lineRow charHeight line) + 1 := by
  cases line with
  | zero => simp [lineRow]
  | succ line =>
      have hmod : line % (charHeight + 1) < charHeight + 1 :=
        Nat.mod_lt line (Nat.succ_pos charHeight)
      have hone : 1 % (charHeight + 1) = 1 := Nat.mod_eq_of_lt (by omega)
      simp only [lineRow, Nat.succ_ne_zero, if_false, Nat.add_sub_cancel]
      rw [Nat.add_mod_eq_ite, hone]
      split_ifs <;> omega

/-- The tests that compare the cursor with the size in pixels do nothing. -/
theorem lineRow_lt_height (hheight : 17 ≤ height) : lineRow (height / 17) line < height := by
  have hrow := lineRow_le (height / 17) line
  omega

theorem kputchar_newline (hheight : 17 ≤ height) :
    kputchar font (ttyAt width height line column) newline =
      some (ttyAt width height (line + 1) 0, []) := by
  have hrow := @lineRow_lt_height height line hheight
  have hnext := @lineRow_succ (height / 17) (by omega) line
  simp only [kputchar, ttyKputchar, ttyAt, ttyInit, ge_iff_le, if_neg (Nat.not_le.mpr hrow),
    if_true, hnext]

theorem ttyKputcharAt_eq {tty : Tty} {x y : ℕ} (hx : x < tty.fbWidth) (hy : y < tty.fbHeight)
    (hprintable : Printable c) :
    ∃ data, glyphData font c = some data ∧
      ttyKputcharAt font tty x y c = some (cellGlyph tty.fbWidth x y data) := by
  have hdata : 32 ≤ c.val ∧ c.val < 128 := by
    unfold Printable at hprintable
    omega
  refine ⟨font ⟨c.val - 32, by omega⟩, dif_pos hdata, ?_⟩
  simp only [ttyKputcharAt, glyphData, dif_pos hdata, if_neg (Nat.not_le.mpr hx),
    if_neg (Nat.not_le.mpr hy), ge_iff_le, Option.bind_eq_bind, Option.bind_some, cellGlyph]

/-- A character is drawn at the cursor, which then moves on by one or, right of the last
cell that has room, to the next row. -/
theorem kputchar_printable (hwidth : 9 ≤ width) (hheight : 17 ≤ height)
    (hcolumn : column ≤ width / 9) (hprintable : Printable c) :
    ∃ data next, glyphData font c = some data ∧
      kputchar font (ttyAt width height line column) c =
        some (next, [cellGlyph width column (lineRow (height / 17) line) data]) ∧
        (column < width / 9 → next = ttyAt width height line (column + 1)) := by
  have hrow := @lineRow_lt_height height line hheight
  have hx : column < width := by omega
  have hc : c ≠ newline := by
    rintro rfl
    exact absurd hprintable (by decide)
  obtain ⟨data, hdata, hdraw⟩ := @ttyKputcharAt_eq font c (ttyAt width height line column) column
    (lineRow (height / 17) line) hx hrow hprintable
  simp only [kputchar, ttyKputchar, if_neg hc]
  simp only [ttyAt, ttyInit, ge_iff_le, if_neg (Nat.not_le.mpr hx),
    if_neg (Nat.not_le.mpr hrow)] at hdraw ⊢
  simp only [hdraw, Option.bind_eq_bind, Option.bind_some]
  by_cases hlast : column + 1 > width / 9
  · exact ⟨data, _, hdata, if_pos hlast, fun hlt => absurd hlt (by omega)⟩
  · exact ⟨data, _, hdata, if_neg hlast, fun _ => rfl⟩

/-- Printing from a position stays inside exactly when the cells drawn from there on fit. -/
theorem staysInside_ttyAt_iff (hwidth : 9 ≤ width) (hheight : 17 ≤ height)
    (hcolumn : column ≤ width / 9) (htext : ∀ c ∈ text, c = newline ∨ Printable c) :
    StaysInside font width height (ttyAt width height line column) text ↔
      ∀ cell ∈ cells line column text,
        CellFits width height cell.1 (lineRow (height / 17) cell.2) := by
  induction text generalizing line column with
  | nil => exact ⟨fun _ cell hcell => absurd hcell List.not_mem_nil,
      fun _ => ⟨_, [], rfl, fun glyph hglyph => absurd hglyph List.not_mem_nil⟩⟩
  | cons c text ih =>
      have hrest : ∀ c ∈ text, c = newline ∨ Printable c :=
        fun c hc => htext c (List.mem_cons_of_mem _ hc)
      rcases htext c List.mem_cons_self with rfl | hprintable
      · rw [staysInside_cons (kputchar_newline hheight), ih (Nat.zero_le _) hrest, cells,
          if_pos rfl]
        simp
      · have hc : c ≠ newline := by
          rintro rfl
          exact absurd hprintable (by decide)
        obtain ⟨data, next, -, hput, hnext⟩ := @kputchar_printable font width height line column c
          hwidth hheight hcolumn hprintable
        rw [staysInside_cons hput, cells, if_neg hc, List.forall_mem_singleton,
          List.forall_mem_cons]
        constructor
        · rintro ⟨hglyph, hafter⟩
          have hfits := cellFits_of_inside hglyph
          rw [hnext hfits.column_lt] at hafter
          exact ⟨hfits, (ih hfits.column_lt hrest).mp hafter⟩
        · rintro ⟨hfits, hafter⟩
          rw [hnext hfits.column_lt]
          exact ⟨inside_cellGlyph hfits data, (ih hfits.column_lt hrest).mpr hafter⟩

/-- Console output stays in the framebuffer exactly when no line of the text is longer
than the screen is wide and no character comes to a row without 16 scan lines. -/
theorem console_inside_iff (hwidth : 9 ≤ width) (hheight : 17 ≤ height)
    (htext : ∀ c ∈ text, c = newline ∨ Printable c) :
    StaysInside font width height (ttyInit width height) text ↔
      ∀ cell ∈ cells 0 0 text,
        CellFits width height cell.1 (lineRow (height / 17) cell.2) :=
  @staysInside_ttyAt_iff font width height 0 0 text hwidth hheight (Nat.zero_le _) htext

end Texts

/-- A font without any pixel set. -/
def blankFont : Font := fun _ _ => 0#8

theorem console_inside_two_lines :
    StaysInside blankFont 18 34 (ttyInit 18 34) [97, 98, newline, 99] := by
  refine (console_inside_iff (by decide) (by decide) (by decide +kernel)).mpr ?_
  change ∀ cell ∈ [(0, 0), (1, 0), (0, 1)], CellFits 18 34 cell.1 (lineRow 2 cell.2)
  simp only [List.forall_mem_cons]
  exact ⟨⟨by decide, by decide, by decide⟩, ⟨by decide, by decide, by decide⟩,
    ⟨by decide, by decide, by decide⟩, nofun⟩

/-- On a screen of one cell the second line is drawn below the framebuffer, and the
second character of a line is drawn right of it. -/
theorem console_overrun :
    (∃ after glyph, kputs blankFont (ttyInit 9 17) [newline, 97] = some (after, [glyph]) ∧
      ∃ line ∈ glyph.lines, ∃ pixel ∈ line, pixel.index = 9 * 17) ∧
    ∃ after first second,
      kputs blankFont (ttyInit 9 17) [97, 98] = some (after, [first, second]) ∧
        ¬ 9 * second.column + 8 < 9 := by
  constructor
  · exact ⟨_, _, rfl, by decide +kernel⟩
  · exact ⟨_, _, _, rfl, by decide +kernel⟩

end Flurry.Log
