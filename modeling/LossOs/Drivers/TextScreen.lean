/-
  `drivers/console.c`: the screen as cells of text.

  What the console draws is a screen of cells: in each a character or nothing, and perhaps a line
  through the lowest row, which is what a cursor is. `Screen` is that, with its own `putchar`, and
  `Screen.picture` is how it looks. `console_shows`: from `clear_screen` on the picture in video
  memory is that of the cells, in every run of calls and keys.
-/
import LossOs.Drivers.Console
import LossOs.Lib.Tiles

namespace LossOs.Drivers

open LossOs.Lib

/-! ## `vga_clear`, `puts` and `clear_screen` -/

def VGA_PLANE_SIZE : Nat := 38400

def vgaClear (color : UInt8) : Vga → Option Vga :=
  loop (List.finRange 4) fun plane v =>
    let v := out VGA_SEQ_INDEX 0x02 v
    let v := out VGA_SEQ_DATA (UInt8.ofNat (1 <<< plane.val)) v
    if color &&& UInt8.ofNat (1 <<< plane.val) ≠ 0 then
      loop (upTo 0 VGA_PLANE_SIZE) (fun i v => v.store i 0xFF) v
    else loop (upTo 0 VGA_PLANE_SIZE) (fun i v => v.store i 0x00) v

/-- `puts`; `none` is NULL. -/
def puts (string : Option (Nat → Int8)) (count : UInt32) (textColor : UInt8) (s : Console) :
    Option Console :=
  match string with
  | none => some s
  | some string => loopWhile (fun i _ => string i != 0)
      (fun i s => putchar (string i) textColor s) count.toNat 0 s

def clearScreen (s : Console) : Option Console :=
  (vgaClear 0x00 s.vga).bind fun v =>
    updateCursor 0xF { s with vga := v, framebuffer := { row := 1, col := 0 } }

/-- A system call that prints, or a scancode. -/
inductive ConsoleCall where
  | putchar (c : Int8) (textColor : UInt8)
  | puts (string : Option (Nat → Int8)) (count : UInt32) (textColor : UInt8)
  | clearScreen
  | scancode (b : UInt8)

def ConsoleCall.run : ConsoleCall → Console → Option Console
  | .putchar c textColor, s => LossOs.Drivers.putchar c textColor s
  | .puts string count textColor, s => LossOs.Drivers.puts string count textColor s
  | .clearScreen, s => LossOs.Drivers.clearScreen s
  | .scancode b, s => some { s with keyboard := keyboardIsr b s.keyboard }

/-! ## Cells -/

/-- The character of a cell with its colour, and the colour of its lowest row. -/
structure Cell where
  glyph : Option (Int8 × UInt8)
  line : Option UInt8
  deriving DecidableEq

def Cell.blank : Cell := ⟨none, none⟩

/-- The pixel in a column and row of a character. -/
def glyphLook (glyph : Option (Int8 × UInt8)) (i j : ℤ) : Fin 4 → Bool :=
  match glyph with
  | none => lowBits 0
  | some (c, color) => if glyphBit c i.toNat j.toNat then lowBits color else lowBits 0

def Cell.look (t : Cell) (i j : ℤ) : Fin 4 → Bool :=
  match t.line with
  | some color => if j = 7 then lowBits color else glyphLook t.glyph i j
  | none => glyphLook t.glyph i j

/-- The column and row of the cursor. -/
def Framebuffer.place (fb : Framebuffer) : ℤ × ℤ := (fb.col, fb.row)

/-- The cells, by column and row, and the cursor. -/
structure Screen where
  cells : ℤ × ℤ → Cell
  cursor : Framebuffer

namespace Screen

def move (f : Framebuffer → Framebuffer) (s : Screen) : Screen := { s with cursor := f s.cursor }

/-- Change the cell of the cursor. -/
def atCursor (f : Cell → Cell) (s : Screen) : Screen :=
  { s with cells := Function.update s.cells s.cursor.place (f (s.cells s.cursor.place)) }

/-- A character with a glyph takes the cell. -/
def write (c : Int8) (color : UInt8) : Screen → Screen :=
  atCursor fun t => if Printable c then ⟨some (c, color), none⟩ else t

def showCursor (color : UInt8) : Screen → Screen := atCursor fun t => { t with line := some color }

/-- The cell of the cursor loses its lowest row, and the one below all. -/
def clearCursor (s : Screen) : Screen :=
  let s := s.atCursor fun t => { t with line := some 0 }
  { s with cells := Function.update s.cells (s.cursor.col, s.cursor.row + 1) .blank }

def text (c : Int8) (color : UInt8) (s : Screen) : Screen :=
  if c = 0 then s
  else if c = 8 then ((s.clearCursor.move Framebuffer.back).write 32 color).showCursor color
  else if c = 10 then (s.clearCursor.move Framebuffer.newline).showCursor color
  else ((s.write c color).move Framebuffer.advance).showCursor color

def key (key color : UInt8) (s : Screen) : Screen :=
  if key = KEY_LEFT then (s.clearCursor.move Framebuffer.back).showCursor color
  else if key = KEY_RIGHT then (s.clearCursor.move Framebuffer.right).showCursor color
  else s

/-- Nothing but the cursor in the second row. -/
def cleared : Screen := showCursor 0xF ⟨fun _ => .blank, { row := 1, col := 0 }⟩

end Screen

/-- A screen, and the keyboard whose arrow keys move its cursor. -/
structure Display where
  screen : Screen
  keyboard : KeyboardDriverState

namespace Display

def putchar (c : Int8) (color : UInt8) (d : Display) : Display where
  screen := (d.screen.text c color).key d.keyboard.specialKey color
  keyboard := (getSpecialKey d.keyboard).2

/-- The characters of a string, one after the other. -/
def print (color : UInt8) (string : List Int8) (d : Display) : Display :=
  string.foldl (fun d c => d.putchar c color) d

/-- What a call does. -/
def call (d : Display) : ConsoleCall → Display
  | .putchar c textColor => d.putchar c textColor
  | .puts none _ _ => d
  | .puts (some string) count textColor =>
    d.print textColor (((List.range count.toNat).map string).takeWhile (· != 0))
  | .clearScreen => { d with screen := .cleared }
  | .scancode b => { d with keyboard := keyboardIsr b d.keyboard }

end Display

/-! ## Drawing in cells -/

section Cells

variable {v : Vga} {T : ℤ × ℤ → Cell} {cx cy i j : ℤ} {c : Int8} {color : UInt8}

/-- The picture of cells. -/
def cellPicture (T : ℤ × ℤ → Cell) : Picture 4 80 480 := Picture.tiled 8 Cell.look T

theorem Cell.look_glyph (t : Cell) (hj : j ≠ 7) : t.look i j = glyphLook t.glyph i j := by
  unfold Cell.look
  split
  · exact if_neg hj
  · rfl

theorem Cell.look_line (g : Option (Int8 × UInt8)) (color : UInt8) :
    (Cell.mk g (some color)).look i 7 = lowBits color := rfl

theorem vgaDrawCursor_cells (hv : pixels v = cellPicture T) (cx cy : ℤ) (color : UInt8) :
    ∃ v', vgaDrawCursor cx cy color v = some v' ∧
      pixels v' =
        cellPicture (Function.update T (cx, cy) { T (cx, cy) with line := some color }) := by
  obtain ⟨v', hrun, -, hpix⟩ := vgaDrawCursor_refines cx cy color v trivial
  refine ⟨v', hrun, hpix.trans ?_⟩
  rw [hv]
  refine Picture.tiled_paint_update (by decide) (fun q hq => ?_) fun i j hi hi' hj hj' => ⟨?_, ?_⟩
  · obtain ⟨h1, h2, h3, h4⟩ := hq
    refine ⟨?_, ?_, ?_, ?_⟩ <;> dsimp only <;> omega
  · rintro ⟨-, -, h3, -⟩
    dsimp only at h3
    obtain rfl : j = 7 := by omega
    exact Cell.look_line _ _
  · intro hout
    have hne : j ≠ 7 := by
      rintro rfl
      refine hout ⟨?_, ?_, ?_, ?_⟩ <;> dsimp only <;> omega
    rw [Cell.look_glyph _ hne, Cell.look_glyph _ hne]

/-- The nine rows are the lowest one of a cell and all of the next. -/
theorem vgaClearCursor_cells (hv : pixels v = cellPicture T) (cx cy : ℤ) :
    ∃ v', vgaClearCursor cx cy v = some v' ∧
      pixels v' = cellPicture (Function.update
        (Function.update T (cx, cy) { T (cx, cy) with line := some 0 }) (cx, cy + 1) .blank) := by
  obtain ⟨v', hrun, -, hpix⟩ := vgaClearCursor_refines cx cy v trivial
  refine ⟨v', hrun, hpix.trans ?_⟩
  have hsplit : block (cx * 8) (cy * 8 + 7) 8 9 =
      block (cx * 8) (cy * 8 + 7) 8 1 ∪ block (cx * 8) (cy * 8 + 8) 8 8 := by
    ext ⟨a, b⟩
    constructor
    · rintro ⟨h1, h2, h3, h4⟩
      dsimp only at h1 h2 h3 h4
      by_cases hb : b < cy * 8 + 8
      · left
        refine ⟨?_, ?_, ?_, ?_⟩ <;> dsimp only <;> omega
      · right
        refine ⟨?_, ?_, ?_, ?_⟩ <;> dsimp only <;> omega
    · rintro (⟨h1, h2, h3, h4⟩ | ⟨h1, h2, h3, h4⟩) <;> dsimp only at h1 h2 h3 h4 <;>
        refine ⟨?_, ?_, ?_, ?_⟩ <;> dsimp only <;> omega
  rw [hv, hsplit, ← Picture.paint_paint]
  have hline : (cellPicture T).paint (block (cx * 8) (cy * 8 + 7) 8 1) (lowBits 0) =
      cellPicture (Function.update T (cx, cy) { T (cx, cy) with line := some 0 }) := by
    obtain ⟨v₁, hrun₁, hpix₁⟩ := vgaDrawCursor_cells hv cx cy 0
    obtain ⟨v₂, hrun₂, -, hpix₂⟩ := vgaDrawCursor_refines cx cy 0 v trivial
    obtain rfl := Option.some.inj (hrun₁.symm.trans hrun₂)
    rw [← hv, ← hpix₂, hpix₁]
  rw [hline]
  refine Picture.tiled_paint_update (by decide) (fun q hq => ?_) fun i j hi hi' hj hj' => ⟨?_, ?_⟩
  · obtain ⟨h1, h2, h3, h4⟩ := hq
    refine ⟨?_, ?_, ?_, ?_⟩ <;> dsimp only <;> omega
  · exact fun _ => rfl
  · intro hout
    refine absurd ⟨?_, ?_, ?_, ?_⟩ hout <;> dsimp only <;> omega

theorem vgaDrawChar_cells (hv : pixels v = cellPicture T) (cx cy : ℤ) (c : Int8) (color : UInt8) :
    ∃ v', vgaDrawChar cx cy c color v = some v' ∧
      pixels v' = cellPicture (Function.update T (cx, cy)
        (if Printable c then ⟨some (c, color), none⟩ else T (cx, cy))) := by
  by_cases hc : Printable c
  · obtain ⟨v', hrun, -, hpix⟩ := vgaDrawChar_refines cx cy hc color v trivial
    refine ⟨v', hrun, hpix.trans ?_⟩
    rw [hv, if_pos hc]
    have hclear : (cellPicture T).paint (block (cx * 8) (cy * 8) 8 8) (lowBits 0) =
        cellPicture (Function.update T (cx, cy) .blank) := by
      refine Picture.tiled_paint_update (by decide) (fun q hq => ?_)
        fun i j hi hi' hj hj' => ⟨fun _ => rfl, fun hout => ?_⟩
      · obtain ⟨h1, h2, h3, h4⟩ := hq
        refine ⟨?_, ?_, ?_, ?_⟩ <;> dsimp only <;> omega
      · refine absurd ⟨?_, ?_, ?_, ?_⟩ hout <;> dsimp only <;> omega
    dsimp only
    rw [hclear, ← Function.update_idem Cell.blank ⟨some (c, color), none⟩ T]
    refine Picture.tiled_paint_update (by decide) (fun q hq => ?_)
      fun i j hi hi' hj hj' => ⟨fun hin => ?_, fun hout => ?_⟩
    · obtain ⟨row, hrow, col, hcol, -, h1, h2, h3, h4⟩ := hq
      have := mem_upTo.mp hrow
      have := mem_upTo.mp hcol
      refine ⟨?_, ?_, ?_, ?_⟩ <;> dsimp only <;> omega
    · obtain ⟨row, hrow, col, hcol, hbit, h1, h2, h3, h4⟩ := hin
      dsimp only at h1 h2 h3 h4
      show (if glyphBit c i.toNat j.toNat then _ else _) = _
      rw [show i.toNat = col by omega, show j.toNat = row by omega, if_pos hbit]
    · have hbit : ¬ glyphBit c i.toNat j.toNat = true := fun hbit => hout
        ⟨j.toNat, mem_upTo.mpr (by omega), i.toNat, mem_upTo.mpr (by omega), hbit,
          by dsimp only; omega, by dsimp only; omega, by dsimp only; omega, by dsimp only; omega⟩
      rw [Function.update_self]
      exact if_neg hbit
  · rw [if_neg hc, Function.update_eq_self]
    exact ⟨v, vgaDrawChar_skip cx cy hc color v, hv⟩

end Cells

/-! ## Clearing -/

section Clear

variable {v : Vga} {p : Fin 4} {b : Bool}

/-- Each byte of the plane is stored, one after the other. -/
theorem clearPlane_run (hmask : ∀ q : Fin 4, v.mapMask.toNat.testBit q = decide (q = p))
    (data : UInt8) : ∀ n ≤ 38400, loop (upTo 0 n) (fun i v => v.store i data) v =
      some { v with planes := fun q o => if q = p ∧ o.val < n then data else v.planes q o } := by
  intro n
  induction n with
  | zero =>
    intro _
    have hsame : (fun q o => if q = p ∧ o.val < 0 then data else v.planes q o) = v.planes :=
      funext fun q => funext fun o => if_neg fun h => Nat.not_lt_zero _ h.2
    rw [hsame]
    rfl
  | succ n ih =>
    intro hn
    rw [upTo_succ, loop_concat, ih (Nat.le_of_succ_le hn), Option.bind_some]
    unfold Vga.store
    rw [if_pos (by omega)]
    congr 2
    funext q o
    show (if v.mapMask.toNat.testBit q ∧ (o.val : Int) = n then data else _) = _
    simp only [hmask, decide_eq_true_eq]
    by_cases hq : q = p
    · by_cases ho : o.val = n
      · rw [if_pos ⟨hq, by omega⟩, if_pos ⟨hq, by omega⟩]
      · rw [if_neg fun h => ho (by omega)]
        exact if_congr (and_congr_right fun _ => by omega) rfl rfl
    · rw [if_neg fun h => hq h.1, if_neg fun h => hq h.1, if_neg fun h => hq h.1]

/-- A plane of ones, or of zeros. -/
theorem picture_plane (hv : ∀ o, v.planes p o = if b then 0xFF else 0x00) {w : Vga}
    (hw : ∀ q ≠ p, v.planes q = w.planes q) : pixels v = (pixels w).plot p Set.univ b := by
  have hones : ∀ k < 8, leftBit 0xFF k = true := by decide
  have hzeros : ∀ k < 8, leftBit 0 k = false := by decide
  funext x y q
  have hk : x.val % 8 < 8 := Nat.mod_lt _ (by decide)
  unfold pixels Planes.picture Picture.plot
  by_cases hq : q = p
  · subst hq
    rw [if_pos ⟨rfl, trivial⟩, hv]
    cases b
    · exact hzeros _ hk
    · exact hones _ hk
  · rw [if_neg fun h => hq h.1, hw q hq]

theorem vgaClear_refines (color : UInt8) : Refines pixels (fun _ => True) (vgaClear color)
    (Picture.paint Set.univ (lowBits color)) := by
  have hloop : Refines pixels (fun _ => True) (vgaClear color) fun P =>
      (List.finRange 4).foldl (fun P p => P.plot p Set.univ (lowBits color p)) P := by
    refine Refines.loop fun p _ v _ => ?_
    let w := out VGA_SEQ_DATA (UInt8.ofNat (1 <<< p.val)) (out VGA_SEQ_INDEX 0x02 v)
    have hmask : ∀ q : Fin 4, w.mapMask.toNat.testBit q = decide (q = p) :=
      (selected_selectPlane p v).mapMask
    have hbody : ∀ (b : Bool) (data : UInt8), data = (if b then 0xFF else 0x00) → ∃ v',
        loop (upTo 0 VGA_PLANE_SIZE) (fun i v => v.store i data) w = some v' ∧ True ∧
          pixels v' = (pixels v).plot p Set.univ b := fun b data hdata => by
      refine ⟨_, clearPlane_run hmask data 38400 (Nat.le_refl _), trivial, ?_⟩
      refine (picture_plane (w := w) (fun o => ?_) fun q hq => funext fun o => ?_).trans rfl
      · rw [← hdata]
        exact if_pos ⟨rfl, o.isLt⟩
      · exact if_neg fun h => hq h.1
    by_cases hbit : lowBits color p = true
    · obtain ⟨v', hrun, -, hpix⟩ := hbody true 0xFF rfl
      refine ⟨v', (if_pos (lowBits_iff.mpr hbit)).trans hrun, trivial, ?_⟩
      rw [hbit, hpix]
    · obtain ⟨v', hrun, -, hpix⟩ := hbody false 0x00 rfl
      refine ⟨v', (if_neg fun h => hbit (lowBits_iff.mp h)).trans hrun, trivial, ?_⟩
      rw [Bool.eq_false_iff.mpr hbit, hpix]
  intro v hv
  obtain ⟨v', hv', -, hpix⟩ := hloop v hv
  exact ⟨v', hv', trivial, hpix.trans (Picture.foldl_plot _ (lowBits color))⟩

end Clear

/-! ## The console -/

/-- The picture is that of the cells, and the cursor is theirs. -/
structure Draws (k : Console) (s : Screen) : Prop where
  picture : pixels k.vga = cellPicture s.cells
  cursor : k.framebuffer = s.cursor

/-- The console shows the screen, with the keyboard, and its cursor is on it. -/
structure Shows (k : Console) (d : Display) : Prop where
  draws : Draws k d.screen
  keyboard : k.keyboard = d.keyboard
  inRange : k.framebuffer.InRange

section Console

variable {k : Console} {s : Screen} {d : Display} {c : Int8} {color : UInt8}

theorem Draws.move (h : Draws k s) (f : Framebuffer → Framebuffer) :
    Draws (k.move f) (s.move f) := ⟨h.picture, congrArg f h.cursor⟩

theorem Draws.showCursor (h : Draws k s) (color : UInt8) :
    ∃ v, updateCursor color k = some { k with vga := v } ∧
      Draws { k with vga := v } (s.showCursor color) := by
  obtain ⟨v, hrun, hpix⟩ := vgaDrawCursor_cells h.picture k.framebuffer.col k.framebuffer.row color
  refine ⟨v, draw_eq hrun, ?_, h.cursor⟩
  rw [h.cursor] at hpix
  exact hpix

theorem Draws.clearCursor (h : Draws k s) :
    ∃ v, k.draw vgaClearCursor = some { k with vga := v } ∧
      Draws { k with vga := v } s.clearCursor := by
  obtain ⟨v, hrun, hpix⟩ := vgaClearCursor_cells h.picture k.framebuffer.col k.framebuffer.row
  refine ⟨v, draw_eq hrun, ?_, h.cursor⟩
  rw [h.cursor] at hpix
  exact hpix

theorem Draws.write (h : Draws k s) (c : Int8) (color : UInt8) :
    ∃ v, k.draw (fun x y => vgaDrawChar x y c color) = some { k with vga := v } ∧
      Draws { k with vga := v } (s.write c color) := by
  obtain ⟨v, hrun, hpix⟩ :=
    vgaDrawChar_cells h.picture k.framebuffer.col k.framebuffer.row c color
  refine ⟨v, draw_eq hrun, ?_, h.cursor⟩
  rw [h.cursor] at hpix
  exact hpix

/-- The cursor is cleared, moved and shown. -/
theorem Draws.moveCursor (h : Draws k s) (f : Framebuffer → Framebuffer) (color : UInt8) :
    ∃ v, ((k.draw vgaClearCursor).bind fun k => updateCursor color (k.move f)) =
        some { k.move f with vga := v } ∧
      Draws { k.move f with vga := v } ((s.clearCursor.move f).showCursor color) := by
  obtain ⟨v₁, h₁, hd₁⟩ := h.clearCursor
  obtain ⟨v₂, h₂, hd₂⟩ := (hd₁.move f).showCursor color
  exact ⟨v₂, by rw [h₁]; exact h₂, hd₂⟩

theorem Draws.text (h : Draws k s) (c : Int8) (color : UInt8) :
    ∃ v, putcharText c color k = some ⟨v, k.framebuffer.afterChar c, k.keyboard⟩ ∧
      Draws ⟨v, k.framebuffer.afterChar c, k.keyboard⟩ (s.text c color) := by
  unfold putcharText Screen.text Framebuffer.afterChar
  by_cases h0 : c = 0
  · rw [if_pos h0, if_pos h0, if_pos h0]
    exact ⟨k.vga, rfl, h⟩
  rw [if_neg h0, if_neg h0, if_neg h0]
  by_cases h8 : c = 8
  · rw [if_pos h8, if_pos h8, if_pos h8]
    obtain ⟨v₁, h₁, hd₁⟩ := h.clearCursor
    obtain ⟨v₂, h₂, hd₂⟩ := (hd₁.move Framebuffer.back).write 32 color
    obtain ⟨v₃, h₃, hd₃⟩ := hd₂.showCursor color
    refine ⟨v₃, ?_, hd₃⟩
    rw [h₁]
    show (Console.draw _ _).bind _ = _
    rw [h₂]
    exact h₃
  rw [if_neg h8, if_neg h8, if_neg h8]
  by_cases h10 : c = 10
  · rw [if_pos h10, if_pos h10, if_pos h10]
    exact h.moveCursor Framebuffer.newline color
  · rw [if_neg h10, if_neg h10, if_neg h10]
    obtain ⟨v₁, h₁, hd₁⟩ := h.write c color
    obtain ⟨v₂, h₂, hd₂⟩ := (hd₁.move Framebuffer.advance).showCursor color
    exact ⟨v₂, by rw [h₁]; exact h₂, hd₂⟩

theorem Draws.key (h : Draws k s) (color : UInt8) :
    ∃ v, putcharKey color k = some ⟨v, k.framebuffer.afterKey k.keyboard.specialKey,
        (getSpecialKey k.keyboard).2⟩ ∧
      Draws ⟨v, k.framebuffer.afterKey k.keyboard.specialKey, (getSpecialKey k.keyboard).2⟩
        (s.key k.keyboard.specialKey color) := by
  have hkey : (getSpecialKey k.keyboard).1 = k.keyboard.specialKey := rfl
  have h' : Draws { k with keyboard := (getSpecialKey k.keyboard).2 } s := ⟨h.picture, h.cursor⟩
  unfold putcharKey Screen.key Framebuffer.afterKey
  dsimp only
  rw [hkey]
  by_cases hl : k.keyboard.specialKey = KEY_LEFT
  · rw [if_pos hl, if_pos hl, if_pos hl]
    exact h'.moveCursor Framebuffer.back color
  rw [if_neg hl, if_neg hl, if_neg hl]
  by_cases hr : k.keyboard.specialKey = KEY_RIGHT
  · rw [if_pos hr, if_pos hr, if_pos hr]
    exact h'.moveCursor Framebuffer.right color
  · rw [if_neg hr, if_neg hr, if_neg hr]
    exact ⟨k.vga, rfl, h'⟩

theorem Shows.putchar (h : Shows k d) (c : Int8) (color : UInt8) :
    ∃ k', LossOs.Drivers.putchar c color k = some k' ∧ Shows k' (d.putchar c color) := by
  obtain ⟨v₁, h₁, hd₁⟩ := h.draws.text c color
  obtain ⟨v₂, h₂, hd₂⟩ := hd₁.key color
  refine ⟨⟨v₂, (k.framebuffer.afterChar c).afterKey k.keyboard.specialKey,
    (getSpecialKey k.keyboard).2⟩, ?_, ?_, ?_, (h.inRange.afterChar c).afterKey _⟩
  · unfold LossOs.Drivers.putchar
    rw [h₁]
    exact h₂
  · rw [h.keyboard] at hd₂ ⊢
    exact hd₂
  · exact congrArg (fun kb => (getSpecialKey kb).2) h.keyboard

/-- `puts` prints up to a NUL, or the count. -/
theorem Shows.print (string : Nat → Int8) (color : UInt8) (n i : Nat) (h : Shows k d) :
    ∃ k', loopWhile (fun i _ => string i != 0)
        (fun i k => LossOs.Drivers.putchar (string i) color k) n i k = some k' ∧
      Shows k' (d.print color (((List.range' i n).map string).takeWhile (· != 0))) := by
  induction n generalizing i k d with
  | zero => exact ⟨k, rfl, h⟩
  | succ n ih =>
    rw [List.range'_succ, List.map_cons]
    cases hc : string i != 0 with
    | false =>
      rw [List.takeWhile_cons_of_neg (by rw [hc]; exact Bool.false_ne_true)]
      exact ⟨k, loopWhile_stop hc, h⟩
    | true =>
      have htake := List.takeWhile_cons_of_pos (p := (· != 0))
        (l := (List.range' (i + 1) n).map string) hc
      rw [htake]
      obtain ⟨k₁, hrun, hk₁⟩ := h.putchar (string i) color
      obtain ⟨k', hrest, hk'⟩ := ih (i + 1) hk₁
      refine ⟨k', ?_, hk'⟩
      rw [loopWhile_next hc, hrun]
      exact hrest

theorem clearScreen_shows (k : Console) (hk : k.keyboard = d.keyboard) :
    ∃ k', clearScreen k = some k' ∧ Shows k' { d with screen := .cleared } := by
  obtain ⟨v, hrun, -, hpix⟩ := vgaClear_refines 0x00 k.vga trivial
  have hd : Draws { k with vga := v, framebuffer := { row := 1, col := 0 } }
      ⟨fun _ => .blank, { row := 1, col := 0 }⟩ := by
    refine ⟨hpix.trans ?_, rfl⟩
    funext x y
    exact Picture.paint_mem (Set.mem_univ _)
  obtain ⟨v', hrun', hd'⟩ := hd.showCursor 0xF
  have hrange : Framebuffer.InRange { row := 1, col := 0 } := ⟨by decide, by decide⟩
  refine ⟨_, ?_, hd', hk, hrange⟩
  unfold clearScreen
  rw [hrun]
  exact hrun'

theorem Shows.call (h : Shows k d) (e : ConsoleCall) :
    ∃ k', e.run k = some k' ∧ Shows k' (d.call e) := by
  cases e with
  | putchar c textColor => exact h.putchar c textColor
  | puts string count textColor =>
    cases string with
    | none => exact ⟨k, rfl, h⟩
    | some string =>
      obtain ⟨k', hrun, hk'⟩ := Shows.print string textColor count.toNat 0 h
      refine ⟨k', hrun, ?_⟩
      rw [← List.range_eq_range'] at hk'
      exact hk'
  | clearScreen => exact clearScreen_shows k h.keyboard
  | scancode b => exact ⟨_, rfl, ⟨h.draws.picture, h.draws.cursor⟩,
      congrArg (keyboardIsr b) h.keyboard, h.inRange⟩

/-- A run of calls. -/
theorem Shows.calls (h : Shows k d) (es : List ConsoleCall) :
    ∃ k', loop es ConsoleCall.run k = some k' ∧ Shows k' (es.foldl Display.call d) := by
  induction es generalizing k d with
  | nil => exact ⟨k, rfl, h⟩
  | cons e es ih =>
    obtain ⟨k₁, hrun, hk₁⟩ := h.call e
    obtain ⟨k', hrest, hk'⟩ := ih hk₁
    exact ⟨k', by rw [loop_cons, hrun]; exact hrest, hk'⟩

end Console

/-- From `clear_screen` on, whatever stood in video memory and in its registers: after every run of
    calls and keys the picture is that of the cells, no access goes behind the planes, and the
    cursor is on the screen. -/
theorem console_shows (k : Console) (es : List ConsoleCall) :
    let d := es.foldl Display.call ⟨.cleared, k.keyboard⟩
    ∃ k', loop (.clearScreen :: es) ConsoleCall.run k = some k' ∧
      pixels k'.vga = cellPicture d.screen.cells ∧ k'.framebuffer = d.screen.cursor ∧
      k'.framebuffer.InRange ∧ k'.keyboard = d.keyboard := by
  intro d
  obtain ⟨k₁, hrun, hk₁⟩ := clearScreen_shows (d := ⟨.cleared, k.keyboard⟩) k rfl
  obtain ⟨k', hrest, hk'⟩ := hk₁.calls es
  exact ⟨k', by rw [loop_cons]; show (clearScreen k).bind _ = _; rw [hrun]; exact hrest,
    hk'.draws.picture, hk'.draws.cursor, hk'.inRange, hk'.keyboard⟩

end LossOs.Drivers
