/-
  What the console is for: text on a sheet.

  A sheet has 4800 places, row by row, and a place where it goes on. A character takes that place, a
  newline goes to the start of the next row, and a backspace frees the place before. As long as a
  text stays on the sheet, and no arrow key is pressed, this is all that the cells of the screen
  show (`Written.put`). `printed_text_appears`: what is printed is what is seen.
-/
import LossOs.Drivers.TextScreen
import Mathlib.Data.List.TakeWhile

namespace LossOs.Drivers

open LossOs.Lib

/-! ## Sheets -/

/-- The characters by their places, and the next place. -/
structure Sheet where
  glyphs : ℕ → Option (Int8 × UInt8)
  next : ℕ

namespace Sheet

/-- An empty sheet, from its second row on. -/
def empty : Sheet := ⟨fun _ => none, 80⟩

def put (t : Sheet) (c : Int8) (color : UInt8) : Sheet :=
  if c = 8 then ⟨Function.update t.glyphs (t.next - 1) none, t.next - 1⟩
  else if c = 10 then { t with next := 80 * (t.next / 80 + 1) }
  else ⟨Function.update t.glyphs t.next (some (c, color)), t.next + 1⟩

def print (t : Sheet) (text : List (Int8 × UInt8)) : Sheet :=
  text.foldl (fun t q => t.put q.1 q.2) t

/-- A character that can be put there. -/
def Takes (t : Sheet) (c : Int8) : Prop :=
  if c = 8 then 0 < t.next else if c = 10 then t.next / 80 < 59 else Printable c ∧ t.next + 1 < 4800

/-- A text that stays on the sheet. -/
def Fits : Sheet → List (Int8 × UInt8) → Prop
  | _, [] => True
  | t, q :: text => t.Takes q.1 ∧ (t.put q.1 q.2).Fits text

/-- The picture, with a cursor of the colour at the next place. -/
def picture (t : Sheet) (color : UInt8) : Picture 4 80 480 := fun x y =>
  if 80 * (y.val / 8) + x.val / 8 = t.next ∧ y.val % 8 = 7 then lowBits color
  else glyphLook (t.glyphs (80 * (y.val / 8) + x.val / 8)) (x.val % 8 : ℕ) (y.val % 8 : ℕ)

/-- The column and row of a place. -/
def cell (n : ℕ) : ℤ × ℤ := ((n % 80 : ℕ), (n / 80 : ℕ))

end Sheet

/-- Cells that look like the sheet, with a cursor of the colour; nothing stands at or behind it. -/
structure Written (s : Screen) (t : Sheet) (color : UInt8) : Prop where
  cursor : s.cursor.place = Sheet.cell t.next
  next : t.next < 4800
  look : ∀ n < 4800, ∀ i j, (s.cells (Sheet.cell n)).look i j =
    (Cell.mk (t.glyphs n) (if n = t.next then some color else none)).look i j
  ahead : ∀ n, t.next ≤ n → t.glyphs n = none

section Written

variable {s : Screen} {t : Sheet} {c : Int8} {color color' : UInt8} {m n : ℕ}

theorem cell_inj (h : Sheet.cell m = Sheet.cell n) : m = n := by
  have hcol : ((m % 80 : ℕ) : ℤ) = (n % 80 : ℕ) := congrArg Prod.fst h
  have hrow : ((m / 80 : ℕ) : ℤ) = (n / 80 : ℕ) := congrArg Prod.snd h
  omega

/-- Cells that look alike do so with the same line. -/
theorem look_withLine {a b : Cell} (h : ∀ i j, a.look i j = b.look i j) (color : UInt8) (i j : ℤ) :
    (Cell.mk a.glyph (some color)).look i j = (Cell.mk b.glyph (some color)).look i j := by
  by_cases hj : j = 7
  · rw [hj]
    rfl
  · rw [Cell.look_glyph _ hj, Cell.look_glyph _ hj]
    have := h i j
    rwa [Cell.look_glyph _ hj, Cell.look_glyph _ hj] at this

/-- A black line shows nothing where nothing stands. -/
theorem look_blackLine (i j : ℤ) : (Cell.mk none (some 0)).look i j = Cell.blank.look i j := by
  show (if j = 7 then lowBits 0 else lowBits 0) = lowBits 0
  exact ite_self _

/-- Nor does a space. -/
theorem look_space (color : UInt8) (i j : ℤ) :
    (Cell.mk (some (32, color)) none).look i j = Cell.blank.look i j := by
  have hzero : ∀ row : ℕ, (font8x8.getD ((32 : Int8).toInt - 32).toNat []).getD row 0 = 0 := by
    intro row
    show (List.replicate 8 (0 : UInt8)).getD row 0 = 0
    by_cases hrow : row < 8
    · rw [List.getD_eq_getElem _ _ hrow, List.getElem_replicate]
    · rw [List.getD_eq_default _ _ (Nat.not_lt.mp hrow)]
  have hbit : glyphBit 32 i.toNat j.toNat = false := by
    unfold glyphBit
    rw [hzero]
    exact Nat.zero_testBit _
  show (if glyphBit 32 i.toNat j.toNat = true then lowBits color else lowBits 0) = lowBits 0
  rw [hbit]
  rfl

/-! ## Moves -/

theorem advance_place {fb : Framebuffer} (h : fb.place = Sheet.cell n) (hn : n + 1 < 4800) :
    fb.advance.place = Sheet.cell (n + 1) := by
  have hcol : fb.col = (n % 80 : ℕ) := congrArg Prod.fst h
  have hrow : fb.row = (n / 80 : ℕ) := congrArg Prod.snd h
  unfold Framebuffer.advance Framebuffer.newline Framebuffer.place Sheet.cell MAX_COLS MAX_ROWS
  split_ifs <;> refine Prod.ext ?_ ?_ <;> dsimp only <;> omega

theorem newline_place {fb : Framebuffer} (h : fb.place = Sheet.cell n) (hn : n / 80 < 59) :
    fb.newline.place = Sheet.cell (80 * (n / 80 + 1)) := by
  have hrow : fb.row = (n / 80 : ℕ) := congrArg Prod.snd h
  unfold Framebuffer.newline Framebuffer.place Sheet.cell MAX_ROWS
  split_ifs <;> refine Prod.ext ?_ ?_ <;> dsimp only <;> omega

theorem back_place {fb : Framebuffer} (h : fb.place = Sheet.cell n) (hn : 0 < n) :
    fb.back.place = Sheet.cell (n - 1) := by
  have hcol : fb.col = (n % 80 : ℕ) := congrArg Prod.fst h
  have hrow : fb.row = (n / 80 : ℕ) := congrArg Prod.snd h
  unfold Framebuffer.back Framebuffer.place Sheet.cell MAX_COLS
  split_ifs <;> refine Prod.ext ?_ ?_ <;> dsimp only <;> omega

/-! ## Cells without a cursor -/

/-- Cells that look like the characters, those of the places in `P`. -/
def Bare (cells : ℤ × ℤ → Cell) (glyphs : ℕ → Option (Int8 × UInt8)) (P : ℕ → Prop) : Prop :=
  ∀ n < 4800, P n → ∀ i j,
    (cells (Sheet.cell n)).look i j = (Cell.mk (glyphs n) none).look i j

theorem Written.others (h : Written s t color) : Bare s.cells t.glyphs (· ≠ t.next) := by
  intro n hn hne i j
  rw [h.look n hn i j, if_neg hne]

/-- The cursor makes them a sheet. -/
theorem Bare.showCursor {glyphs : ℕ → Option (Int8 × UInt8)}
    (h : Bare s.cells glyphs fun _ => True) (hs : s.cursor.place = Sheet.cell n) (hn : n < 4800)
    (hahead : ∀ m, n ≤ m → glyphs m = none) (color : UInt8) :
    Written (s.showCursor color) ⟨glyphs, n⟩ color := by
  refine ⟨hs, hn, fun m hm i j => ?_, hahead⟩
  show (Function.update s.cells s.cursor.place _ (Sheet.cell m)).look i j = _
  rw [hs]
  by_cases hmn : m = n
  · subst hmn
    rw [Function.update_self, if_pos rfl]
    exact look_withLine (h m hm trivial) color i j
  · rw [Function.update_of_ne fun hc => hmn (cell_inj hc), h m hm trivial, if_neg hmn]

/-- A character, whatever stood in its place. -/
theorem Bare.write {glyphs : ℕ → Option (Int8 × UInt8)} {P : ℕ → Prop} (h : Bare s.cells glyphs P)
    (hs : s.cursor.place = Sheet.cell n) (hc : Printable c) (color : UInt8) :
    Bare (s.write c color).cells (Function.update glyphs n (some (c, color)))
      fun m => P m ∨ m = n := by
  intro m hm hP i j
  show (Function.update s.cells s.cursor.place (if Printable c then _ else _) _).look i j = _
  rw [hs, if_pos hc]
  by_cases hmn : m = n
  · rw [hmn, Function.update_self, Function.update_self]
  · rw [Function.update_of_ne fun hc => hmn (cell_inj hc), Function.update_of_ne hmn]
    exact h m hm (hP.resolve_right hmn) i j

theorem Bare.clearCursor (h : Written s t color) :
    Bare s.clearCursor.cells t.glyphs fun _ => True := by
  have hcol : s.cursor.col = (t.next % 80 : ℕ) := congrArg Prod.fst h.cursor
  have hrow : s.cursor.row = (t.next / 80 : ℕ) := congrArg Prod.snd h.cursor
  have hbelow : (s.cursor.col, s.cursor.row + 1) = Sheet.cell (t.next + 80) := by
    unfold Sheet.cell
    refine Prod.ext ?_ ?_ <;> dsimp only <;> omega
  intro n hn _ i j
  show (Function.update (Function.update s.cells s.cursor.place _)
    (s.cursor.col, s.cursor.row + 1) Cell.blank (Sheet.cell n)).look i j = _
  rw [hbelow, h.cursor]
  by_cases hn80 : n = t.next + 80
  · rw [hn80, Function.update_self, h.ahead _ (Nat.le_add_right _ _)]
    rfl
  · rw [Function.update_of_ne fun hc => hn80 (cell_inj hc)]
    by_cases hnext : n = t.next
    · subst hnext
      rw [Function.update_self, look_withLine (h.look _ h.next) 0 i j, h.ahead _ (Nat.le_refl _)]
      exact look_blackLine i j
    · rw [Function.update_of_ne fun hc => hnext (cell_inj hc)]
      exact h.others n hn hnext i j

/-! ## One character -/

theorem Written.put (h : Written s t color) (hc : t.Takes c) (color' : UInt8) :
    Written (s.text c color') (t.put c color') color' := by
  unfold Sheet.Takes at hc
  unfold Screen.text Sheet.put
  by_cases h8 : c = 8
  · rw [if_pos h8] at hc
    rw [if_neg (by rw [h8]; decide), if_pos h8, if_pos h8]
    have hback := back_place h.cursor hc
    have hspace : Bare ((s.clearCursor.move Framebuffer.back).write 32 color').cells
        (Function.update t.glyphs (t.next - 1) none) fun _ => True := by
      intro n hn _ i j
      have hwrite := (Bare.clearCursor h).write (s := s.clearCursor.move Framebuffer.back)
        hback (c := 32) (by decide) color' n hn (Or.inl trivial) i j
      rw [hwrite]
      by_cases hn1 : n = t.next - 1
      · rw [hn1, Function.update_self, Function.update_self]
        exact look_space color' i j
      · rw [Function.update_of_ne hn1, Function.update_of_ne hn1]
    refine hspace.showCursor hback (by have := h.next; omega) (fun m hm => ?_) color'
    by_cases hm1 : m = t.next - 1
    · rw [hm1, Function.update_self]
    · rw [Function.update_of_ne hm1]
      exact h.ahead m (by omega)
  rw [if_neg h8] at hc
  by_cases h10 : c = 10
  · rw [if_pos h10] at hc
    rw [if_neg (by rw [h10]; decide), if_neg h8, if_pos h10, if_neg h8, if_pos h10]
    exact (Bare.clearCursor h).showCursor (s := s.clearCursor.move Framebuffer.newline)
      (newline_place h.cursor hc) (by omega) (fun m hm => h.ahead m (by omega)) color'
  · rw [if_neg h10] at hc
    obtain ⟨hprint, hnext⟩ := hc
    have h0 : c ≠ 0 := by
      rintro rfl
      exact absurd hprint (by decide)
    rw [if_neg h0, if_neg h8, if_neg h10, if_neg h8, if_neg h10]
    have hwrite : Bare ((s.write c color').move Framebuffer.advance).cells
        (Function.update t.glyphs t.next (some (c, color'))) fun _ => True := by
      intro n hn _
      exact h.others.write h.cursor hprint color' n hn (Decidable.em (n = t.next)).symm
    refine hwrite.showCursor (advance_place h.cursor hnext) hnext (fun m hm => ?_) color'
    rw [Function.update_of_ne (by omega)]
    exact h.ahead m (by omega)

/-! ## Texts -/

/-- The colour of the cursor behind a text. -/
def lastColor (text : List (Int8 × UInt8)) (color : UInt8) : UInt8 :=
  (text.getLast?.map Prod.snd).getD color

theorem lastColor_cons (q : Int8 × UInt8) (text : List (Int8 × UInt8)) :
    lastColor (q :: text) color = lastColor text q.2 := by
  unfold lastColor
  cases text with
  | nil => rfl
  | cons r text =>
    rw [List.getLast?_cons_cons]
    cases hlast : (r :: text).getLast? with
    | none => exact absurd (List.getLast?_eq_none_iff.mp hlast) (List.cons_ne_nil _ _)
    | some r => rfl

theorem lastColor_append (text text' : List (Int8 × UInt8)) :
    lastColor (text ++ text') color = lastColor text' (lastColor text color) := by
  induction text generalizing color with
  | nil => rfl
  | cons q text ih => rw [List.cons_append, lastColor_cons, lastColor_cons, ih]

theorem Written.print (h : Written s t color) {text : List (Int8 × UInt8)} (hfits : t.Fits text) :
    Written (text.foldl (fun s q => s.text q.1 q.2) s) (t.print text) (lastColor text color) := by
  induction text generalizing s t color with
  | nil => exact h
  | cons q text ih =>
    rw [lastColor_cons]
    exact ih (h.put hfits.1 q.2) hfits.2

theorem written_empty : Written .cleared .empty 0xF :=
  Bare.showCursor (s := ⟨fun _ => .blank, { row := 1, col := 0 }⟩) (fun _ _ _ _ _ => rfl) rfl
    (show 80 < 4800 by decide) (fun _ _ => rfl) 0xF

theorem Written.picture (h : Written s t color) : cellPicture s.cells = t.picture color := by
  funext x y
  have hx : x.val < 640 := x.isLt
  have hy : y.val < 480 := y.isLt
  have hcell : (((x.val : ℤ) / 8, (y.val : ℤ) / (8 : ℕ)) : ℤ × ℤ) =
      Sheet.cell (80 * (y.val / 8) + x.val / 8) := by
    unfold Sheet.cell
    refine Prod.ext ?_ ?_ <;> dsimp only <;> omega
  show (s.cells ((x.val : ℤ) / 8, (y.val : ℤ) / (8 : ℕ))).look ((x.val : ℤ) % 8)
    ((y.val : ℤ) % (8 : ℕ)) = _
  rw [hcell, h.look _ (by omega)]
  unfold Sheet.picture
  by_cases hnext : 80 * (y.val / 8) + x.val / 8 = t.next
  · rw [if_pos hnext]
    by_cases h7 : y.val % 8 = 7
    · rw [if_pos ⟨hnext, h7⟩, show (y.val : ℤ) % (8 : ℕ) = 7 by omega]
      exact Cell.look_line _ _
    · rw [if_neg fun hc => h7 hc.2, Cell.look_glyph _ (by omega)]
      rfl
  · rw [if_neg hnext, if_neg fun hc => hnext hc.1]
    rfl

end Written

/-! ## Printing -/

section Printing

variable {d : Display} {t : Sheet} {color : UInt8}

/-- No arrow key waits that moves the cursor. -/
def Still (d : Display) : Prop :=
  d.keyboard.specialKey ≠ KEY_LEFT ∧ d.keyboard.specialKey ≠ KEY_RIGHT

theorem putchar_still (h : Still d) (c : Int8) (color : UInt8) :
    (d.putchar c color).screen = d.screen.text c color ∧ Still (d.putchar c color) := by
  refine ⟨?_, show KEY_NONE ≠ KEY_LEFT ∧ KEY_NONE ≠ KEY_RIGHT by decide⟩
  exact (if_neg h.1).trans (if_neg h.2)

theorem print_still (h : Still d) (color : UInt8) (string : List Int8) :
    (d.print color string).screen =
        (string.map (·, color)).foldl (fun s q => s.text q.1 q.2) d.screen ∧
      Still (d.print color string) := by
  induction string generalizing d with
  | nil => exact ⟨rfl, h⟩
  | cons c string ih =>
    obtain ⟨hscreen, hstill⟩ := putchar_still h c color
    obtain ⟨hrest, hstill'⟩ := ih hstill
    refine ⟨?_, hstill'⟩
    rw [hscreen] at hrest
    exact hrest

theorem Sheet.Takes.ne_zero {c : Int8} (h : t.Takes c) : c ≠ 0 := by
  rintro rfl
  unfold Sheet.Takes at h
  rw [if_neg (by decide), if_neg (by decide)] at h
  exact absurd h.1 (by decide)

theorem Sheet.Fits.ne_zero {text : List (Int8 × UInt8)} (h : t.Fits text) {q : Int8 × UInt8}
    (hq : q ∈ text) : q.1 ≠ 0 := by
  induction text generalizing t with
  | nil => cases hq
  | cons r text ih =>
    rcases List.mem_cons.mp hq with rfl | hq
    · exact h.1.ne_zero
    · exact ih h.2 hq

theorem Sheet.fits_append {text text' : List (Int8 × UInt8)} :
    t.Fits (text ++ text') ↔ t.Fits text ∧ (t.print text).Fits text' := by
  induction text generalizing t with
  | nil => exact (and_iff_right trivial).symm
  | cons q text ih => exact (and_congr_right fun _ => ih).trans and_assoc.symm

/-- Strings, each in its colour. -/
def textOf (prints : List (List Int8 × UInt8)) : List (Int8 × UInt8) :=
  prints.flatMap fun p => p.1.map (·, p.2)

/-- `puts` with the length of the string. -/
def putsCall (p : List Int8 × UInt8) : ConsoleCall :=
  .puts (some fun i => p.1.getD i 0) (UInt32.ofNat p.1.length) p.2

theorem map_getD (string : List Int8) :
    (List.range string.length).map (fun i => string.getD i 0) = string := by
  refine List.ext_getElem (by simp) fun i hi hi' => ?_
  rw [List.getElem_map, List.getElem_range, List.getD_eq_getElem _ _ hi']

/-- `puts` of a string that lies at an address. -/
theorem call_at {f : ℕ → Int8} {string : List Int8} (hlen : string.length < 4294967296)
    (hf : (List.range string.length).map f = string) (color : UInt8) :
    d.call (.puts (some f) (UInt32.ofNat string.length) color) =
      d.print color (string.takeWhile (· != 0)) := by
  have hcount : (UInt32.ofNat string.length).toNat = string.length :=
    UInt32.toNat_ofNat_of_lt' hlen
  show d.print color (((List.range (UInt32.ofNat string.length).toNat).map f).takeWhile _) = _
  rw [hcount, hf]

theorem call_puts {p : List Int8 × UInt8} (hlen : p.1.length < 4294967296)
    (hzero : ∀ c ∈ p.1, c ≠ 0) : d.call (putsCall p) = d.print p.2 p.1 := by
  refine (call_at hlen (map_getD p.1) p.2).trans ?_
  congr 1
  exact List.takeWhile_eq_self_iff.mpr fun c hc => bne_iff_ne.mpr (hzero c hc)

theorem prints_written (hd : Written d.screen t color) (hstill : Still d)
    {prints : List (List Int8 × UInt8)} (hlen : ∀ p ∈ prints, p.1.length < 4294967296)
    (hfits : t.Fits (textOf prints)) :
    Written ((prints.map putsCall).foldl Display.call d).screen (t.print (textOf prints))
      (lastColor (textOf prints) color) := by
  induction prints generalizing d t color with
  | nil => exact hd
  | cons p prints ih =>
    have hsplit : textOf (p :: prints) = p.1.map (·, p.2) ++ textOf prints := rfl
    rw [hsplit] at hfits ⊢
    obtain ⟨hp, hrest⟩ := Sheet.fits_append.mp hfits
    obtain ⟨hscreen, hstill'⟩ := print_still hstill p.2 p.1
    have hzero : ∀ c ∈ p.1, c ≠ 0 := fun c hc =>
      hp.ne_zero (List.mem_map_of_mem hc)
    have hwritten := hd.print hp
    rw [← hscreen] at hwritten
    have hcall := call_puts (d := d) (hlen p List.mem_cons_self) hzero
    rw [List.map_cons, List.foldl_cons, hcall]
    have h := ih hwritten hstill' (fun p hp => hlen p (List.mem_cons_of_mem _ hp)) hrest
    have hprint : t.print (p.1.map (·, p.2) ++ textOf prints) =
        (t.print (p.1.map (·, p.2))).print (textOf prints) := List.foldl_append
    rw [hprint, lastColor_append]
    exact h

end Printing

/-- Calls that do what those of the strings do, on a screen that is cleared. -/
theorem calls_appear (k : Console)
    (hkey : k.keyboard.specialKey ≠ KEY_LEFT ∧ k.keyboard.specialKey ≠ KEY_RIGHT)
    {calls : List ConsoleCall} {prints : List (List Int8 × UInt8)}
    (hcalls : ∀ d : Display, calls.foldl Display.call d =
      (prints.map putsCall).foldl Display.call d)
    (hlen : ∀ p ∈ prints, p.1.length < 4294967296) (hfits : Sheet.empty.Fits (textOf prints)) :
    ∃ k', loop (.clearScreen :: calls) ConsoleCall.run k = some k' ∧
      pixels k'.vga =
        (Sheet.empty.print (textOf prints)).picture (lastColor (textOf prints) 0xF) := by
  obtain ⟨k₁, hrun, hk₁⟩ := clearScreen_shows (d := ⟨.cleared, k.keyboard⟩) k rfl
  obtain ⟨k', hrest, hk'⟩ := hk₁.calls calls
  have hwritten := prints_written (d := ⟨.cleared, k.keyboard⟩) written_empty hkey hlen hfits
  rw [hcalls] at hk'
  refine ⟨k', ?_, hk'.draws.picture.trans hwritten.picture⟩
  rw [loop_cons]
  show (clearScreen k).bind _ = _
  rw [hrun]
  exact hrest

/-- On a screen that is cleared, what is printed is what is seen: after any calls of `puts` whose
    text stays on the sheet, each pixel is that of the sheet with the text on it, and of a cursor
    behind the text in the colour of its last character. -/
theorem printed_text_appears (k : Console)
    (hkey : k.keyboard.specialKey ≠ KEY_LEFT ∧ k.keyboard.specialKey ≠ KEY_RIGHT)
    (prints : List (List Int8 × UInt8)) (hlen : ∀ p ∈ prints, p.1.length < 4294967296)
    (hfits : Sheet.empty.Fits (textOf prints)) :
    ∃ k', loop (.clearScreen :: prints.map putsCall) ConsoleCall.run k = some k' ∧
      pixels k'.vga =
        (Sheet.empty.print (textOf prints)).picture (lastColor (textOf prints) 0xF) :=
  calls_appear k hkey (fun _ => rfl) hlen hfits

/-- `Hi`, and another line. -/
theorem printed_text_appears_hi : ∃ k', loop
      (.clearScreen :: [([72, 105, 10], 0xA), ([33], 0xF)].map putsCall) ConsoleCall.run
      ⟨whiteScreen, ⟨0, 0⟩, keyboardStateActivate⟩ = some k' ∧
    pixels k'.vga = (Sheet.empty.print
      [(72, 0xA), (105, 0xA), (10, 0xA), (33, 0xF)]).picture 0xF :=
  printed_text_appears ⟨whiteScreen, ⟨0, 0⟩, keyboardStateActivate⟩ (by decide)
    [([72, 105, 10], 0xA), ([33], 0xF)] (by decide)
    ⟨⟨by decide, by decide⟩, ⟨by decide, by decide⟩, show 82 / 80 < 59 by decide,
      ⟨by decide, by decide⟩, trivial⟩

end LossOs.Drivers
