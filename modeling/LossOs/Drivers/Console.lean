/-
  `drivers/console.c`: `putchar` and what it draws.

  `putchar` runs in two parts, the character and then a pending arrow key. Both draw in the cell of
  the cursor before and in that of the cursor after. But `vga_clear_cursor` clears nine rows and
  not one, and so the cell below as well: `putchar_touches_iff` says when that changes a pixel
  elsewhere.
-/
import LossOs.Drivers.Graphics
import LossOs.Drivers.Keyboard

namespace LossOs.Drivers

open LossOs.Lib

/-! ## The console -/

def MAX_COLS : Int := 80
def MAX_ROWS : Int := 60

/-- The cursor. -/
structure Framebuffer where
  row : Int
  col : Int

/-- One to the left, or to the end of the row above. -/
def Framebuffer.back (fb : Framebuffer) : Framebuffer :=
  if fb.col > 0 then { fb with col := fb.col - 1 }
  else if fb.row > 0 then { row := fb.row - 1, col := MAX_COLS - 1 }
  else fb

/-- To the start of the next row, or of the last one. -/
def Framebuffer.newline (fb : Framebuffer) : Framebuffer :=
  { row := if fb.row + 1 ≥ MAX_ROWS then MAX_ROWS - 1 else fb.row + 1, col := 0 }

/-- One to the right, or to the start of the next row. -/
def Framebuffer.advance (fb : Framebuffer) : Framebuffer :=
  if fb.col + 1 ≥ MAX_COLS then fb.newline else { fb with col := fb.col + 1 }

/-- One to the right, if there is a column. -/
def Framebuffer.right (fb : Framebuffer) : Framebuffer :=
  if fb.col < MAX_COLS - 1 then { fb with col := fb.col + 1 } else fb

/-- The screen, `framebuffer_state` and `keyboard_state`. -/
structure Console where
  vga : Vga
  framebuffer : Framebuffer
  keyboard : KeyboardDriverState

/-- Draw at the cursor. -/
def Console.draw (f : Int → Int → Vga → Option Vga) (s : Console) : Option Console :=
  (f s.framebuffer.col s.framebuffer.row s.vga).map fun v => { s with vga := v }

def Console.move (f : Framebuffer → Framebuffer) (s : Console) : Console :=
  { s with framebuffer := f s.framebuffer }

def updateCursor (textColor : UInt8) : Console → Option Console :=
  Console.draw fun cx cy => vgaDrawCursor cx cy textColor

/-- The part of `putchar` for the character. -/
def putcharText (c : Int8) (textColor : UInt8) (s : Console) : Option Console :=
  if c = 0 then some s
  else if c = 8 then do
    let s ← s.draw vgaClearCursor
    let s ← (s.move Framebuffer.back).draw fun x y => vgaDrawChar x y 32 textColor
    updateCursor textColor s
  else if c = 10 then do
    let s ← s.draw vgaClearCursor
    updateCursor textColor (s.move Framebuffer.newline)
  else do
    let s ← s.draw fun x y => vgaDrawChar x y c textColor
    updateCursor textColor (s.move Framebuffer.advance)

/-- The part for the arrow key that is pending. -/
def putcharKey (textColor : UInt8) (s : Console) : Option Console :=
  let key := (getSpecialKey s.keyboard).1
  let s := { s with keyboard := (getSpecialKey s.keyboard).2 }
  if key = KEY_LEFT then do
    let s ← s.draw vgaClearCursor
    updateCursor textColor (s.move Framebuffer.back)
  else if key = KEY_RIGHT then do
    let s ← s.draw vgaClearCursor
    updateCursor textColor (s.move Framebuffer.right)
  else some s

def putchar (c : Int8) (textColor : UInt8) (s : Console) : Option Console := do
  let s ← putcharText c textColor s
  putcharKey textColor s

/-! ## The cursor -/

/-- The cursor after the character. -/
def Framebuffer.afterChar (fb : Framebuffer) (c : Int8) : Framebuffer :=
  if c = 0 then fb else if c = 8 then fb.back else if c = 10 then fb.newline else fb.advance

/-- The cursor after a special key. -/
def Framebuffer.afterKey (fb : Framebuffer) (key : UInt8) : Framebuffer :=
  if key = KEY_LEFT then fb.back else if key = KEY_RIGHT then fb.right else fb

structure Framebuffer.InRange (fb : Framebuffer) : Prop where
  row : 0 ≤ fb.row ∧ fb.row < 60
  col : 0 ≤ fb.col ∧ fb.col < 80

section Cursor

variable {fb : Framebuffer}

theorem Framebuffer.InRange.back (h : fb.InRange) : fb.back.InRange := by
  obtain ⟨hr, hc⟩ := h
  unfold Framebuffer.back MAX_COLS
  split_ifs
  · exact ⟨hr, by dsimp only; omega⟩
  · exact ⟨by dsimp only; omega, by dsimp only; omega⟩
  · exact ⟨hr, hc⟩

theorem Framebuffer.InRange.newline (h : fb.InRange) : fb.newline.InRange := by
  obtain ⟨hr, hc⟩ := h
  unfold Framebuffer.newline MAX_ROWS
  refine ⟨?_, show (0 : Int) ≤ 0 ∧ (0 : Int) < 80 by decide⟩
  dsimp only
  split_ifs <;> omega

theorem Framebuffer.InRange.advance (h : fb.InRange) : fb.advance.InRange := by
  unfold Framebuffer.advance MAX_COLS
  split_ifs with hlt
  · exact h.newline
  · obtain ⟨hr, hc⟩ := h
    exact ⟨hr, by dsimp only; omega⟩

theorem Framebuffer.InRange.right (h : fb.InRange) : fb.right.InRange := by
  obtain ⟨hr, hc⟩ := h
  unfold Framebuffer.right MAX_COLS
  split_ifs
  · exact ⟨hr, by dsimp only; omega⟩
  · exact ⟨hr, hc⟩

theorem Framebuffer.InRange.afterChar (h : fb.InRange) (c : Int8) : (fb.afterChar c).InRange := by
  unfold Framebuffer.afterChar
  split_ifs
  · exact h
  · exact h.back
  · exact h.newline
  · exact h.advance

theorem Framebuffer.InRange.afterKey (h : fb.InRange) (key : UInt8) :
    (fb.afterKey key).InRange := by
  unfold Framebuffer.afterKey
  split_ifs
  · exact h.back
  · exact h.right
  · exact h

end Cursor

/-! ## What is drawn -/

/-- The 8x8 pixels of the cursor. -/
def Framebuffer.cell (fb : Framebuffer) : Set (ℤ × ℤ) := block (fb.col * 8) (fb.row * 8) 8 8

/-- The cell below. -/
def Framebuffer.below (fb : Framebuffer) : Set (ℤ × ℤ) := block (fb.col * 8) (fb.row * 8 + 8) 8 8

/-- Outside of `A` the pixels in `B` are black and the others as before. -/
def Changes (P P' : Picture 4 80 480) (A B : Set (ℤ × ℤ)) : Prop :=
  ∀ (x : Fin (8 * 80)) (y : Fin 480), ((x : ℤ), (y : ℤ)) ∉ A →
    (((x : ℤ), (y : ℤ)) ∈ B → P' x y = lowBits 0) ∧ (((x : ℤ), (y : ℤ)) ∉ B → P' x y = P x y)

section Changes

variable {P P' P'' : Picture 4 80 480} {A A' B B' : Set (ℤ × ℤ)}

theorem Changes.refl (P : Picture 4 80 480) : Changes P P ∅ ∅ :=
  fun _ _ _ => ⟨fun h => h.elim, fun _ => rfl⟩

theorem Changes.trans (h : Changes P P' A B) (h' : Changes P' P'' A' B') :
    Changes P P'' (A ∪ A') (B ∪ B') := by
  intro x y hout
  obtain ⟨hB, hkeep⟩ := h x y fun hA => hout (Or.inl hA)
  obtain ⟨hB', hkeep'⟩ := h' x y fun hA => hout (Or.inr hA)
  by_cases hin : ((x : ℤ), (y : ℤ)) ∈ B'
  · exact ⟨fun _ => hB' hin, fun hno => absurd (Or.inr hin) hno⟩
  · rw [hkeep' hin]
    refine ⟨fun h => hB (h.resolve_right hin), fun h => hkeep fun hb => h (Or.inl hb)⟩

theorem Changes.mono (h : Changes P P' A B) (hA : A ⊆ A') : Changes P P' A' B :=
  fun x y hout => h x y fun h => hout (hA h)

/-- What is painted within `A`. -/
theorem changes_paint {S : Set (ℤ × ℤ)} (c : Fin 4 → Bool) (hS : S ⊆ A) :
    Changes P (P.paint S c) A ∅ :=
  fun _ _ hout => ⟨fun h => h.elim, fun _ => Picture.paint_not_mem fun h => hout (hS h)⟩

end Changes

section Draw

variable {s : Console} {fb : Framebuffer} {textColor : UInt8}

theorem draw_eq {f : Int → Int → Vga → Option Vga} {v : Vga}
    (h : f s.framebuffer.col s.framebuffer.row s.vga = some v) :
    s.draw f = some { s with vga := v } := by
  unfold Console.draw
  rw [h]
  rfl

/-- A cursor is drawn in the cell. -/
theorem updateCursor_run (textColor : UInt8) (s : Console) : ∃ v, updateCursor textColor s =
    some { s with vga := v } ∧ Changes (pixels s.vga) (pixels v) s.framebuffer.cell ∅ := by
  obtain ⟨v, hv, -, hpix⟩ :=
    vgaDrawCursor_refines s.framebuffer.col s.framebuffer.row textColor s.vga trivial
  refine ⟨v, draw_eq hv, ?_⟩
  · rw [hpix]
    apply changes_paint _
    intro q hq
    obtain ⟨h1, h2, h3, h4⟩ := hq
    exact ⟨h1, h2, by omega, by omega⟩

/-- A character is drawn in the cell. -/
theorem drawChar_run (c : Int8) (textColor : UInt8) (s : Console) :
    ∃ v, s.draw (fun x y => vgaDrawChar x y c textColor) = some { s with vga := v } ∧
      Changes (pixels s.vga) (pixels v) s.framebuffer.cell ∅ := by
  by_cases hc : Printable c
  · obtain ⟨v, hv, -, hpix⟩ :=
      vgaDrawChar_refines s.framebuffer.col s.framebuffer.row hc textColor s.vga trivial
    refine ⟨v, draw_eq hv, ?_⟩
    · rw [hpix, ← Set.union_self s.framebuffer.cell, ← Set.union_self ∅]
      refine (changes_paint _ (Set.Subset.refl _)).trans (changes_paint _ fun q hq => ?_)
      obtain ⟨row, hrow, col, hcol, -, h1, h2, h3, h4⟩ := hq
      have := mem_upTo.mp hrow
      have := mem_upTo.mp hcol
      exact ⟨by omega, by omega, by omega, by omega⟩
  · exact ⟨s.vga, draw_eq (vgaDrawChar_skip _ _ hc _ _), (Changes.refl _).mono (Set.empty_subset _)⟩

/-- Clearing a cursor makes the cell below black. -/
theorem clearCursor_run (s : Console) :
    ∃ v, s.draw vgaClearCursor = some { s with vga := v } ∧
      Changes (pixels s.vga) (pixels v) s.framebuffer.cell s.framebuffer.below := by
  obtain ⟨v, hv, -, hpix⟩ :=
    vgaClearCursor_refines s.framebuffer.col s.framebuffer.row s.vga trivial
  refine ⟨v, draw_eq hv, ?_⟩
  · rw [hpix]
    intro x y hout
    have hsplit : ((x : ℤ), (y : ℤ)) ∈
        block (s.framebuffer.col * 8) (s.framebuffer.row * 8 + 7) 8 9 ↔
          ((x : ℤ), (y : ℤ)) ∈ s.framebuffer.below := by
      have hout' : ¬ (s.framebuffer.col * 8 ≤ (x : ℤ) ∧ (x : ℤ) < s.framebuffer.col * 8 + 8 ∧
        s.framebuffer.row * 8 ≤ (y : ℤ) ∧ (y : ℤ) < s.framebuffer.row * 8 + 8) := hout
      show (s.framebuffer.col * 8 ≤ (x : ℤ) ∧ (x : ℤ) < s.framebuffer.col * 8 + 8 ∧
        s.framebuffer.row * 8 + 7 ≤ (y : ℤ) ∧ (y : ℤ) < s.framebuffer.row * 8 + 7 + 9) ↔
        (s.framebuffer.col * 8 ≤ (x : ℤ) ∧ (x : ℤ) < s.framebuffer.col * 8 + 8 ∧
        s.framebuffer.row * 8 + 8 ≤ (y : ℤ) ∧ (y : ℤ) < s.framebuffer.row * 8 + 8 + 8)
      omega
    exact ⟨fun h => Picture.paint_mem (hsplit.mpr h), fun h => Picture.paint_not_mem fun h' =>
      h (hsplit.mp h')⟩

/-- The cursor is cleared, moved and drawn. -/
theorem moveCursor_run (f : Framebuffer → Framebuffer) (textColor : UInt8) (s : Console) :
    ∃ v, ((s.draw vgaClearCursor).bind fun s => updateCursor textColor (s.move f)) =
        some { s.move f with vga := v } ∧
      Changes (pixels s.vga) (pixels v) (s.framebuffer.cell ∪ (f s.framebuffer).cell)
        s.framebuffer.below := by
  obtain ⟨v₁, h₁, hc₁⟩ := clearCursor_run s
  obtain ⟨v₂, h₂, hc₂⟩ := updateCursor_run textColor ({ s with vga := v₁ }.move f)
  refine ⟨v₂, ?_, ?_⟩
  · rw [h₁]
    exact h₂
  · rw [← Set.union_empty s.framebuffer.below]
    exact hc₁.trans hc₂

/-- The cells that the character part clears without drawing there. -/
def clearedByChar (fb : Framebuffer) (c : Int8) : Set (ℤ × ℤ) :=
  if c = 8 ∨ c = 10 then fb.below else ∅

def clearedByKey (fb : Framebuffer) (key : UInt8) : Set (ℤ × ℤ) :=
  if key = KEY_LEFT ∨ key = KEY_RIGHT then fb.below else ∅

/-- The part for the character. -/
theorem putcharText_run (c : Int8) (textColor : UInt8) (s : Console) :
    ∃ v, putcharText c textColor s =
        some { s with vga := v, framebuffer := s.framebuffer.afterChar c } ∧
      Changes (pixels s.vga) (pixels v) (s.framebuffer.cell ∪ (s.framebuffer.afterChar c).cell)
        (clearedByChar s.framebuffer c) := by
  unfold putcharText Framebuffer.afterChar clearedByChar
  by_cases h0 : c = 0
  · rw [if_pos h0, if_pos h0, if_neg (by subst h0; decide)]
    exact ⟨s.vga, rfl, (Changes.refl _).mono (Set.empty_subset _)⟩
  rw [if_neg h0, if_neg h0]
  by_cases h8 : c = 8
  · rw [if_pos h8, if_pos h8, if_pos (Or.inl h8)]
    obtain ⟨v₁, h₁, hc₁⟩ := clearCursor_run s
    obtain ⟨v₂, h₂, hc₂⟩ := drawChar_run 32 textColor ({ s with vga := v₁ }.move Framebuffer.back)
    obtain ⟨v₃, h₃, hc₃⟩ := updateCursor_run textColor
      { ({ s with vga := v₁ }.move Framebuffer.back) with vga := v₂ }
    refine ⟨v₃, ?_, ?_⟩
    · rw [h₁]
      show (Console.draw _ _).bind _ = _
      rw [h₂]
      exact h₃
    · have hdraw := hc₂.trans hc₃
      rw [Set.union_self, Set.union_self] at hdraw
      rw [← Set.union_empty s.framebuffer.below]
      exact hc₁.trans hdraw
  rw [if_neg h8, if_neg h8]
  by_cases h10 : c = 10
  · rw [if_pos h10, if_pos h10, if_pos (Or.inr h10)]
    exact moveCursor_run Framebuffer.newline textColor s
  · rw [if_neg h10, if_neg h10, if_neg (not_or_intro h8 h10)]
    obtain ⟨v₁, h₁, hc₁⟩ := drawChar_run c textColor s
    obtain ⟨v₂, h₂, hc₂⟩ :=
      updateCursor_run textColor ({ s with vga := v₁ }.move Framebuffer.advance)
    refine ⟨v₂, ?_, ?_⟩
    · rw [h₁]
      exact h₂
    · rw [← Set.union_self (∅ : Set (ℤ × ℤ))]
      exact hc₁.trans hc₂

/-- The part for the key. -/
theorem putcharKey_run (textColor : UInt8) (s : Console) :
    ∃ v, putcharKey textColor s = some ⟨v, s.framebuffer.afterKey s.keyboard.specialKey,
        (getSpecialKey s.keyboard).2⟩ ∧
      Changes (pixels s.vga) (pixels v)
        (s.framebuffer.cell ∪ (s.framebuffer.afterKey s.keyboard.specialKey).cell)
        (clearedByKey s.framebuffer s.keyboard.specialKey) := by
  have hkey : (getSpecialKey s.keyboard).1 = s.keyboard.specialKey := rfl
  unfold putcharKey Framebuffer.afterKey clearedByKey
  dsimp only
  rw [hkey]
  by_cases hl : s.keyboard.specialKey = KEY_LEFT
  · rw [if_pos hl, if_pos hl, if_pos (Or.inl hl)]
    exact moveCursor_run Framebuffer.back textColor
      { s with keyboard := (getSpecialKey s.keyboard).2 }
  rw [if_neg hl, if_neg hl]
  by_cases hr : s.keyboard.specialKey = KEY_RIGHT
  · rw [if_pos hr, if_pos hr, if_pos (Or.inr hr)]
    exact moveCursor_run Framebuffer.right textColor
      { s with keyboard := (getSpecialKey s.keyboard).2 }
  · rw [if_neg hr, if_neg hr, if_neg (not_or_intro hl hr)]
    exact ⟨s.vga, rfl, (Changes.refl _).mono (Set.empty_subset _)⟩

/-- The cells of the cursor before, after the character, and after the key. -/
def putcharCells (c : Int8) (s : Console) : Set (ℤ × ℤ) :=
  s.framebuffer.cell ∪ (s.framebuffer.afterChar c).cell ∪
    ((s.framebuffer.afterChar c).afterKey s.keyboard.specialKey).cell

/-- The cells that are cleared besides. -/
def putcharCleared (c : Int8) (s : Console) : Set (ℤ × ℤ) :=
  clearedByChar s.framebuffer c ∪ clearedByKey (s.framebuffer.afterChar c) s.keyboard.specialKey

theorem putchar_run (c : Int8) (textColor : UInt8) (s : Console) :
    ∃ v, putchar c textColor s =
        some ⟨v, (s.framebuffer.afterChar c).afterKey s.keyboard.specialKey,
          (getSpecialKey s.keyboard).2⟩ ∧
      Changes (pixels s.vga) (pixels v) (putcharCells c s) (putcharCleared c s) := by
  obtain ⟨v₁, h₁, hc₁⟩ := putcharText_run c textColor s
  obtain ⟨v₂, h₂, hc₂⟩ := putcharKey_run textColor
    { s with vga := v₁, framebuffer := s.framebuffer.afterChar c }
  refine ⟨v₂, ?_, (hc₁.trans hc₂).mono fun q hq => ?_⟩
  · unfold putchar
    rw [h₁]
    exact h₂
  · rcases hq with hq | hq | hq
    · exact Or.inl hq
    · exact Or.inl (Or.inr hq)
    · exact Or.inr hq

theorem mem_putcharCleared {c : Int8} {q : ℤ × ℤ} : q ∈ putcharCleared c s ↔
    (c = 8 ∨ c = 10) ∧ q ∈ s.framebuffer.below ∨
      (s.keyboard.specialKey = KEY_LEFT ∨ s.keyboard.specialKey = KEY_RIGHT) ∧
        q ∈ (s.framebuffer.afterChar c).below := by
  unfold putcharCleared clearedByChar clearedByKey
  apply or_congr
  · split_ifs with h
    · exact ⟨fun hq => ⟨h, hq⟩, fun hq => hq.2⟩
    · exact ⟨fun hq => hq.elim, fun hq => absurd hq.1 h⟩
  · split_ifs with h
    · exact ⟨fun hq => ⟨h, hq⟩, fun hq => hq.2⟩
    · exact ⟨fun hq => hq.elim, fun hq => absurd hq.1 h⟩

end Draw

/-! ## Result -/

/-- `putchar` leaves the cursor on the screen. No pixel outside of its cells changes exactly when
    all these are black in the cell below a cursor that is cleared: that before a backspace or a
    newline, and that before an arrow key. -/
theorem putchar_touches_iff (c : Int8) (textColor : UInt8) (s : Console)
    (hs : s.framebuffer.InRange) :
    ∃ s', putchar c textColor s = some s' ∧ s'.framebuffer.InRange ∧
      s'.framebuffer = (s.framebuffer.afterChar c).afterKey s.keyboard.specialKey ∧
      ((∀ (x : Fin 640) (y : Fin 480), ((x : ℤ), (y : ℤ)) ∉ putcharCells c s →
          pixels s'.vga x y = pixels s.vga x y) ↔
        ∀ (x : Fin 640) (y : Fin 480), ((x : ℤ), (y : ℤ)) ∉ putcharCells c s →
          ((c = 8 ∨ c = 10) ∧ ((x : ℤ), (y : ℤ)) ∈ s.framebuffer.below ∨
            (s.keyboard.specialKey = KEY_LEFT ∨ s.keyboard.specialKey = KEY_RIGHT) ∧
              ((x : ℤ), (y : ℤ)) ∈ (s.framebuffer.afterChar c).below) →
          pixels s.vga x y = lowBits 0) := by
  obtain ⟨v, hrun, hchanges⟩ := putchar_run c textColor s
  refine ⟨_, hrun, (hs.afterChar c).afterKey s.keyboard.specialKey, rfl, ?_⟩
  refine forall_congr' fun x => forall_congr' fun y => forall_congr' fun hout => ?_
  obtain ⟨hblack, hkeep⟩ := hchanges x y hout
  rw [← mem_putcharCleared]
  constructor
  · intro hsame hin
    exact hsame.symm.trans (hblack hin)
  · intro hin
    by_cases hq : ((x : ℤ), (y : ℤ)) ∈ putcharCleared c s
    · exact (hblack hq).trans (hin hq).symm
    · exact hkeep hq

/-- A letter at the end of a row. -/
theorem putchar_touches_letter : ∃ s', putchar 65 0xF
      ⟨blackScreen, ⟨3, 79⟩, keyboardStateActivate⟩ = some s' ∧
    s'.framebuffer = ⟨4, 0⟩ ∧
    ∀ (x : Fin 640) (y : Fin 480),
      ((x : ℤ), (y : ℤ)) ∉ putcharCells 65 ⟨blackScreen, ⟨3, 79⟩, keyboardStateActivate⟩ →
        pixels s'.vga x y = pixels blackScreen x y := by
  obtain ⟨s', hrun, -, hcursor, hiff⟩ := putchar_touches_iff 65 0xF
    ⟨blackScreen, ⟨3, 79⟩, keyboardStateActivate⟩ ⟨by decide, by decide⟩
  refine ⟨s', hrun, hcursor, hiff.mpr fun x y _ hclear => ?_⟩
  rcases hclear with ⟨h, -⟩ | ⟨h, -⟩
  · exact absurd h (by decide)
  · exact absurd h (by decide)

/-- A white screen. -/
def whiteScreen : Vga := ⟨fun _ _ => 0xFF, 0, fun _ => 0, 0, fun _ => 0⟩

/-- A newline takes away what stands below the cursor. -/
theorem putchar_clears_below : ∃ s', putchar 10 0xF
      ⟨whiteScreen, ⟨1, 5⟩, keyboardStateActivate⟩ = some s' ∧
    ((40 : ℤ), (16 : ℤ)) ∉ putcharCells 10 ⟨whiteScreen, ⟨1, 5⟩, keyboardStateActivate⟩ ∧
    pixels s'.vga 40 16 0 = false ∧ pixels whiteScreen 40 16 0 = true := by
  obtain ⟨v, hrun, hchanges⟩ := putchar_run 10 0xF ⟨whiteScreen, ⟨1, 5⟩, keyboardStateActivate⟩
  have hout : ((40 : ℤ), (16 : ℤ)) ∉
      putcharCells 10 ⟨whiteScreen, ⟨1, 5⟩, keyboardStateActivate⟩ := by
    rintro ((⟨-, -, -, h⟩ | ⟨-, h, -, -⟩) | ⟨-, h, -, -⟩) <;> exact absurd h (by decide)
  refine ⟨_, hrun, hout, ?_, by decide⟩
  exact congrFun ((hchanges 40 16 hout).1 (mem_putcharCleared.mpr
    (Or.inl ⟨by decide, by decide, by decide, by decide, by decide⟩))) 0

end LossOs.Drivers
