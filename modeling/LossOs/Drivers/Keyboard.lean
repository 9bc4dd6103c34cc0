/-
  `drivers/keyboard.c`: from scancodes to characters.

  `keyboardIsr` is the interrupt for one scancode. `charOf` says which character a scancode stands
  for, if any. With caps lock on, two of the driver's branches do something else: without shift a
  key that has no character clears the buffer, with shift a symbol is not shifted. A scancode that
  `Translates` is clear of both, and then each call of `get_keyboard_buffer` returns the last
  character since the call before (`keyboard_chars`).
-/
import Mathlib.Data.List.Induction

namespace LossOs.Drivers

/-! ## The driver -/

def SCANCODE_SHIFT_LEFT : UInt8 := 0x2A
def SCANCODE_SHIFT_RIGHT : UInt8 := 0x36
def SCANCODE_CAPS_LOCK : UInt8 := 0x3A
def EXT_SCANCODE_UP : UInt8 := 0x48
def EXT_SCANCODE_DOWN : UInt8 := 0x50
def EXT_SCANCODE_LEFT : UInt8 := 0x4B
def EXT_SCANCODE_RIGHT : UInt8 := 0x4D
def KEY_NONE : UInt8 := 0x00
def KEY_UP : UInt8 := 0x01
def KEY_DOWN : UInt8 := 0x02
def KEY_LEFT : UInt8 := 0x03
def KEY_RIGHT : UInt8 := 0x04
def EXTENDED_SCANCODE_BYTE : UInt8 := 0xE0

/-- `keyboard_scancode_1_to_ascii_map`, up to the zeros of its second half. -/
def asciiMap : List UInt8 := [
  0, 27, 49, 50, 51, 52, 53, 54, 55, 56, 57, 48, 45, 61, 8, 9,
  113, 119, 101, 114, 116, 121, 117, 105, 111, 112, 91, 93, 10, 0, 97, 115,
  100, 102, 103, 104, 106, 107, 108, 59, 39, 96, 0, 92, 122, 120, 99, 118,
  98, 110, 109, 44, 46, 47, 0, 42, 0, 32, 0, 0, 0, 0, 0, 0,
  0, 0, 0, 0, 0, 0, 0, 0, 0, 0, 45, 0, 0, 0, 43, 0,
  0, 0, 0, 0, 0, 0, 0, 0, 0, 0, 0, 0, 0, 0, 0, 0,
  0, 0, 0, 0, 0, 0, 0, 0, 0, 0, 0, 0, 0, 0, 0, 0,
  0, 0, 0, 0, 0, 0, 0, 0, 0, 0, 0, 0, 0, 0, 0, 0]

/-- `keyboard_scancode_1_to_ascii_uppercase_map`, up to the zeros of its second half. -/
def asciiUppercaseMap : List UInt8 := [
  0, 27, 33, 64, 35, 36, 37, 94, 38, 42, 40, 41, 95, 43, 8, 9,
  81, 87, 69, 82, 84, 89, 85, 73, 79, 80, 123, 125, 10, 0, 65, 83,
  68, 70, 71, 72, 74, 75, 76, 58, 34, 126, 0, 124, 90, 88, 67, 86,
  66, 78, 77, 60, 62, 63, 0, 42, 0, 32, 0, 0, 0, 0, 0, 0,
  0, 0, 0, 0, 0, 0, 0, 0, 0, 0, 45, 0, 0, 0, 43, 0,
  0, 0, 0, 0, 0, 0, 0, 0, 0, 0, 0, 0, 0, 0, 0, 0,
  0, 0, 0, 0, 0, 0, 0, 0, 0, 0, 0, 0, 0, 0, 0, 0,
  0, 0, 0, 0, 0, 0, 0, 0, 0, 0, 0, 0, 0, 0, 0, 0]

def keyboardScancode1ToAsciiMap (scancode : UInt8) : UInt8 := asciiMap.getD scancode.toNat 0

def keyboardScancode1ToAsciiUppercaseMap (scancode : UInt8) : UInt8 :=
  asciiUppercaseMap.getD scancode.toNat 0

structure KeyboardDriverState where
  readExtendedMode : Bool
  keyboardInputOn : Bool
  keyboardBuffer : UInt8
  shiftPressed : Bool
  capsLockOn : Bool
  specialKey : UInt8
  deriving DecidableEq

/-- `keyboard_state_activate`. -/
def keyboardStateActivate : KeyboardDriverState where
  readExtendedMode := false
  keyboardInputOn := true
  keyboardBuffer := 0
  shiftPressed := false
  capsLockOn := false
  specialKey := KEY_NONE

/-- `get_keyboard_buffer`: the character, and the state afterwards. -/
def getKeyboardBuffer (s : KeyboardDriverState) : UInt8 × KeyboardDriverState :=
  (s.keyboardBuffer, { s with keyboardBuffer := 0 })

/-- `get_special_key`. -/
def getSpecialKey (s : KeyboardDriverState) : UInt8 × KeyboardDriverState :=
  (s.specialKey, { s with specialKey := KEY_NONE })

/-- `keyboard_isr`, for the scancode that is read from the port. -/
def keyboardIsr (scancode : UInt8) (s : KeyboardDriverState) : KeyboardDriverState :=
  if s.keyboardInputOn then
    if scancode = EXTENDED_SCANCODE_BYTE then { s with readExtendedMode := true }
    else
      let isBreakCode : Bool := scancode &&& 0x80 ≠ 0
      let cleanScancode := scancode &&& 0x7F
      if !s.readExtendedMode then
        if cleanScancode = SCANCODE_SHIFT_LEFT ∨ cleanScancode = SCANCODE_SHIFT_RIGHT then
          { s with shiftPressed := !isBreakCode }
        else if cleanScancode = SCANCODE_CAPS_LOCK ∧ !isBreakCode then
          { s with capsLockOn := !s.capsLockOn }
        else if !isBreakCode then
          let useUppercase := xor s.shiftPressed s.capsLockOn
          if s.capsLockOn ∧ !s.shiftPressed then
            let c := keyboardScancode1ToAsciiMap scancode
            if 97 ≤ c ∧ c ≤ 122 then { s with keyboardBuffer := c - 32 }
            else { s with keyboardBuffer := c }
          else
            let mapped := if useUppercase then keyboardScancode1ToAsciiUppercaseMap scancode
              else keyboardScancode1ToAsciiMap scancode
            if mapped ≠ 0 then { s with keyboardBuffer := mapped } else s
        else s
      else if !isBreakCode then
        let specialKey :=
          if cleanScancode = EXT_SCANCODE_UP then KEY_UP
          else if cleanScancode = EXT_SCANCODE_DOWN then KEY_DOWN
          else if cleanScancode = EXT_SCANCODE_LEFT then KEY_LEFT
          else if cleanScancode = EXT_SCANCODE_RIGHT then KEY_RIGHT
          else s.specialKey
        { s with specialKey := specialKey, readExtendedMode := false }
      else { s with readExtendedMode := false }
  else s

/-! ## What a scancode stands for -/

/-- The key has a letter. -/
def IsLetter (key : UInt8) : Prop :=
  97 ≤ keyboardScancode1ToAsciiMap key ∧ keyboardScancode1ToAsciiMap key ≤ 122

instance (key : UInt8) : Decidable (IsLetter key) := inferInstanceAs (Decidable (_ ∧ _))

/-- The character of a key: letters are in upper case when one of shift and caps lock is on, other
    characters are shifted with shift. -/
def keyChar (shift caps : Bool) (key : UInt8) : UInt8 :=
  if IsLetter key then
    if shift ≠ caps then keyboardScancode1ToAsciiMap key - 32 else keyboardScancode1ToAsciiMap key
  else if shift then keyboardScancode1ToAsciiUppercaseMap key
  else keyboardScancode1ToAsciiMap key

/-- The character of a make code, where its key has one. -/
def charOf (s : KeyboardDriverState) (scancode : UInt8) : Option UInt8 :=
  if s.readExtendedMode ∨ 0x80 ≤ scancode ∨ keyboardScancode1ToAsciiMap scancode = 0 then none
  else some (keyChar s.shiftPressed s.capsLockOn scancode)

/-- With caps lock on: shifted, the key has no character, a letter, or the same character in both
    maps; not shifted, a key without a character finds the buffer empty. Only make codes count that
    are neither extended nor one of the modifiers. -/
def Translates (s : KeyboardDriverState) (scancode : UInt8) : Prop :=
  s.readExtendedMode = false → scancode < 0x80 → scancode ≠ SCANCODE_SHIFT_LEFT →
    scancode ≠ SCANCODE_SHIFT_RIGHT → scancode ≠ SCANCODE_CAPS_LOCK → s.capsLockOn = true →
      if s.shiftPressed then keyboardScancode1ToAsciiMap scancode = 0 ∨ IsLetter scancode ∨
        keyboardScancode1ToAsciiMap scancode = keyboardScancode1ToAsciiUppercaseMap scancode
      else keyboardScancode1ToAsciiMap scancode = 0 → s.keyboardBuffer = 0

/-! ## The maps -/

section Maps

variable {P : UInt8 → Prop} {b : UInt8}

theorem forall_uint8 (h : ∀ n < 256, P (UInt8.ofNat n)) (b : UInt8) : P b := by
  have hb := h b.toNat b.toNat_lt
  rwa [UInt8.ofNat_toNat] at hb

theorem isBreakCode_iff (b : UInt8) : b &&& 0x80 ≠ 0 ↔ 0x80 ≤ b := by
  revert b
  exact forall_uint8 (by decide +kernel)

theorem cleanScancode_eq (b : UInt8) : b < 0x80 → b &&& 0x7F = b := by
  revert b
  exact forall_uint8 (by decide +kernel)

/-- The letters of the second map are those of the first in upper case. -/
theorem uppercase_letter (b : UInt8) : IsLetter b → keyboardScancode1ToAsciiMap b ≠ 0 ∧
    keyboardScancode1ToAsciiUppercaseMap b = keyboardScancode1ToAsciiMap b - 32 ∧
    keyboardScancode1ToAsciiMap b - 32 ≠ keyboardScancode1ToAsciiMap b := by
  revert b
  exact forall_uint8 (by decide +kernel)

/-- The same keys have a character in both maps. -/
theorem uppercase_zero (b : UInt8) :
    keyboardScancode1ToAsciiUppercaseMap b = 0 ↔ keyboardScancode1ToAsciiMap b = 0 := by
  revert b
  exact forall_uint8 (by decide +kernel)

/-- The modifiers have none. -/
theorem modifier_zero (h : b = SCANCODE_SHIFT_LEFT ∨ b = SCANCODE_SHIFT_RIGHT ∨
    b = SCANCODE_CAPS_LOCK) : keyboardScancode1ToAsciiMap b = 0 := by
  rcases h with rfl | rfl | rfl <;> decide

end Maps

/-! ## One interrupt -/

section Interrupt

variable {s : KeyboardDriverState} {b : UInt8}

/-- A make code of a key that is no modifier. -/
def Plain (s : KeyboardDriverState) (b : UInt8) : Prop :=
  s.readExtendedMode = false ∧ b < 0x80 ∧ b ≠ SCANCODE_SHIFT_LEFT ∧ b ≠ SCANCODE_SHIFT_RIGHT ∧
    b ≠ SCANCODE_CAPS_LOCK

/-- What such a make code stores. -/
def stored (s : KeyboardDriverState) (b : UInt8) : UInt8 :=
  if s.capsLockOn = true ∧ s.shiftPressed = false then
    if IsLetter b then keyboardScancode1ToAsciiMap b - 32 else keyboardScancode1ToAsciiMap b
  else if keyboardScancode1ToAsciiMap b = 0 then s.keyboardBuffer
  else if s.shiftPressed = true ∧ s.capsLockOn = false then keyboardScancode1ToAsciiUppercaseMap b
  else keyboardScancode1ToAsciiMap b

theorem isr_inputOn (b : UInt8) (s : KeyboardDriverState) :
    (keyboardIsr b s).keyboardInputOn = s.keyboardInputOn := by
  unfold keyboardIsr
  simp only [apply_ite KeyboardDriverState.keyboardInputOn, ite_self]

/-- The interrupt is in extended mode just after the byte 0xE0. -/
theorem isr_extended (hon : s.keyboardInputOn = true) :
    (keyboardIsr b s).readExtendedMode = decide (b = EXTENDED_SCANCODE_BYTE) := by
  unfold keyboardIsr
  rw [if_pos hon]
  by_cases hb : b = EXTENDED_SCANCODE_BYTE
  · rw [if_pos hb, decide_eq_true hb]
  · rw [if_neg hb, decide_eq_false hb]
    cases he : s.readExtendedMode
    · rw [Bool.not_false, if_pos rfl]
      dsimp only
      split_ifs <;> first | rfl | exact he
    · rw [Bool.not_true, if_neg (by decide)]
      split_ifs <;> rfl

theorem isr_plain (hon : s.keyboardInputOn = true) (hp : Plain s b) :
    keyboardIsr b s = { s with keyboardBuffer := stored s b } := by
  obtain ⟨hext, hlt, hl, hr, hc⟩ := hp
  have hbreak : decide (b &&& 0x80 ≠ 0) = false := decide_eq_false fun h =>
    absurd hlt (UInt8.not_lt.mpr ((isBreakCode_iff b).mp h))
  have hE0 : b ≠ EXTENDED_SCANCODE_BYTE := by
    rintro rfl
    exact absurd hlt (by decide)
  unfold keyboardIsr
  dsimp only
  rw [if_pos hon, if_neg hE0, hext, hbreak, cleanScancode_eq b hlt, Bool.not_false, if_pos rfl,
    if_neg (not_or_intro hl hr), if_neg fun h => hc h.1, if_pos rfl]
  have hup := uppercase_zero b
  obtain ⟨ext, on, buf, shift, caps, special⟩ := s
  unfold stored IsLetter
  obtain rfl : ext = false := hext
  by_cases h0 : keyboardScancode1ToAsciiMap b = 0
  · cases caps <;> cases shift <;> simp [h0, hup]
  · by_cases hletter : 97 ≤ keyboardScancode1ToAsciiMap b ∧ keyboardScancode1ToAsciiMap b ≤ 122
    · cases caps <;> cases shift <;> simp [h0, hup, hletter]
    · cases caps <;> cases shift <;> simp [h0, hup, hletter]

/-- Other scancodes leave the character. -/
theorem isr_other (hon : s.keyboardInputOn = true) (hp : ¬ Plain s b) :
    (keyboardIsr b s).keyboardBuffer = s.keyboardBuffer := by
  unfold keyboardIsr
  dsimp only
  rw [if_pos hon]
  by_cases hE0 : b = EXTENDED_SCANCODE_BYTE
  · rw [if_pos hE0]
  rw [if_neg hE0]
  by_cases hext : s.readExtendedMode = true
  · rw [hext, Bool.not_true, if_neg (by decide)]
    split_ifs <;> rfl
  replace hext : s.readExtendedMode = false := Bool.eq_false_iff.mpr hext
  rw [hext, Bool.not_false, if_pos rfl]
  by_cases hlt : b < 0x80
  · rw [cleanScancode_eq b hlt]
    by_cases hshift : b = SCANCODE_SHIFT_LEFT ∨ b = SCANCODE_SHIFT_RIGHT
    · rw [if_pos hshift]
    · have hbreak : decide (b &&& 0x80 ≠ 0) = false := decide_eq_false fun h =>
        absurd hlt (UInt8.not_lt.mpr ((isBreakCode_iff b).mp h))
      have hcaps : b = SCANCODE_CAPS_LOCK := by
        by_contra hc
        exact hp ⟨hext, hlt, fun h => hshift (Or.inl h), fun h => hshift (Or.inr h), hc⟩
      rw [if_neg hshift, if_pos ⟨hcaps, by rw [hbreak]; rfl⟩]
  · have hbreak : decide (b &&& 0x80 ≠ 0) = true :=
      decide_eq_true ((isBreakCode_iff b).mpr (UInt8.not_lt.mp hlt))
    rw [hbreak, Bool.not_true]
    by_cases h1 : b &&& 0x7F = SCANCODE_SHIFT_LEFT ∨ b &&& 0x7F = SCANCODE_SHIFT_RIGHT
    · rw [if_pos h1]
    · rw [if_neg h1, if_neg fun h => absurd h.2 Bool.false_ne_true, if_neg Bool.false_ne_true]

/-- A scancode that is no plain make code has no character. -/
theorem charOf_other (hp : ¬ Plain s b) : charOf s b = none := by
  unfold charOf
  apply if_pos
  by_cases hext : s.readExtendedMode = true
  · exact Or.inl hext
  by_cases hlt : b < 0x80
  · refine Or.inr (Or.inr (modifier_zero ?_))
    by_contra hmod
    exact hp ⟨Bool.eq_false_iff.mpr hext, hlt, fun h => hmod (Or.inl h),
      fun h => hmod (Or.inr (Or.inl h)), fun h => hmod (Or.inr (Or.inr h))⟩
  · exact Or.inr (Or.inl (UInt8.not_lt.mp hlt))

/-- What is stored is the character, or nothing, exactly when the scancode translates. -/
theorem stored_eq_iff (hp : Plain s b) :
    stored s b = (charOf s b).getD s.keyboardBuffer ↔ Translates s b := by
  obtain ⟨hext, hlt, hl, hr, hc⟩ := hp
  have hiff : Translates s b ↔ (s.capsLockOn = true → if s.shiftPressed then
      keyboardScancode1ToAsciiMap b = 0 ∨ IsLetter b ∨
        keyboardScancode1ToAsciiMap b = keyboardScancode1ToAsciiUppercaseMap b
      else keyboardScancode1ToAsciiMap b = 0 → s.keyboardBuffer = 0) :=
    ⟨fun h => h hext hlt hl hr hc, fun h _ _ _ _ _ => h⟩
  rw [hiff]
  have hletter := uppercase_letter b
  have hnot : ¬ 0x80 ≤ b := UInt8.not_le.mpr hlt
  obtain ⟨ext, on, buf, shift, caps, special⟩ := s
  obtain rfl : ext = false := hext
  unfold stored charOf keyChar
  by_cases h0 : keyboardScancode1ToAsciiMap b = 0
  · -- no character, so no letter either
    have hno : ¬ IsLetter b := fun h => (hletter h).1 h0
    cases caps <;> cases shift <;> simp [h0, hno]
    exact eq_comm
  · by_cases hl : IsLetter b
    · obtain ⟨-, hup, -⟩ := hletter hl
      cases caps <;> cases shift <;> simp [h0, hnot, hl, hup]
    · cases caps <;> cases shift <;> simp [h0, hnot, hl]

/-- The character that is pending after an interrupt is the right one exactly when the scancode
    translates. -/
theorem isr_buffer_iff (hon : s.keyboardInputOn = true) :
    (keyboardIsr b s).keyboardBuffer = (charOf s b).getD s.keyboardBuffer ↔ Translates s b := by
  by_cases hp : Plain s b
  · rw [isr_plain hon hp]
    exact stored_eq_iff hp
  · rw [isr_other hon hp, charOf_other hp]
    exact ⟨fun _ h1 h2 h3 h4 h5 => absurd ⟨h1, h2, h3, h4, h5⟩ hp, fun _ => rfl⟩

end Interrupt

/-! ## Runs -/

/-- An interrupt, or a call. -/
inductive KeyboardEvent where
  | scancode (b : UInt8)
  | getKeyboardBuffer

def KeyboardEvent.step (s : KeyboardDriverState) : KeyboardEvent → KeyboardDriverState
  | .scancode b => keyboardIsr b s
  | .getKeyboardBuffer => (LossOs.Drivers.getKeyboardBuffer s).2

/-- The state after some events. -/
def afterEvents (s : KeyboardDriverState) (es : List KeyboardEvent) : KeyboardDriverState :=
  es.foldl KeyboardEvent.step s

/-- The state after some scancodes. -/
def afterScancodes (s : KeyboardDriverState) (bs : List UInt8) : KeyboardDriverState :=
  bs.foldl (fun s b => keyboardIsr b s) s

/-- The characters of the scancodes, in order. -/
def typed (s : KeyboardDriverState) : List UInt8 → List UInt8
  | [] => []
  | b :: bs => (charOf s b).toList ++ typed (keyboardIsr b s) bs

section Runs

variable {s : KeyboardDriverState} {bs : List UInt8}

theorem afterEvents_inputOn (hon : s.keyboardInputOn = true) (es : List KeyboardEvent) :
    (afterEvents s es).keyboardInputOn = true := by
  induction es generalizing s with
  | nil => exact hon
  | cons e es ih =>
    apply ih
    cases e with
    | scancode b => exact (isr_inputOn b s).trans hon
    | getKeyboardBuffer => exact hon

theorem afterScancodes_inputOn (hon : s.keyboardInputOn = true) (bs : List UInt8) :
    (afterScancodes s bs).keyboardInputOn = true := by
  have h := afterEvents_inputOn hon (bs.map .scancode)
  unfold afterEvents at h
  rwa [List.foldl_map] at h

theorem afterScancodes_concat (s : KeyboardDriverState) (as : List UInt8) (b : UInt8) :
    afterScancodes s (as ++ [b]) = keyboardIsr b (afterScancodes s as) := by
  unfold afterScancodes
  rw [List.foldl_append]
  rfl

theorem typed_concat (s : KeyboardDriverState) (as : List UInt8) (b : UInt8) :
    typed s (as ++ [b]) = typed s as ++ (charOf (afterScancodes s as) b).toList := by
  induction as generalizing s with
  | nil => exact List.append_nil _
  | cons a as ih =>
    show (charOf s a).toList ++ typed (keyboardIsr a s) (as ++ [b]) = _
    rw [ih, ← List.append_assoc]
    rfl

/-- The last character with one more scancode. -/
theorem last_concat (s : KeyboardDriverState) (as : List UInt8) (b : UInt8) :
    (typed s (as ++ [b])).getLast?.getD 0 =
      (charOf (afterScancodes s as) b).getD ((typed s as).getLast?.getD 0) := by
  rw [typed_concat, List.getLast?_append]
  cases charOf (afterScancodes s as) b <;> rfl

/-- What is pending is right from one scancode to the next exactly when that one translates. -/
theorem pending_iff (hon : s.keyboardInputOn = true) (as : List UInt8) (b : UInt8)
    (has : (afterScancodes s as).keyboardBuffer = (typed s as).getLast?.getD 0) :
    (afterScancodes s (as ++ [b])).keyboardBuffer = (typed s (as ++ [b])).getLast?.getD 0 ↔
      Translates (afterScancodes s as) b := by
  rw [last_concat, afterScancodes_concat, ← has]
  exact isr_buffer_iff (afterScancodes_inputOn hon as)

/-- With scancodes that translate it is right throughout. -/
theorem pending_of_translates (hon : s.keyboardInputOn = true) (hempty : s.keyboardBuffer = 0)
    (hbs : ∀ as b cs, bs = as ++ b :: cs → Translates (afterScancodes s as) b) :
    (afterScancodes s bs).keyboardBuffer = (typed s bs).getLast?.getD 0 := by
  induction bs using List.reverseRecOn with
  | nil => exact hempty
  | append_singleton as b ih =>
    refine (pending_iff hon as b (ih fun as' c cs heq => ?_)).mpr (hbs as b [] rfl)
    exact hbs as' c (cs ++ [b]) (by rw [heq, List.append_assoc, List.cons_append])

end Runs

/-! ## Result -/

/-- From activation on, or from a call on: a call returns the last character of the scancodes since,
    or 0, whenever it comes, exactly when all these scancodes translate. -/
theorem keyboard_chars (es : List KeyboardEvent) (bs : List UInt8)
    (hes : es = [] ∨ ∃ es', es = es' ++ [.getKeyboardBuffer]) :
    let s := afterEvents keyboardStateActivate es
    (∀ as cs, bs = as ++ cs →
      (getKeyboardBuffer (afterScancodes s as)).1 = (typed s as).getLast?.getD 0) ↔
      ∀ as b cs, bs = as ++ b :: cs → Translates (afterScancodes s as) b := by
  intro s
  have hon : s.keyboardInputOn = true := afterEvents_inputOn rfl es
  have hempty : s.keyboardBuffer = 0 := by
    rcases hes with rfl | ⟨es', rfl⟩
    · rfl
    · show (afterEvents keyboardStateActivate (es' ++ [.getKeyboardBuffer])).keyboardBuffer = 0
      unfold afterEvents
      rw [List.foldl_append]
      rfl
  refine ⟨fun h as b cs heq => ?_, fun h as cs heq => ?_⟩
  · refine (pending_iff hon as b (h as (b :: cs) heq)).mp (h (as ++ [b]) cs ?_)
    rw [heq, List.append_assoc, List.singleton_append]
  · apply pending_of_translates hon hempty
    intro as' b cs' heq'
    exact h as' b (cs' ++ cs) (by rw [heq, heq', List.append_assoc, List.cons_append])

/-- The key A, after a call. -/
theorem keyboard_chars_a : (getKeyboardBuffer (afterScancodes
    (afterEvents keyboardStateActivate [.getKeyboardBuffer]) [0x1E, 0x9E])).1 = 97 := by
  refine ((keyboard_chars [.getKeyboardBuffer] [0x1E, 0x9E] (Or.inr ⟨[], rfl⟩)).mpr
    (fun as b cs heq _ _ _ _ _ hcaps => ?_) [0x1E, 0x9E] [] rfl).trans (by decide)
  -- no scancode turns caps lock on
  exfalso
  match as, heq with
  | [], _ => exact absurd hcaps (by decide)
  | [_], heq =>
    cases heq
    exact absurd hcaps (by decide)
  | _ :: _ :: _, heq => simp at heq

/-- With caps lock on and shift pressed, the key 1 gives 1, and a key without a character takes
    away what was typed. -/
theorem keyboard_chars_caps :
    ((getKeyboardBuffer (afterScancodes keyboardStateActivate [0x3A, 0xBA, 0x2A, 0x02])).1 = 49 ∧
      (typed keyboardStateActivate [0x3A, 0xBA, 0x2A, 0x02]).getLast? = some 33) ∧
    (getKeyboardBuffer (afterScancodes keyboardStateActivate [0x3A, 0xBA, 0x1E, 0x3B])).1 = 0 ∧
      (typed keyboardStateActivate [0x3A, 0xBA, 0x1E, 0x3B]).getLast? = some 65 := by
  decide

end LossOs.Drivers
