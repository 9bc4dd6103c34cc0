/-
  `drivers/keyboard.c`: the shift keys.

  Both keys share the field `shift_pressed`, so the break code of one of them clears it while the
  other one is held. `ReleasesOne` says that this is what the last code of a shift key did; these
  are the sequences after which `is_shift_pressed` is not what the keys say (`shift_held_iff`).
-/
import LossOs.Drivers.Keyboard

namespace LossOs.Drivers

/-- `is_shift_pressed`. -/
def isShiftPressed (s : KeyboardDriverState) : Bool := s.shiftPressed

/-! ## The keys -/

inductive ShiftKey where
  | left
  | right
  deriving DecidableEq

namespace ShiftKey

def makeCode : ShiftKey → UInt8
  | left => SCANCODE_SHIFT_LEFT
  | right => SCANCODE_SHIFT_RIGHT

/-- The make code with its highest bit set. -/
def breakCode (k : ShiftKey) : UInt8 := k.makeCode ||| 0x80

def other : ShiftKey → ShiftKey
  | left => right
  | right => left

theorem breakCode_inj {k k' : ShiftKey} (h : k.breakCode = k'.breakCode) : k = k' := by
  revert h
  cases k <;> cases k' <;> decide

theorem makeCode_ne_breakCode (k k' : ShiftKey) : k.makeCode ≠ k'.breakCode := by
  cases k <;> cases k' <;> decide

theorem eq_other {k k' : ShiftKey} (h : k'.breakCode ≠ k.breakCode) : k = k'.other := by
  revert h
  cases k <;> cases k' <;> decide

theorem breakCode_ne_other (k : ShiftKey) : k.breakCode ≠ k.other.breakCode := by
  cases k <;> decide

end ShiftKey

/-- A code of one of the two keys. -/
def IsShiftCode (c : UInt8) : Prop := ∃ k : ShiftKey, c = k.makeCode ∨ c = k.breakCode

/-- The codes that are no part of an extended sequence: 0xE0 and the code that it announces are left
    out. -/
def plainCodes : Bool → List UInt8 → List UInt8
  | _, [] => []
  | ext, b :: bs =>
    if b = EXTENDED_SCANCODE_BYTE then plainCodes true bs
    else if ext then plainCodes false bs
    else b :: plainCodes false bs

/-- The key has sent a make code that no break code of it follows. -/
def HeldIn (k : ShiftKey) (cs : List UInt8) : Prop :=
  ∃ pre post, cs = pre ++ k.makeCode :: post ∧ k.breakCode ∉ post

def Held (k : ShiftKey) (bs : List UInt8) : Prop := HeldIn k (plainCodes false bs)

/-- The last code of a shift key is a break code, of one of them while the other one is held. -/
def ReleasesOneIn (cs : List UInt8) : Prop :=
  ∃ (k : ShiftKey) (pre post : List UInt8), cs = pre ++ k.breakCode :: post ∧
    (∀ c ∈ post, ¬ IsShiftCode c) ∧ HeldIn k.other pre

def ReleasesOne (bs : List UInt8) : Prop := ReleasesOneIn (plainCodes false bs)

/-! ## One more code -/

section Codes

variable {k : ShiftKey} {cs : List UInt8} {c : UInt8}

theorem not_heldIn_nil (k : ShiftKey) : ¬ HeldIn k [] := by
  rintro ⟨pre, post, h, -⟩
  exact List.append_ne_nil_of_right_ne_nil pre (List.cons_ne_nil _ post) h.symm

theorem not_releasesOneIn_nil : ¬ ReleasesOneIn [] := by
  rintro ⟨k, pre, post, h, -⟩
  exact List.append_ne_nil_of_right_ne_nil pre (List.cons_ne_nil _ post) h.symm

/-- A list cut at one of its elements, of a list with one more element. -/
theorem concat_eq_append_cons {pre post : List UInt8} {a : UInt8}
    (h : cs ++ [c] = pre ++ a :: post) :
    (post = [] ∧ c = a ∧ cs = pre) ∨ ∃ post', post = post' ++ [c] ∧ cs = pre ++ a :: post' := by
  induction post using List.reverseRecOn with
  | nil =>
    obtain ⟨hcs, hc⟩ := List.append_inj' h rfl
    exact Or.inl ⟨rfl, List.singleton_inj.mp hc, hcs⟩
  | append_singleton post d _ =>
    rw [← List.cons_append, ← List.append_assoc] at h
    obtain ⟨hcs, hd⟩ := List.append_inj' h rfl
    exact Or.inr ⟨post, by rw [hd], hcs⟩

theorem heldIn_concat :
    HeldIn k (cs ++ [c]) ↔ c = k.makeCode ∨ (c ≠ k.breakCode ∧ HeldIn k cs) := by
  constructor
  · rintro ⟨pre, post, h, hpost⟩
    rcases concat_eq_append_cons h with ⟨-, hc, -⟩ | ⟨post', rfl, hcs⟩
    · exact Or.inl hc
    · rw [List.mem_append, not_or, List.mem_singleton] at hpost
      exact Or.inr ⟨Ne.symm hpost.2, pre, post', hcs, hpost.1⟩
  · rintro (rfl | ⟨hc, pre, post, rfl, hpost⟩)
    · exact ⟨cs, [], rfl, List.not_mem_nil⟩
    · refine ⟨pre, post ++ [c], by rw [List.append_assoc, List.cons_append], ?_⟩
      rw [List.mem_append, not_or, List.mem_singleton]
      exact ⟨hpost, Ne.symm hc⟩

theorem releasesOneIn_concat : ReleasesOneIn (cs ++ [c]) ↔
    (∃ k : ShiftKey, c = k.breakCode ∧ HeldIn k.other cs) ∨
      (¬ IsShiftCode c ∧ ReleasesOneIn cs) := by
  constructor
  · rintro ⟨k, pre, post, h, hpost, hheld⟩
    rcases concat_eq_append_cons h with ⟨-, hc, rfl⟩ | ⟨post', rfl, hcs⟩
    · exact Or.inl ⟨k, hc, hheld⟩
    · refine Or.inr ⟨hpost c (by simp), k, pre, post', hcs, fun d hd => ?_, hheld⟩
      exact hpost d (List.mem_append_left _ hd)
  · rintro (⟨k, rfl, hheld⟩ | ⟨hc, k, pre, post, rfl, hpost, hheld⟩)
    · exact ⟨k, cs, [], rfl, fun d hd => absurd hd List.not_mem_nil, hheld⟩
    · refine ⟨k, pre, post ++ [c], by rw [List.append_assoc, List.cons_append], fun d hd => ?_,
        hheld⟩
      rcases List.mem_append.mp hd with hd | hd
      · exact hpost d hd
      · rwa [List.mem_singleton.mp hd]

end Codes

/-! ## The flag -/

/-- What a code that is not extended does to the flag. -/
def shiftAfter (shift : Bool) (c : UInt8) : Bool :=
  if c &&& 0x7F = SCANCODE_SHIFT_LEFT ∨ c &&& 0x7F = SCANCODE_SHIFT_RIGHT then
    !decide (c &&& 0x80 ≠ 0)
  else shift

section Flag

variable {s : KeyboardDriverState} {b c : UInt8}

theorem shiftAfter_makeCode (shift : Bool) (k : ShiftKey) :
    shiftAfter shift k.makeCode = true := by
  cases k <;> cases shift <;> decide

theorem shiftAfter_breakCode (shift : Bool) (k : ShiftKey) :
    shiftAfter shift k.breakCode = false := by
  cases k <;> cases shift <;> decide

/-- The driver compares the code without its highest bit. -/
theorem cleanScancode_shift (c : UInt8) :
    c &&& 0x7F = SCANCODE_SHIFT_LEFT ∨ c &&& 0x7F = SCANCODE_SHIFT_RIGHT →
      (c = ShiftKey.left.makeCode ∨ c = ShiftKey.left.breakCode) ∨
        c = ShiftKey.right.makeCode ∨ c = ShiftKey.right.breakCode := by
  revert c
  exact forall_uint8 (by decide +kernel)

theorem shiftAfter_other (shift : Bool) (hc : ¬ IsShiftCode c) : shiftAfter shift c = shift := by
  apply if_neg
  intro h
  exact hc ((cleanScancode_shift c h).elim (fun h => ⟨.left, h⟩) fun h => ⟨.right, h⟩)

/-- 0xE0, and the code behind it, leave the flag. -/
theorem isr_shift_extended (h : b = EXTENDED_SCANCODE_BYTE ∨ s.readExtendedMode = true) :
    (keyboardIsr b s).shiftPressed = s.shiftPressed := by
  unfold keyboardIsr
  by_cases hon : s.keyboardInputOn = true
  · rw [if_pos hon]
    by_cases hb : b = EXTENDED_SCANCODE_BYTE
    · rw [if_pos hb]
    · rw [if_neg hb, h.resolve_left hb, Bool.not_true, if_neg Bool.false_ne_true]
      split_ifs <;> rfl
  · rw [if_neg hon]

theorem isr_shift_plain (hon : s.keyboardInputOn = true) (hb : b ≠ EXTENDED_SCANCODE_BYTE)
    (hext : s.readExtendedMode = false) :
    (keyboardIsr b s).shiftPressed = shiftAfter s.shiftPressed b := by
  unfold keyboardIsr shiftAfter
  rw [if_pos hon, if_neg hb, hext, Bool.not_false, if_pos rfl]
  dsimp only
  by_cases hshift : b &&& 0x7F = SCANCODE_SHIFT_LEFT ∨ b &&& 0x7F = SCANCODE_SHIFT_RIGHT
  · rw [if_pos hshift, if_pos hshift]
  · rw [if_neg hshift, if_neg hshift]
    split_ifs <;> rfl

/-- The flag after some scancodes depends on the plain codes alone. -/
theorem afterScancodes_shift (hon : s.keyboardInputOn = true) (bs : List UInt8) :
    (afterScancodes s bs).shiftPressed =
      (plainCodes s.readExtendedMode bs).foldl shiftAfter s.shiftPressed := by
  induction bs generalizing s with
  | nil => rfl
  | cons b bs ih =>
    have hnext := isr_extended (b := b) hon
    show (afterScancodes (keyboardIsr b s) bs).shiftPressed = _
    rw [ih ((isr_inputOn b s).trans hon), hnext, plainCodes]
    by_cases hb : b = EXTENDED_SCANCODE_BYTE
    · rw [if_pos hb, decide_eq_true hb, isr_shift_extended (Or.inl hb)]
    · rw [if_neg hb, decide_eq_false hb]
      cases hext : s.readExtendedMode with
      | true => rw [if_pos rfl, isr_shift_extended (Or.inr hext)]
      | false =>
        rw [if_neg Bool.false_ne_true, isr_shift_plain hon hb hext]
        rfl

/-- After every list of plain codes. -/
theorem foldl_shiftAfter_iff (cs : List UInt8) :
    (cs.foldl shiftAfter false = true ↔ ∃ k, HeldIn k cs) ↔ ¬ ReleasesOneIn cs := by
  induction cs using List.reverseRecOn with
  | nil =>
    refine ⟨fun _ => not_releasesOneIn_nil, fun _ => ⟨fun h => absurd h Bool.false_ne_true, ?_⟩⟩
    rintro ⟨k, h⟩
    exact absurd h (not_heldIn_nil k)
  | append_singleton cs c ih =>
    rw [List.foldl_append, releasesOneIn_concat]
    show (shiftAfter (cs.foldl shiftAfter false) c = true ↔ _) ↔ _
    by_cases hc : IsShiftCode c
    · obtain ⟨k, rfl | rfl⟩ := hc
      · -- a key goes down
        have hheld : HeldIn k (cs ++ [k.makeCode]) := heldIn_concat.mpr (Or.inl rfl)
        refine ⟨fun _ => ?_, fun _ => ⟨fun _ => ⟨k, hheld⟩, fun _ => shiftAfter_makeCode _ k⟩⟩
        rintro (⟨k', hk, -⟩ | ⟨hno, -⟩)
        · exact k.makeCode_ne_breakCode k' hk
        · exact hno ⟨k, Or.inl rfl⟩
      · -- a key goes up, and the flag is cleared
        have hiff : (∃ k', HeldIn k' (cs ++ [k.breakCode])) ↔ HeldIn k.other cs := by
          constructor
          · rintro ⟨k', h⟩
            rcases heldIn_concat.mp h with h | ⟨hne, h⟩
            · exact absurd h.symm (k'.makeCode_ne_breakCode k)
            · rwa [← ShiftKey.eq_other hne]
          · intro h
            exact ⟨k.other, heldIn_concat.mpr (Or.inr ⟨k.breakCode_ne_other, h⟩)⟩
        rw [shiftAfter_breakCode, hiff]
        constructor
        · rintro h (⟨k', hk, hheld⟩ | ⟨hno, -⟩)
          · obtain rfl := ShiftKey.breakCode_inj hk
            exact Bool.false_ne_true (h.mpr hheld)
          · exact hno ⟨k, Or.inr rfl⟩
        · intro h
          exact ⟨fun hf => absurd hf Bool.false_ne_true, fun hheld =>
            absurd (Or.inl ⟨k, rfl, hheld⟩) h⟩
    · -- another key
      have hiff : (∃ k, HeldIn k (cs ++ [c])) ↔ ∃ k, HeldIn k cs := by
        apply exists_congr
        intro k
        rw [heldIn_concat]
        constructor
        · rintro (rfl | ⟨-, h⟩)
          · exact absurd ⟨k, Or.inl rfl⟩ hc
          · exact h
        · intro h
          exact Or.inr ⟨fun hb => hc ⟨k, Or.inr hb⟩, h⟩
      rw [shiftAfter_other _ hc, hiff, ih]
      constructor
      · rintro h (⟨k, hk, -⟩ | ⟨-, hr⟩)
        · exact hc ⟨k, Or.inr hk⟩
        · exact h hr
      · exact fun h hr => h (Or.inr ⟨hc, hr⟩)

end Flag

/-! ## Result -/

/-- After every sequence of scancodes `is_shift_pressed` says whether a shift key is held, unless
    what happened to these keys last is that one was released and the other one is held. -/
theorem shift_held_iff (bs : List UInt8) :
    (isShiftPressed (afterScancodes keyboardStateActivate bs) = true ↔ ∃ k, Held k bs) ↔
      ¬ ReleasesOne bs := by
  unfold isShiftPressed
  rw [afterScancodes_shift rfl]
  exact foldl_shiftAfter_iff _

/-- Both keys are pressed and the right one is released: the left one is still held. -/
theorem shift_held_lost :
    isShiftPressed (afterScancodes keyboardStateActivate [0x2A, 0x36, 0xB6]) = false ∧
      Held .left [0x2A, 0x36, 0xB6] ∧ ¬ ∀ bs : List UInt8,
        (isShiftPressed (afterScancodes keyboardStateActivate bs) = true ↔ ∃ k, Held k bs) := by
  have hflag : isShiftPressed (afterScancodes keyboardStateActivate [0x2A, 0x36, 0xB6]) =
      false := by decide
  have hheld : Held .left [0x2A, 0x36, 0xB6] := ⟨[], [0x36, 0xB6], by decide, by decide⟩
  refine ⟨hflag, hheld, fun h => ?_⟩
  have hpressed := (h _).mpr ⟨.left, hheld⟩
  rw [hflag] at hpressed
  exact Bool.false_ne_true hpressed

end LossOs.Drivers
