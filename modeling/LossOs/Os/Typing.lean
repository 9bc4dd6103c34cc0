/-
  Typing a command: the keyboard, the loop of `terminal`, and the console.

  A scancode interrupts the shell wherever it is: before it asks for a key, or between the answer
  and the echo. `heard` is what the answers are, from the scancodes alone. `typed_line_runs`: at
  every moment the screen shows the line as the buffer has it, and `process_command` gets the words
  of what was typed.
-/
import LossOs.Drivers.Sheet
import LossOs.Shell.Terminal

namespace LossOs.Os

open LossOs.Lib LossOs.Drivers
open LossOs.Shell (Token tokens commandArgv stringAt Clean)
open LossOs.Shell.Terminal (Buffer key readLine edit edited longest Editing Wiped)

/-! ## The session -/

/-- Where the loop of `terminal` is: before system call 4, behind it with the answer, or at its
    end. -/
inductive Place where
  | polling
  | echoing (buf : UInt8)
  | done
  deriving DecidableEq

structure Session where
  console : Console
  reader : LossOs.Shell.Terminal.State
  place : Place

/-- The echo of a key: not of a backspace at the start of the line. -/
def echoKey (buf : UInt8) (indexCommand : Nat) (k : Console) : Option Console :=
  if buf = 8 then if indexCommand > 0 then putchar 8 0xF k else some k
  else if buf ≠ 0 then putchar buf.toInt8 0xF k
  else some k

/-- The shell goes on: to its next system call, and to the next one after that. -/
def Session.next (s : Session) : Option Session :=
  match s.place with
  | .polling =>
    let r := getKeyboardBuffer s.console.keyboard
    some ⟨{ s.console with keyboard := r.2 }, s.reader, .echoing r.1⟩
  | .echoing buf => do
    let console ← echoKey buf s.reader.indexCommand s.console
    let reader ← key s.reader buf
    some ⟨console, reader, if buf = 10 then .done else .polling⟩
  | .done => some s

/-- A key is pressed or released, or the shell goes on. -/
inductive TypingEvent where
  | scancode (b : UInt8)
  | shell

def Session.step (s : Session) : TypingEvent → Option Session
  | .scancode b =>
    some { s with console := { s.console with keyboard := keyboardIsr b s.console.keyboard } }
  | .shell => s.next

/-! ## What is heard -/

/-- The answers that the shell gets: each time the last character since the time before, or 0. -/
def heard : KeyboardDriverState → UInt8 → Place → List TypingEvent → List UInt8
  | _, _, _, [] => []
  | kb, last, p, .scancode b :: es => heard (keyboardIsr b kb) ((charOf kb b).getD last) p es
  | kb, last, .polling, .shell :: es => last :: heard kb 0 (.echoing last) es
  | kb, last, .echoing buf, .shell :: es =>
    heard kb last (if buf = 10 then .done else .polling) es
  | kb, last, .done, .shell :: es => heard kb last .done es

/-- The scancode is none of those that caps lock makes wrong, and no arrow to the left or right. -/
def Quiet (kb : KeyboardDriverState) (b : UInt8) : Prop :=
  (∀ buf, Translates { kb with keyboardBuffer := buf } b) ∧
    (kb.readExtendedMode = true → b ≠ EXT_SCANCODE_LEFT ∧ b ≠ EXT_SCANCODE_RIGHT)

def Undisturbed : KeyboardDriverState → List TypingEvent → Prop
  | _, [] => True
  | kb, .scancode b :: es => Quiet kb b ∧ Undisturbed (keyboardIsr b kb) es
  | kb, .shell :: es => Undisturbed kb es

/-- No character comes before the shell has asked for the last one. -/
def Prompt : KeyboardDriverState → UInt8 → Place → List TypingEvent → Prop
  | _, _, _, [] => True
  | kb, last, p, .scancode b :: es =>
    (charOf kb b ≠ none → last = 0) ∧ Prompt (keyboardIsr b kb) ((charOf kb b).getD last) p es
  | kb, last, .polling, .shell :: es => Prompt kb 0 (.echoing last) es
  | kb, last, .echoing buf, .shell :: es =>
    Prompt kb last (if buf = 10 then .done else .polling) es
  | kb, last, .done, .shell :: es => Prompt kb last .done es

def scancodes (es : List TypingEvent) : List UInt8 :=
  es.filterMap fun
    | .scancode b => some b
    | .shell => none

/-! ## The keyboard -/

/-- The same mode, shift and caps lock. -/
structure SameMods (s s' : KeyboardDriverState) : Prop where
  ext : s.readExtendedMode = s'.readExtendedMode
  on : s.keyboardInputOn = s'.keyboardInputOn
  shift : s.shiftPressed = s'.shiftPressed
  caps : s.capsLockOn = s'.capsLockOn

section Keyboard

variable {s s' kb : KeyboardDriverState} {b last : UInt8} {p : Place} {es : List TypingEvent}

theorem charOf_mods (h : SameMods s s') (b : UInt8) : charOf s b = charOf s' b := by
  unfold charOf
  rw [h.ext, h.shift, h.caps]

theorem translates_mods (h : SameMods s s') (hq : Quiet s' b) : Translates s b := by
  have ht := hq.1 s.keyboardBuffer
  unfold Translates at ht ⊢
  rw [h.ext, h.shift, h.caps]
  exact ht

theorem isr_mods (h : SameMods s s') (b : UInt8) :
    SameMods (keyboardIsr b s) (keyboardIsr b s') := by
  obtain ⟨ext, on, buf, shift, caps, special⟩ := s
  obtain ⟨ext', on', buf', shift', caps', special'⟩ := s'
  obtain ⟨hext, hon, hshift, hcaps⟩ := h
  dsimp only at hext hon hshift hcaps
  subst hext hon hshift hcaps
  unfold keyboardIsr
  constructor
  · simp only [apply_ite KeyboardDriverState.readExtendedMode, ite_self]
  · simp only [apply_ite KeyboardDriverState.keyboardInputOn, ite_self]
  · simp only [apply_ite KeyboardDriverState.shiftPressed, ite_self]
  · simp only [apply_ite KeyboardDriverState.capsLockOn, ite_self]

/-- The special key is an arrow to the left or right only if it was, or if that was pressed. -/
theorem isr_special (hs : s.specialKey ≠ KEY_LEFT ∧ s.specialKey ≠ KEY_RIGHT)
    (hq : s.readExtendedMode = true → b ≠ EXT_SCANCODE_LEFT ∧ b ≠ EXT_SCANCODE_RIGHT) :
    (keyboardIsr b s).specialKey ≠ KEY_LEFT ∧ (keyboardIsr b s).specialKey ≠ KEY_RIGHT := by
  have hmake : ¬b &&& 0x80 ≠ 0 → b &&& 0x7F = b := fun h =>
    cleanScancode_eq b (UInt8.not_le.mp fun h80 => h ((isBreakCode_iff b).mpr h80))
  have hkeys : (KEY_UP ≠ KEY_LEFT ∧ KEY_UP ≠ KEY_RIGHT) ∧
      (KEY_DOWN ≠ KEY_LEFT ∧ KEY_DOWN ≠ KEY_RIGHT) := by decide
  unfold keyboardIsr
  simp only [apply_ite KeyboardDriverState.specialKey, ite_self, Bool.not_eq_true',
    decide_eq_false_iff_not]
  -- in extended mode the key of a make code is the scancode itself
  split_ifs with hon hE0 hext hbreak hup hdown hleft hright
  · exact hs
  · exact hs
  · exact hs
  · exact hkeys.1
  · exact hkeys.2
  · exact absurd ((hmake hbreak).symm.trans hleft) (hq (by simpa using hext)).1
  · exact absurd ((hmake hbreak).symm.trans hright) (hq (by simpa using hext)).2
  · exact hs
  · exact hs

theorem charOf_ne_zero {c : UInt8} (h : charOf s b = some c) : c ≠ 0 := by
  unfold charOf at h
  split at h
  · cases h
  rename_i hno
  obtain rfl := Option.some.inj h
  have h0 : keyboardScancode1ToAsciiMap b ≠ 0 := fun h => hno (Or.inr (Or.inr h))
  have hup := mt (uppercase_zero b).mp h0
  unfold keyChar
  split_ifs with hletter hcase hshift
  · rw [← (uppercase_letter b hletter).2.1]
    exact hup
  · exact h0
  · exact hup
  · exact h0

/-- With a shell that is prompt, nothing that is typed is lost. -/
theorem heard_typed (h : Prompt kb last p es) :
    (heard kb last p es).filter (· != 0) <+:
      [last].filter (· != 0) ++ typed kb (scancodes es) := by
  induction es generalizing kb last p with
  | nil => exact List.nil_prefix
  | cons e es ih =>
    cases e with
    | scancode b =>
      obtain ⟨hlast, hrest⟩ := h
      have hes := ih hrest
      show (heard _ _ p es).filter _ <+: _ ++ ((charOf kb b).toList ++ typed _ (scancodes es))
      cases hc : charOf kb b with
      | none =>
        rw [hc] at hes
        exact hes
      | some c =>
        rw [hc] at hes
        have hc0 : [c].filter (· != 0) = [c] :=
          List.filter_cons_of_pos (bne_iff_ne.mpr (charOf_ne_zero hc))
        rw [Option.getD_some, hc0] at hes
        rw [hlast (by rw [hc]; exact Option.some_ne_none c)]
        exact hes
    | shell =>
      cases p with
      | polling =>
        have hes : (heard kb 0 (.echoing last) es).filter (· != 0) <+: typed kb (scancodes es) :=
          ih h
        show (last :: heard kb 0 (.echoing last) es).filter _ <+: _
        rw [← List.singleton_append, List.filter_append]
        exact (List.prefix_append_right_inj _).mpr hes
      | echoing buf => exact ih h
      | done => exact ih h

end Keyboard

/-! ## The line on the sheet -/

/-- A key whose character can be shown: none, a backspace, a newline, or a printable one. -/
def IsText (c : UInt8) : Prop := c = 0 ∨ c = 8 ∨ c = 10 ∨ Printable c.toInt8

/-- The text of a line, in the colour of the echo. -/
def lineText (line : List UInt8) : List (Int8 × UInt8) := line.map fun c => (c.toInt8, 0xF)

section Lines

variable {t : Sheet} {line keys : List UInt8} {c : UInt8} {color : UInt8}

theorem printable_ne (hc : Printable c.toInt8) :
    c ≠ 0 ∧ c ≠ 8 ∧ c ≠ 10 ∧ c.toInt8 ≠ 8 ∧ c.toInt8 ≠ 10 := by
  refine ⟨?_, ?_, ?_, fun h => ?_, fun h => ?_⟩
  · rintro rfl
    exact absurd hc (by decide)
  · rintro rfl
    exact absurd hc (by decide)
  · rintro rfl
    exact absurd hc (by decide)
  · rw [h] at hc
    exact absurd hc (by decide)
  · rw [h] at hc
    exact absurd hc (by decide)

theorem print_concat (t : Sheet) (line : List UInt8) (c : UInt8) :
    t.print (lineText (line ++ [c])) = (t.print (lineText line)).put c.toInt8 0xF := by
  unfold lineText Sheet.print
  rw [List.map_append, List.foldl_append]
  rfl

theorem put_printable (hc : Printable c.toInt8) :
    t.put c.toInt8 color =
      ⟨Function.update t.glyphs t.next (some (c.toInt8, color)), t.next + 1⟩ := by
  obtain ⟨-, -, -, h8, h10⟩ := printable_ne hc
  exact (if_neg h8).trans (if_neg h10)

theorem print_next (hline : ∀ c ∈ line, Printable c.toInt8) :
    (t.print (lineText line)).next = t.next + line.length := by
  induction line using List.reverseRecOn with
  | nil => rfl
  | append_singleton line c ih =>
    rw [print_concat, put_printable (hline c (by simp)), List.length_append,
      ih fun d hd => hline d (by simp [hd])]
    rfl

theorem print_ahead (hline : ∀ c ∈ line, Printable c.toInt8) {n : ℕ}
    (hn : t.next + line.length ≤ n) : (t.print (lineText line)).glyphs n = t.glyphs n := by
  induction line using List.reverseRecOn with
  | nil => rfl
  | append_singleton line c ih =>
    have hline' : ∀ d ∈ line, Printable d.toInt8 := fun d hd => hline d (by simp [hd])
    rw [List.length_append, List.length_singleton] at hn
    rw [print_concat, put_printable (hline c (by simp)), print_next hline']
    exact (Function.update_of_ne (by omega) _ _).trans (ih hline' (by omega))

/-- A backspace takes the last character of the line away. -/
theorem print_back (hc : Printable c.toInt8)
    (h : (t.print (lineText line)).glyphs (t.print (lineText line)).next = none) :
    (t.print (lineText (line ++ [c]))).put 8 0xF = t.print (lineText line) := by
  rw [print_concat, put_printable hc]
  generalize t.print (lineText line) = u at h ⊢
  show Sheet.mk (Function.update (Function.update u.glyphs u.next _) (u.next + 1 - 1) none)
    (u.next + 1 - 1) = u
  rw [Nat.add_sub_cancel, Function.update_idem, ← h, Function.update_eq_self]

/-- The line has characters only. -/
theorem edited_printable (hkeys : ∀ c ∈ keys, IsText c ∧ c ≠ 10) :
    ∀ c ∈ edited keys, Printable c.toInt8 := by
  induction keys using List.reverseRecOn with
  | nil => exact fun c hc => absurd hc List.not_mem_nil
  | append_singleton keys k ih =>
    have hkeys' := ih fun c hc => hkeys c (by simp [hc])
    obtain ⟨hk, h10⟩ := hkeys k (by simp)
    have hedited : edited (keys ++ [k]) = edit (edited keys) k := List.foldl_concat _ _ _ _
    intro c hc
    rw [hedited] at hc
    unfold edit at hc
    split_ifs at hc with h8 h0
    · exact hkeys' c ((List.dropLast_sublist _).subset hc)
    · exact hkeys' c hc
    · rcases List.mem_append.mp hc with hc | hc
      · exact hkeys' c hc
      · rw [List.mem_singleton.mp hc]
        exact ((hk.resolve_left h0).resolve_left h8).resolve_left h10

end Lines

/-! ## The loop -/

/-- The loop after the echoes of `keys`, on a console that had sheet `t`: the line is on the screen
    and in the buffer, and `last` is the character that waits. -/
structure Follows (t : Sheet) (command : Buffer) (kb : KeyboardDriverState) (last : UInt8)
    (keys : List UInt8) (s : Session) : Prop where
  screen : ∃ d, Shows s.console d ∧ Written d.screen (t.print (lineText (edited keys))) 0xF
  ahead : ∀ n, t.next ≤ n → t.glyphs n = none
  mods : SameMods s.console.keyboard kb
  on : s.console.keyboard.keyboardInputOn = true
  waits : s.console.keyboard.keyboardBuffer = last
  still : s.console.keyboard.specialKey ≠ KEY_LEFT ∧ s.console.keyboard.specialKey ≠ KEY_RIGHT
  reader : ∃ far, Editing command (edited keys) far s.reader
  reads : ∀ rest, readLine (keys ++ rest) ⟨command, 0⟩ = readLine rest s.reader

section Loop

variable {t : Sheet} {command : Buffer} {kb : KeyboardDriverState} {last b c : UInt8}
  {keys : List UInt8} {s : Session}

theorem edited_concat (keys : List UInt8) (c : UInt8) :
    edited (keys ++ [c]) = edit (edited keys) c := List.foldl_concat _ _ _ _

theorem Follows.scancode (h : Follows t command kb last keys s) (hq : Quiet kb b) (p : Place) :
    Follows t command (keyboardIsr b kb) ((charOf kb b).getD last) keys
      ⟨{ s.console with keyboard := keyboardIsr b s.console.keyboard }, s.reader, p⟩ := by
  obtain ⟨d, hshows, hwritten⟩ := h.screen
  refine ⟨⟨{ d with keyboard := keyboardIsr b d.keyboard }, ?_, hwritten⟩, h.ahead,
    isr_mods h.mods b, (isr_inputOn b _).trans h.on, ?_, isr_special h.still ?_, h.reader, h.reads⟩
  · exact ⟨⟨hshows.draws.picture, hshows.draws.cursor⟩,
      congrArg (keyboardIsr b) hshows.keyboard, hshows.inRange⟩
  · rw [← charOf_mods h.mods, ← h.waits]
    exact (isr_buffer_iff h.on).mpr (translates_mods h.mods hq)
  · rw [h.mods.ext]
    exact hq.2

theorem Follows.poll (h : Follows t command kb last keys s) (p : Place) :
    Follows t command kb 0 keys ⟨{ s.console with
      keyboard := (getKeyboardBuffer s.console.keyboard).2 }, s.reader, p⟩ := by
  obtain ⟨d, hshows, hwritten⟩ := h.screen
  refine ⟨⟨{ d with keyboard := (getKeyboardBuffer d.keyboard).2 }, ?_, hwritten⟩, h.ahead,
    ⟨h.mods.ext, h.mods.on, h.mods.shift, h.mods.caps⟩, h.on, rfl, h.still, h.reader, h.reads⟩
  exact ⟨⟨hshows.draws.picture, hshows.draws.cursor⟩,
    congrArg (fun kb => (getKeyboardBuffer kb).2) hshows.keyboard, hshows.inRange⟩

/-- A character is put on the sheet. -/
theorem Follows.putchar (h : Follows t command kb last keys s) {c : Int8} {t' : Sheet}
    (hc : (t.print (lineText (edited keys))).Takes c)
    (ht : (t.print (lineText (edited keys))).put c 0xF = t') :
    ∃ k d, LossOs.Drivers.putchar c 0xF s.console = some k ∧ Shows k d ∧ Written d.screen t' 0xF ∧
      k.keyboard = (getSpecialKey s.console.keyboard).2 := by
  obtain ⟨d, hshows, hwritten⟩ := h.screen
  obtain ⟨k, hrun, hk⟩ := hshows.putchar c 0xF
  have hstill : Still d := by
    have hs := h.still
    rw [hshows.keyboard] at hs
    exact hs
  refine ⟨k, _, hrun, hk, ?_, ?_⟩
  · rw [(putchar_still hstill c 0xF).1, ← ht]
    exact hwritten.put hc 0xF
  · rw [hk.keyboard, hshows.keyboard]
    rfl

/-- The key in the buffer. -/
theorem Follows.key (h : Follows t command kb last keys s) (hlong : (edited keys).length < 1000)
    (c : UInt8) : ∃ r, LossOs.Shell.Terminal.key s.reader c = some r ∧
      s.reader.indexCommand = (edited keys).length ∧
      (∃ far, Editing command (edited (keys ++ [c])) far r) ∧
      ∀ rest, readLine (keys ++ c :: rest) ⟨command, 0⟩ =
        if c = 10 then some r else readLine rest r := by
  obtain ⟨far, hedit⟩ := h.reader
  obtain ⟨r, hkey, hr⟩ := hedit.key (c := c) hlong
  rw [← edited_concat] at hr
  refine ⟨r, hkey, hedit.index_eq, ⟨_, hr⟩, fun rest => ?_⟩
  rw [h.reads, readLine, hkey]
  rfl

/-- The echo of a key, and the key in the buffer. -/
theorem Follows.echo (h : Follows t command kb last keys s) (hkeys : ∀ c ∈ keys, IsText c ∧ c ≠ 10)
    (hc : IsText c) (h10 : c ≠ 10) (hlong : (edited keys).length < 1000)
    (hroom : t.next + (edited keys).length + 1 < 4800) (p : Place) :
    ∃ k r, echoKey c s.reader.indexCommand s.console = some k ∧
      LossOs.Shell.Terminal.key s.reader c = some r ∧
      Follows t command kb last (keys ++ [c]) ⟨k, r, p⟩ := by
  have hprint := edited_printable hkeys
  have hnext := print_next (t := t) hprint
  obtain ⟨r, hkey, hindex, hreader, hreads⟩ := h.key hlong c
  have hreads' : ∀ rest, readLine (keys ++ [c] ++ rest) ⟨command, 0⟩ = readLine rest r := by
    intro rest
    rw [List.append_assoc, List.singleton_append, hreads, if_neg h10]
  -- with nothing to echo the line is the same
  have hsame : edit (edited keys) c = edited keys → echoKey c s.reader.indexCommand s.console =
      some s.console → ∃ k r, echoKey c s.reader.indexCommand s.console = some k ∧
      LossOs.Shell.Terminal.key s.reader c = some r ∧
      Follows t command kb last (keys ++ [c]) ⟨k, r, p⟩ := fun hline hecho => by
    refine ⟨s.console, r, hecho, hkey, ?_, h.ahead, h.mods, h.on, h.waits, h.still, hreader,
      hreads'⟩
    rw [edited_concat, hline]
    exact h.screen
  have hput : ∀ d : Int8, echoKey c s.reader.indexCommand s.console =
      LossOs.Drivers.putchar d 0xF s.console → (t.print (lineText (edited keys))).Takes d →
      (t.print (lineText (edited keys))).put d 0xF = t.print (lineText (edited (keys ++ [c]))) →
      ∃ k r, echoKey c s.reader.indexCommand s.console = some k ∧
        LossOs.Shell.Terminal.key s.reader c = some r ∧
        Follows t command kb last (keys ++ [c]) ⟨k, r, p⟩ := fun d hecho htakes ht => by
    obtain ⟨k, d, hrun, hk, hwritten, hkb⟩ := h.putchar htakes ht
    refine ⟨k, r, hecho.trans hrun, hkey, ⟨⟨d, hk, hwritten⟩, h.ahead, ?_, ?_, ?_, ?_,
      hreader, hreads'⟩⟩
    all_goals dsimp only
    all_goals rw [hkb]
    · exact ⟨h.mods.ext, h.mods.on, h.mods.shift, h.mods.caps⟩
    · exact h.on
    · exact h.waits
    · exact show KEY_NONE ≠ KEY_LEFT ∧ KEY_NONE ≠ KEY_RIGHT by decide
  rcases hc with rfl | rfl | rfl | hc
  · exact hsame rfl rfl
  · cases hline : edited keys using List.reverseRecOn with
    | nil =>
      refine hsame (by rw [hline]; rfl) ?_
      rw [hindex, hline]
      rfl
    | append_singleton line d =>
      have hline' : ∀ e ∈ line, Printable e.toInt8 := fun e he => hprint e (by simp [hline, he])
      refine hput 8 ((if_pos rfl).trans (if_pos ?_)) ?_ ?_
      · rw [hindex, hline]
        simp
      · unfold Sheet.Takes
        rw [if_pos rfl, hnext, hline, List.length_append]
        exact Nat.succ_pos _
      · rw [edited_concat, hline, print_back (hprint d (by simp [hline]))]
        · congr 2
          exact (List.dropLast_concat).symm
        · rw [print_next hline', print_ahead hline' (Nat.le_refl _)]
          exact h.ahead _ (Nat.le_add_right _ _)
  · exact absurd rfl h10
  · obtain ⟨h0, h8, -, h8', h10'⟩ := printable_ne hc
    refine hput c.toInt8 ((if_neg h8).trans (if_pos h0)) ?_ ?_
    · unfold Sheet.Takes
      rw [if_neg h8', if_neg h10', hnext]
      exact ⟨hc, hroom⟩
    · rw [edited_concat, ← print_concat]
      congr 2
      exact ((if_neg h8).trans (if_neg h0)).symm

theorem mem_edited {d : UInt8} (hd : d ∈ edited keys) : d ∈ keys := by
  induction keys using List.reverseRecOn with
  | nil => exact hd
  | append_singleton keys c ih =>
    rw [edited_concat] at hd
    unfold edit at hd
    split_ifs at hd
    · exact List.mem_append_left _ (ih ((List.dropLast_sublist _).subset hd))
    · exact List.mem_append_left _ (ih hd)
    · exact (List.mem_append.mp hd).elim (fun hd => List.mem_append_left _ (ih hd))
        (List.mem_append_right _)

/-- After the newline: the line is read, and the screen shows it. -/
structure Entered (t : Sheet) (command : Buffer) (keys : List UInt8) (s : Session) : Prop where
  text : ∀ c ∈ keys, c ≠ 10
  line : readLine (keys ++ [10]) ⟨command, 0⟩ = some s.reader
  picture : pixels s.console.vga =
    ((t.print (lineText (edited keys))).put 10 0xF).picture 0xF

theorem Follows.enter (h : Follows t command kb last keys s) (hkeys : ∀ c ∈ keys, c ≠ 10)
    (hlong : (edited keys).length < 1000)
    (hroom : (t.print (lineText (edited keys))).next / 80 < 59) (p : Place) :
    ∃ k r, echoKey 10 s.reader.indexCommand s.console = some k ∧
      LossOs.Shell.Terminal.key s.reader 10 = some r ∧
      Entered t command keys ⟨k, r, p⟩ := by
  obtain ⟨r, hkey, -, -, hreads⟩ := h.key hlong 10
  obtain ⟨k, d, hrun, hk, hwritten, -⟩ := h.putchar (c := 10) hroom rfl
  refine ⟨k, r, hrun, hkey, hkeys, (hreads []).trans (if_pos rfl), ?_⟩
  exact hk.draws.picture.trans hwritten.picture

/-! ## Runs -/

/-- The events, one after the other. -/
def runTyping (es : List TypingEvent) (s : Session) : Option Session :=
  loop es (fun e s => s.step e) s

/-- The answer that is not echoed yet. -/
def inFlight : Place → List UInt8
  | .echoing c => [c]
  | _ => []

/-- What the shell has after it has heard `all`. -/
def Outcome (t : Sheet) (command : Buffer) (all : List UInt8) (s : Session) : Prop :=
  match s.place with
  | .polling => ∃ kb last, Follows t command kb last all s
  | .echoing c => ∃ keys kb last, all = keys ++ [c] ∧ Follows t command kb last keys s
  | .done => ∃ keys, all = keys ++ [10] ∧ Entered t command keys s

theorem le_longest_append (line keys rest : List UInt8) :
    (keys.foldl edit line).length ≤ longest line (keys ++ rest) := by
  induction keys generalizing line with
  | nil => exact LossOs.Shell.Terminal.length_le_longest line rest
  | cons c keys ih => exact (ih _).trans (Nat.le_max_right _ _)

theorem longest_le_append (line keys rest : List UInt8) :
    longest line keys ≤ longest line (keys ++ rest) := by
  induction keys generalizing line with
  | nil => exact LossOs.Shell.Terminal.length_le_longest line rest
  | cons c keys ih => exact max_le_max (Nat.le_refl _) (ih _)

/-- Behind the newline nothing changes the line or the screen. -/
theorem run_done (hs : s.place = .done) (h : Entered t command keys s) (es : List TypingEvent)
    (kb : KeyboardDriverState) (last : UInt8) : heard kb last .done es = [] ∧
      ∃ s', runTyping es s = some s' ∧ s'.place = .done ∧ Entered t command keys s' := by
  induction es generalizing s kb last with
  | nil => exact ⟨rfl, s, rfl, hs, h⟩
  | cons e es ih =>
    cases e with
    | scancode b =>
      obtain ⟨hheard, s', hrun, hs'⟩ := ih (s := ⟨{ s.console with
        keyboard := keyboardIsr b s.console.keyboard }, s.reader, s.place⟩) hs
        ⟨h.text, h.line, h.picture⟩ (keyboardIsr b kb) ((charOf kb b).getD last)
      exact ⟨hheard, s', hrun, hs'⟩
    | shell =>
      obtain ⟨hheard, s', hrun, hs'⟩ := ih hs h kb last
      refine ⟨hheard, s', ?_, hs'⟩
      obtain ⟨console, reader, place⟩ := s
      obtain rfl : place = .done := hs
      exact hrun

theorem runTyping_cons {s s₁ : Session} {e : TypingEvent} (h : s.step e = some s₁)
    (es : List TypingEvent) : runTyping (e :: es) s = runTyping es s₁ := by
  unfold runTyping
  rw [loop_cons, h]
  rfl

/-- The shell asks for a character. -/
theorem Follows.step_poll {console : Console} {reader : LossOs.Shell.Terminal.State}
    (h : Follows t command kb last keys ⟨console, reader, .polling⟩) :
    Session.step ⟨console, reader, .polling⟩ .shell =
      some ⟨{ console with keyboard := (getKeyboardBuffer console.keyboard).2 }, reader,
        .echoing last⟩ := by
  have hwaits : (getKeyboardBuffer console.keyboard).1 = last := h.waits
  rw [← hwaits]
  rfl

/-- The shell echoes the character and takes it into the line. -/
theorem step_echoing {console k : Console} {reader r : LossOs.Shell.Terminal.State}
    (hecho : echoKey c reader.indexCommand console = some k)
    (hkey : LossOs.Shell.Terminal.key reader c = some r) :
    Session.step ⟨console, reader, .echoing c⟩ .shell =
      some ⟨k, r, if c = 10 then .done else .polling⟩ := by
  show (echoKey c reader.indexCommand console).bind _ = _
  rw [hecho]
  show (LossOs.Shell.Terminal.key reader c).bind _ = _
  rw [hkey]
  rfl

/-- The newline ends the line: no later event is heard. -/
theorem Follows.run_enter {console : Console} {reader : LossOs.Shell.Terminal.State}
    (h : Follows t command kb last keys ⟨console, reader, .echoing 10⟩)
    (hkeys : ∀ c ∈ keys, c ≠ 10) (hlong : (edited keys).length < 1000)
    (hroom : (t.print (lineText (edited keys))).next / 80 < 59) (es : List TypingEvent) :
    ∃ s', runTyping (.shell :: es) ⟨console, reader, .echoing 10⟩ = some s' ∧
      Outcome t command (keys ++ [10] ++ heard kb last (.echoing 10) (.shell :: es)) s' := by
  obtain ⟨k, r, hecho, hkey, he⟩ := h.enter hkeys hlong hroom .done
  obtain ⟨hheard, s', hrun, hs', he'⟩ := run_done rfl he es kb last
  refine ⟨s', (runTyping_cons (step_echoing hecho hkey) es).trans hrun, ?_⟩
  show Outcome t command (keys ++ [10] ++ heard kb last .done es) s'
  rw [hheard, List.append_nil]
  unfold Outcome
  rw [hs']
  exact ⟨keys, rfl, he'⟩

/-- Whatever comes when, the shell goes on, and has what it has heard. -/
theorem typing_run (es : List TypingEvent) (h : Follows t command kb last keys s)
    (hs : s.place ≠ .done) (hq : Undisturbed kb es) (hkeys : ∀ c ∈ keys, c ≠ 10)
    (htext : ∀ c ∈ keys ++ inFlight s.place ++ heard kb last s.place es, IsText c)
    (hshort : longest [] (keys ++ inFlight s.place ++ heard kb last s.place es) ≤ 99)
    (hroom : t.next + 99 ≤ 4720) :
    ∃ s', runTyping es s = some s' ∧
      Outcome t command (keys ++ inFlight s.place ++ heard kb last s.place es) s' := by
  induction es generalizing s kb last keys with
  | nil =>
    refine ⟨s, rfl, ?_⟩
    obtain ⟨console, reader, place⟩ := s
    cases place with
    | polling =>
      refine ⟨kb, last, ?_⟩
      simp only [inFlight, heard, List.append_nil]
      exact h
    | echoing c => exact ⟨keys, kb, last, List.append_nil _, h⟩
    | done => exact absurd rfl hs
  | cons e es ih =>
    cases e with
    | scancode b => exact ih (h.scancode hq.1 s.place) hs hq.2 hkeys htext hshort
    | shell =>
      obtain ⟨console, reader, place⟩ := s
      cases place with
      | polling =>
        have hall : keys ++ inFlight .polling ++ heard kb last .polling (.shell :: es) =
            keys ++ inFlight (.echoing last) ++ heard kb 0 (.echoing last) es := by
          simp [inFlight, heard]
        dsimp only at htext hshort ⊢
        rw [hall] at htext hshort ⊢
        rw [runTyping_cons h.step_poll es]
        exact ih (h.poll (.echoing last)) (fun hc => by cases hc) hq hkeys htext hshort
      | echoing c =>
        have hkeys' : ∀ d ∈ keys, IsText d ∧ d ≠ 10 := fun d hd =>
          ⟨htext d (by simp [hd]), hkeys d hd⟩
        have hc : IsText c := htext c (by simp [inFlight])
        have hlen : (edited keys).length ≤ 99 :=
          (le_longest_append [] keys _).trans (by rwa [List.append_assoc] at hshort)
        have hnext := print_next (t := t) (edited_printable hkeys')
        by_cases h10 : c = 10
        · subst h10
          -- the newline is a character of the line, too
          have hline : (edited (keys ++ [10])).length ≤ 99 :=
            (le_longest_append [] (keys ++ [10]) _).trans hshort
          rw [edited_concat] at hline
          have hlast : (edit (edited keys) 10).length = (edited keys).length + 1 :=
            List.length_append
          exact h.run_enter hkeys (by omega) (by omega) es
        · obtain ⟨k, r, hecho, hkey, hf⟩ := h.echo hkeys' hc h10 (by omega) (by omega) .polling
          have hstep := step_echoing hecho hkey
          rw [if_neg h10] at hstep
          have hall : keys ++ inFlight (.echoing c) ++ heard kb last (.echoing c) (.shell :: es) =
              keys ++ [c] ++ inFlight .polling ++ heard kb last .polling es := by
            show keys ++ [c] ++ heard kb last (if c = 10 then .done else .polling) es = _
            rw [if_neg h10]
            simp [inFlight]
          dsimp only at htext hshort ⊢
          rw [hall] at htext hshort ⊢
          have hkeys₁ : ∀ d ∈ keys ++ [c], d ≠ 10 := fun d hd => by
            rcases List.mem_append.mp hd with hd | hd
            · exact hkeys d hd
            · exact List.mem_singleton.mp hd ▸ h10
          rw [runTyping_cons hstep es]
          exact ih hf (fun hc => by cases hc) hq hkeys₁ htext hshort
      | done => exact absurd rfl hs

end Loop

/-! ## Result -/

/-- The line is on the screen behind sheet `t`, and at the start of the buffer. -/
structure Shown (t : Sheet) (keys : List UInt8) (s : Session) : Prop where
  picture : pixels s.console.vga = (t.print (lineText (edited keys))).picture 0xF
  index : s.reader.indexCommand = (edited keys).length
  buffer : s.reader.command.bytes.take (edited keys).length = edited keys

/-- The line is what `process_command` gets, and the cursor is in the row below it. -/
structure Submitted (t : Sheet) (keys : List UInt8) (s : Session) : Prop where
  text : 10 ∉ keys
  picture : pixels s.console.vga =
    ((t.print (lineText (edited keys))).put 10 0xF).picture 0xF
  line : stringAt s.reader.command.bytes 0 = edited keys ++ [10]
  words : Clean (edited keys) → commandArgv s.reader.command.bytes =
    ((tokens (edited keys)).take 10).map Token.text

/-- The shell when it has heard `all`. -/
def Heard (t : Sheet) (all : List UInt8) (s : Session) : Prop :=
  match s.place with
  | .polling => Shown t all s
  | .echoing c => ∃ keys, all = keys ++ [c] ∧ Shown t keys s
  | .done => ∃ keys, all = keys ++ [10] ∧ Submitted t keys s

section Result

variable {t : Sheet} {command : Buffer} {kb : KeyboardDriverState} {last : UInt8}
  {keys : List UInt8} {s : Session} {d : Display}

theorem Follows.shown (h : Follows t command kb last keys s) : Shown t keys s := by
  obtain ⟨d, hshows, hwritten⟩ := h.screen
  obtain ⟨far, hedit⟩ := h.reader
  refine ⟨hshows.draws.picture.trans hwritten.picture, hedit.index_eq, ?_⟩
  refine List.ext_getElem? fun j => ?_
  by_cases hj : j < (edited keys).length
  · rw [List.getElem?_take_of_lt hj]
    exact hedit.here j hj
  · rw [List.getElem?_take_eq_none (Nat.not_lt.mp hj),
      List.getElem?_eq_none (Nat.not_lt.mp hj)]

/-- The words of a line that has been typed. -/
theorem commandArgv_line {line tail : List UInt8} (hline : LossOs.Shell.Typed line)
    (hclean : Clean line) : commandArgv (line ++ 10 :: 0 :: tail) =
      ((tokens line).take 10).map Token.text := by
  rw [LossOs.Shell.commandArgv_eq, LossOs.Shell.dropWhile_blank hline]
  rcases hclean with hnil | ⟨hclosed, hended⟩
  · rw [if_pos hnil, LossOs.Shell.codeTokens_end 10 rfl, hnil]
    rfl
  · have hrest : LossOs.Shell.Typed (line.dropWhile LossOs.Shell.isSpace) :=
      fun c hc => hline c ((List.dropWhile_sublist _).subset hc)
    by_cases hnil : tokens line = []
    · rw [if_pos hnil, LossOs.Shell.codeTokens_end 10 rfl, hnil]
      rfl
    · rw [if_neg hnil, LossOs.Shell.codeTokens_line 10 hrest, LossOs.Shell.tokens,
        LossOs.Shell.tokensFrom_space, ← LossOs.Shell.tokens]
      exact (LossOs.Shell.argvOf_take (LossOs.Shell.tokensFrom_chain .gap line) 10).mpr
        ⟨hclosed, hended⟩

theorem Entered.submitted (h : Entered t command keys s) (hwiped : Wiped command)
    (hshort : longest [] (keys ++ [10]) ≤ 99) : Submitted t keys s := by
  have hlen : (edited (keys ++ [10])).length ≤ 99 :=
    (LossOs.Shell.Terminal.edited_le_longest [] (keys ++ [10])).trans hshort
  have hlast : (edited (keys ++ [10])).length = (edited keys).length + 1 := by
    rw [edited_concat]
    exact List.length_append
  have hfits : LossOs.Shell.Terminal.Fits command keys :=
    ⟨(longest_le_append [] keys [10]).trans_lt (hshort.trans_lt (by decide)),
      Or.inr (hwiped _ (by omega))⟩
  obtain ⟨r, hr, hzero, hstring⟩ :=
    (LossOs.Shell.Terminal.readLine_right_iff command h.text).mpr hfits
  obtain rfl := Option.some.inj (h.line.symm.trans hr)
  refine ⟨fun hmem => h.text 10 hmem rfl, h.picture, hstring, fun hclean => ?_⟩
  have hbytes : s.reader.command.bytes = edited keys ++ [10] ++
      s.reader.command.bytes.dropWhile (· != 0) := by
    have hsplit := List.takeWhile_append_dropWhile (p := (· != 0)) (l := s.reader.command.bytes)
    rw [← hstring]
    exact hsplit.symm
  have hhead := LossOs.Shell.headD_dropWhile (· != 0) s.reader.command.bytes
  have hnot := LossOs.Shell.Terminal.edited_notMem keys
  cases hdrop : s.reader.command.bytes.dropWhile (· != 0) with
  | nil =>
    rw [hbytes, hdrop, List.append_nil] at hzero
    rcases List.mem_append.mp hzero with hz | hz
    · exact absurd hz hnot
    · exact absurd (List.mem_singleton.mp hz) (by decide)
  | cons c tail =>
    rw [hdrop] at hhead hbytes
    obtain rfl : c = 0 := hhead.elim id fun hc => bne_eq_false_iff_eq.mp hc
    rw [hbytes, List.append_assoc]
    refine commandArgv_line (fun d hd => ⟨fun h0 => hnot (h0 ▸ hd), ?_⟩) hclean
    exact h.text d (mem_edited hd)

/-- Printing leaves the keyboard that has just been activated as it is. -/
theorem print_keyboard (hd : d.keyboard = keyboardStateActivate) (prompt : List (List Int8 × UInt8))
    (hlen : ∀ p ∈ prompt, p.1.length < 4294967296) (hzero : ∀ p ∈ prompt, ∀ c ∈ p.1, c ≠ 0) :
    ((prompt.map putsCall).foldl Display.call d).keyboard = keyboardStateActivate := by
  induction prompt generalizing d with
  | nil => exact hd
  | cons p prompt ih =>
    have hprint : ∀ (string : List Int8) (d : Display), d.keyboard = keyboardStateActivate →
        (d.print p.2 string).keyboard = keyboardStateActivate := by
      intro string
      induction string with
      | nil => exact fun d hd => hd
      | cons c string ih => exact fun d hd => ih _ (by
          show (getSpecialKey d.keyboard).2 = _
          rw [hd]
          rfl)
    rw [List.map_cons, List.foldl_cons,
      call_puts (hlen p List.mem_cons_self) (hzero p List.mem_cons_self)]
    exact ih (hprint p.1 d hd) (fun q hq => hlen q (List.mem_cons_of_mem _ hq))
      fun q hq => hzero q (List.mem_cons_of_mem _ hq)

end Result

/-- A line is typed behind a prompt that is printed on a cleared screen. Keys interrupt the shell at
    any point. At every moment the screen shows what the buffer has, which is the line as edited by
    the answers so far; with the newline `process_command` gets this line and its words. If the
    shell asks for each key before the next, the answers are the characters that were typed. -/
theorem typed_line_runs (v : Vga) (fb : Framebuffer) (prompt : List (List Int8 × UInt8))
    (hlen : ∀ p ∈ prompt, p.1.length < 4294967296) (hfits : Sheet.empty.Fits (textOf prompt))
    (hcolor : lastColor (textOf prompt) 0xF = 0xF)
    (hroom : (Sheet.empty.print (textOf prompt)).next + 99 ≤ 4720) (command : Buffer)
    (hwiped : Wiped command) (es : List TypingEvent) (hq : Undisturbed keyboardStateActivate es)
    (htext : ∀ c ∈ heard keyboardStateActivate 0 .polling es, IsText c)
    (hshort : longest [] (heard keyboardStateActivate 0 .polling es) ≤ 99) :
    (∃ k s, loop (.clearScreen :: prompt.map putsCall) ConsoleCall.run
        ⟨v, fb, keyboardStateActivate⟩ = some k ∧
      runTyping es ⟨k, ⟨command, 0⟩, .polling⟩ = some s ∧
      Heard (Sheet.empty.print (textOf prompt)) (heard keyboardStateActivate 0 .polling es) s) ∧
    (Prompt keyboardStateActivate 0 .polling es →
      (heard keyboardStateActivate 0 .polling es).filter (· != 0) <+:
        typed keyboardStateActivate (scancodes es)) := by
  refine ⟨?_, fun hprompt => heard_typed hprompt⟩
  obtain ⟨k₁, hrun, hk₁⟩ := clearScreen_shows (d := ⟨.cleared, keyboardStateActivate⟩)
    ⟨v, fb, keyboardStateActivate⟩ rfl
  obtain ⟨k, hprints, hk⟩ := hk₁.calls (prompt.map putsCall)
  have hzero : ∀ p ∈ prompt, ∀ c ∈ p.1, c ≠ 0 := fun p hp c hc =>
    hfits.ne_zero (List.mem_flatMap.mpr ⟨p, hp, List.mem_map_of_mem hc⟩)
  have hwritten := prints_written (d := ⟨.cleared, keyboardStateActivate⟩) written_empty
    (by unfold Still; decide) hlen hfits
  rw [hcolor] at hwritten
  have hkb : k.keyboard = keyboardStateActivate := hk.keyboard.trans
    (print_keyboard (d := ⟨.cleared, keyboardStateActivate⟩) rfl prompt hlen hzero)
  have hstart : Follows (Sheet.empty.print (textOf prompt)) command keyboardStateActivate 0 []
      ⟨k, ⟨command, 0⟩, .polling⟩ := by
    refine ⟨⟨_, hk, hwritten⟩, hwritten.ahead, ?_, ?_, ?_, ?_, ⟨0, Editing.start command⟩,
      fun rest => rfl⟩
    all_goals dsimp only
    all_goals rw [hkb]
    · exact ⟨rfl, rfl, rfl, rfl⟩
    · rfl
    · rfl
    · decide
  obtain ⟨s, hs, hout⟩ := typing_run es hstart (fun hc => by cases hc) hq
    (fun c hc => absurd hc List.not_mem_nil) htext hshort hroom
  refine ⟨k, s, ?_, hs, ?_⟩
  · rw [loop_cons]
    show (clearScreen _).bind _ = _
    rw [hrun]
    exact hprints
  · unfold Heard
    unfold Outcome at hout
    have hall : [] ++ inFlight .polling ++ heard keyboardStateActivate 0 .polling es =
      heard keyboardStateActivate 0 .polling es := rfl
    dsimp only at hout
    rw [hall] at hout
    cases hplace : s.place with
    | polling =>
      rw [hplace] at hout
      obtain ⟨kb, last, hf⟩ := hout
      exact hf.shown
    | echoing c =>
      rw [hplace] at hout
      obtain ⟨keys, kb, last, heq, hf⟩ := hout
      exact ⟨keys, heq, hf.shown⟩
    | done =>
      rw [hplace] at hout
      obtain ⟨keys, heq, he⟩ := hout
      exact ⟨keys, heq, he.submitted hwiped (heq ▸ hshort)⟩

theorem quiet_plain {kb : KeyboardDriverState} (hcaps : kb.capsLockOn = false)
    (hext : kb.readExtendedMode = false) (b : UInt8) : Quiet kb b :=
  ⟨fun _ _ _ _ _ _ h => absurd (hcaps.symm.trans h) Bool.false_ne_true,
    fun h => absurd (hext.symm.trans h) Bool.false_ne_true⟩

/-- `ls`; a key comes up between an answer and its echo. -/
def typingLs : List TypingEvent :=
  [.shell, .shell, .scancode 0x26, .shell, .scancode 0xA6, .shell, .scancode 0x1F, .shell, .shell,
    .scancode 0x1C, .shell, .shell]

theorem typed_line_runs_ls :
    (∃ k s, loop (.clearScreen :: [([36, 32], 0xF)].map putsCall) ConsoleCall.run
        ⟨whiteScreen, ⟨0, 0⟩, keyboardStateActivate⟩ = some k ∧
      runTyping typingLs ⟨k, ⟨Buffer.zeros, 0⟩, .polling⟩ = some s ∧
      Heard (Sheet.empty.print [(36, 0xF), (32, 0xF)]) [0, 108, 115, 10] s) ∧
    [108, 115, 10] <+: typed keyboardStateActivate [0x26, 0xA6, 0x1F, 0x1C] := by
  have hheard : heard keyboardStateActivate 0 .polling typingLs = [0, 108, 115, 10] := by decide
  have hletter : ∀ c : UInt8, Printable c.toInt8 → IsText c :=
    fun _ hc => Or.inr (Or.inr (Or.inr hc))
  have htext : ∀ c ∈ ([0, 108, 115, 10] : List UInt8), IsText c :=
    List.forall_mem_cons.mpr ⟨Or.inl rfl, List.forall_mem_cons.mpr ⟨hletter 108 (by decide),
      List.forall_mem_cons.mpr ⟨hletter 115 (by decide),
        List.forall_mem_singleton.mpr (Or.inr (Or.inr (Or.inl rfl)))⟩⟩⟩
  obtain ⟨hrun, htyped⟩ := typed_line_runs whiteScreen ⟨0, 0⟩ [([36, 32], 0xF)] (by decide)
    ⟨⟨by decide, by decide⟩, ⟨by decide, by decide⟩, trivial⟩ rfl (by decide) Buffer.zeros
    LossOs.Shell.Terminal.wiped_zeros typingLs
    ⟨quiet_plain (by decide) (by decide) _, quiet_plain (by decide) (by decide) _,
      quiet_plain (by decide) (by decide) _, quiet_plain (by decide) (by decide) _, trivial⟩
    (by rw [hheard]; exact htext) (by rw [hheard]; decide)
  rw [hheard] at hrun htyped
  exact ⟨hrun, htyped ⟨fun _ => rfl, fun h => absurd rfl h, fun _ => rfl, fun _ => rfl, trivial⟩⟩

end LossOs.Os
