/-
  `terminal`: how a command line is typed.

  The loop of `terminal` edits the line in place, in the 1000 bytes of `command`, and stops at no
  bound. `edited` is what the keys say, `longest` how long the line gets on the way. The bytes up
  to there are the line and NULs, those behind it are what earlier lines have left (`Editing`).
  So `process_command` gets the line that was typed exactly if it stays in the buffer and a NUL
  stands behind it (`readLine_right_iff`), which is so for each line of up to 98 characters
  (`short_lines_fit`).
-/
import LossOs.Shell.CommandLine

namespace LossOs.Shell.Terminal

/-! ## The loop -/

/-- The bytes of `char command[10][100]`. -/
structure Buffer where
  bytes : List UInt8
  size : bytes.length = 1000

def Buffer.zeros : Buffer := ⟨List.replicate 1000 0, List.length_replicate⟩

/-- `command[0][index] = c`, inside of the buffer only. -/
def Buffer.store (command : Buffer) (index : Nat) (c : UInt8) : Option Buffer :=
  if index < 1000 then some ⟨command.bytes.set index c, by rw [List.length_set, command.size]⟩
  else none

/-- The variables of the loop. -/
structure State where
  command : Buffer
  indexCommand : Nat

/-- One round: the character is 0 when no key was pressed. -/
def key (s : State) (buf : UInt8) : Option State :=
  if buf = 8 then
    if s.indexCommand > 0 then do
      let command ← s.command.store s.indexCommand 0
      some ⟨command, s.indexCommand - 1⟩
    else some s
  else if buf ≠ 0 then do
    let command ← s.command.store s.indexCommand buf
    some ⟨command, s.indexCommand + 1⟩
  else some s

/-- `while (buf != '\n')`. Without a newline it waits for more keys. -/
def readLine : (keys : List UInt8) → State → Option State
  | [], _ => none
  | buf :: keys, s => do
      let s ← key s buf
      if buf = 10 then some s else readLine keys s

theorem argvLoop_length (k : Nat) (buf : List UInt8) (p : Nat) (argv : List Nat) :
    (argvLoop k buf p argv).1.length = buf.length := by
  induction k generalizing buf p argv with
  | zero => rfl
  | succ k ih =>
    rw [argvLoop]
    dsimp only
    split_ifs
    · rfl
    · rfl
    · rw [ih, List.length_set]
    · exact ih _ _ _
    · rw [ih, List.length_set]
    · exact ih _ _ _

/-- What `process_command` leaves of the buffer: none of the commands writes to its words. -/
def processCommand (command : Buffer) : Buffer :=
  let p := advance (fun c => c == 32 || c == 10) command.bytes 0
  ⟨(argvLoop 10 command.bytes p []).1, by rw [argvLoop_length, command.size]⟩

/-- The first 100 bytes become 0. -/
def wipe (command : Buffer) : Buffer :=
  ⟨List.replicate 100 0 ++ command.bytes.drop 100, by
    rw [List.length_append, List.length_replicate, List.length_drop, command.size]⟩

/-- `terminal`, for one line. -/
def terminal (command : Buffer) (keys : List UInt8) : Option Buffer := do
  let s ← readLine (keys ++ [10]) ⟨command, 0⟩
  some (wipe (processCommand s.command))

/-! ## The edited line -/

/-- What one key makes of the line. -/
def edit (line : List UInt8) (c : UInt8) : List UInt8 :=
  if c = 8 then line.dropLast else if c = 0 then line else line ++ [c]

/-- The line that the keys type. -/
def edited (keys : List UInt8) : List UInt8 := keys.foldl edit []

/-- The most characters that the line has while the keys are pressed. -/
def longest : (line keys : List UInt8) → Nat
  | line, [] => line.length
  | line, c :: keys => max line.length (longest (edit line c) keys)

theorem length_le_longest (line keys : List UInt8) : line.length ≤ longest line keys := by
  cases keys with
  | nil => exact Nat.le_refl _
  | cons c keys => exact Nat.le_max_left _ _

theorem edited_le_longest (line keys : List UInt8) :
    (keys.foldl edit line).length ≤ longest line keys := by
  induction keys generalizing line with
  | nil => exact Nat.le_refl _
  | cons c keys ih => exact (ih _).trans (Nat.le_max_right _ _)

theorem edit_notMem {line : List UInt8} (h : 0 ∉ line) (c : UInt8) : 0 ∉ edit line c := by
  unfold edit
  split_ifs with h8 h0
  · exact fun hm => h ((List.dropLast_sublist line).subset hm)
  · exact h
  · rw [List.mem_append, List.mem_singleton, not_or]
    exact ⟨h, fun heq => h0 heq.symm⟩

theorem edited_notMem (keys : List UInt8) : 0 ∉ edited keys := by
  have hgo : ∀ (keys line : List UInt8), 0 ∉ line → 0 ∉ keys.foldl edit line := by
    intro keys
    induction keys with
    | nil => exact fun line h => h
    | cons c keys ih => exact fun line h => ih _ (edit_notMem h c)
  exact hgo keys [] (by simp)

/-! ## The line in the buffer -/

/-- The line stands in the buffer. Between it and the farthest place it got to are NULs; what lies
    behind is as it was before the line. -/
structure Editing (before : Buffer) (line : List UInt8) (far : Nat) (s : State) : Prop where
  index_eq : s.indexCommand = line.length
  le_far : line.length ≤ far
  here : ∀ j, j < line.length → s.command.bytes[j]? = (line)[j]?
  erased : ∀ j, line.length < j → j ≤ far → j < 1000 → s.command.bytes[j]? = some 0
  behind : ∀ j, far < j → s.command.bytes[j]? = before.bytes[j]?

theorem Editing.start (before : Buffer) : Editing before [] 0 ⟨before, 0⟩ where
  index_eq := rfl
  le_far := Nat.le_refl _
  here := fun j hj => absurd hj (Nat.not_lt_zero j)
  erased := fun _ hj hj' => absurd hj' (Nat.not_le.mpr hj)
  behind := fun _ _ => rfl

section Editing

variable {before : Buffer} {line : List UInt8} {far : Nat} {s : State}

/-- A key that finds the line in the buffer, or that writes nothing. -/
theorem Editing.key (h : Editing before line far s) {c : UInt8}
    (hc : line.length < 1000) : ∃ s', Terminal.key s c = some s' ∧
      Editing before (edit line c) (max far (edit line c).length) s' := by
  have hsize := s.command.size
  unfold Terminal.key edit Buffer.store
  rw [h.index_eq]
  by_cases h8 : c = 8
  · rw [if_pos h8, if_pos h8]
    by_cases hpos : line.length > 0
    · rw [if_pos hpos, if_pos hc]
      have hlen : line.dropLast.length = line.length - 1 := List.length_dropLast
      have hfar := h.le_far
      rw [Nat.max_eq_left (by omega)]
      refine ⟨_, rfl, hlen.symm, by omega, fun j hj => ?_, fun j hj hj' hj'' => ?_, fun j hj => ?_⟩
      · show (s.command.bytes.set line.length 0)[j]? = _
        rw [List.getElem?_set_ne (by omega), h.here j (by omega), List.getElem?_dropLast,
          if_pos (by omega)]
      · show (s.command.bytes.set line.length 0)[j]? = _
        by_cases hj0 : line.length = j
        · rw [← hj0, List.getElem?_set_self (by omega)]
        · rw [List.getElem?_set_ne hj0, h.erased j (by omega) hj' hj'']
      · show (s.command.bytes.set line.length 0)[j]? = _
        rw [List.getElem?_set_ne (by omega), h.behind j hj]
    · have hnil : line = [] := List.length_eq_zero_iff.mp (by omega)
      rw [if_neg hpos, hnil, List.dropLast_nil, List.length_nil, Nat.max_eq_left (Nat.zero_le _),
        ← hnil]
      exact ⟨s, rfl, h⟩
  · rw [if_neg h8, if_neg h8]
    by_cases h0 : c = 0
    · rw [if_neg (not_not_intro h0), if_pos h0, Nat.max_eq_left h.le_far]
      exact ⟨s, rfl, h⟩
    · rw [if_pos h0, if_neg h0, if_pos hc]
      have hlen : (line ++ [c]).length = line.length + 1 := List.length_append
      have hfar := h.le_far
      refine ⟨_, rfl, hlen.symm, Nat.le_max_right _ _, fun j hj => ?_, fun j hj hj' hj'' => ?_,
        fun j hj => ?_⟩
      · show (s.command.bytes.set line.length c)[j]? = _
        by_cases hj0 : line.length = j
        · rw [← hj0, List.getElem?_set_self (by omega), List.getElem?_concat_length]
        · rw [List.getElem?_set_ne hj0, h.here j (by omega), List.getElem?_append_left (by omega)]
      · show (s.command.bytes.set line.length c)[j]? = _
        rw [List.getElem?_set_ne (by omega), h.erased j (by omega) (by omega) hj'']
      · show (s.command.bytes.set line.length c)[j]? = _
        rw [List.getElem?_set_ne (by omega), h.behind j (by omega)]

/-- A line that stays in the buffer is edited there. -/
theorem Editing.keys (h : Editing before line far s) {keys : List UInt8}
    (hkeys : ∀ c ∈ keys, c ≠ 10) (hlong : longest line keys < 1000) :
    ∃ s', Editing before (keys.foldl edit line) (max far (longest line keys)) s' ∧
      ∀ rest, readLine (keys ++ rest) s = readLine rest s' := by
  induction keys generalizing line far s with
  | nil =>
    refine ⟨s, ?_, fun rest => rfl⟩
    show Editing before line (max far line.length) s
    rwa [Nat.max_eq_left h.le_far]
  | cons c keys ih =>
    obtain ⟨s₁, hkey, hs₁⟩ := h.key (c := c) (Nat.lt_of_le_of_lt (length_le_longest _ _) hlong)
    obtain ⟨s₂, hs₂, hread⟩ := ih hs₁ (fun c' hc' => hkeys c' (List.mem_cons_of_mem c hc'))
      (Nat.lt_of_le_of_lt (Nat.le_max_right _ _) hlong)
    refine ⟨s₂, ?_, fun rest => ?_⟩
    · have hle := length_le_longest (edit line c) keys
      have hfar := h.le_far
      have heq : max far (longest line (c :: keys)) =
          max (max far (edit line c).length) (longest (edit line c) keys) := by
        rw [longest]
        omega
      rw [heq]
      exact hs₂
    · rw [List.cons_append, readLine, hkey]
      simp only [Option.bind_eq_bind, Option.bind_some]
      rw [if_neg (hkeys c List.mem_cons_self)]
      exact hread rest

/-- A line that does not stay in the buffer is written outside of it. -/
theorem readLine_outside (h : Editing before line far s) {keys : List UInt8}
    (hkeys : ∀ c ∈ keys, c ≠ 10) (hlong : 1000 ≤ longest line keys) :
    readLine (keys ++ [10]) s = none := by
  induction keys generalizing line far s with
  | nil =>
    have hlen : 1000 ≤ line.length := hlong
    rw [List.nil_append, readLine]
    unfold Terminal.key Buffer.store
    rw [h.index_eq, if_neg (by decide), if_pos (by decide), if_neg (by omega)]
    rfl
  | cons c keys ih =>
    rw [List.cons_append, readLine]
    by_cases hlen : line.length < 1000
    · obtain ⟨s', hkey, hs'⟩ := h.key (c := c) hlen
      rw [hkey]
      simp only [Option.bind_eq_bind, Option.bind_some]
      have hne : (if c = 10 then some s' else readLine (keys ++ [10]) s') =
          readLine (keys ++ [10]) s' := if_neg (hkeys c List.mem_cons_self)
      rw [hne]
      rw [longest] at hlong
      exact ih hs' (fun c' hc' => hkeys c' (List.mem_cons_of_mem c hc')) (by omega)
    · by_cases h0 : c = 0
      · have hkey : Terminal.key s c = some s := by
          rw [h0]
          rfl
        rw [hkey]
        simp only [Option.bind_eq_bind, Option.bind_some]
        rw [if_neg (hkeys c List.mem_cons_self)]
        refine ih h (fun c' hc' => hkeys c' (List.mem_cons_of_mem c hc')) ?_
        exact (Nat.not_lt.mp hlen).trans (length_le_longest line keys)
      · have hkey : Terminal.key s c = none := by
          unfold Terminal.key Buffer.store
          rw [h.index_eq]
          split_ifs
          · rfl
          · omega
          · rfl
        rw [hkey]
        rfl

end Editing

/-! ## What `process_command` gets -/

/-- The line is the string at the start of the buffer. -/
def Right (command : Buffer) (keys : List UInt8) : Prop :=
  ∃ s, readLine (keys ++ [10]) ⟨command, 0⟩ = some s ∧ 0 ∈ s.command.bytes ∧
    stringAt s.command.bytes 0 = edited keys ++ [10]

/-- The line stays in the buffer, and the byte behind its newline is 0: that of an erased
    character, or one that was 0 before. -/
def Fits (command : Buffer) (keys : List UInt8) : Prop :=
  longest [] keys < 1000 ∧ ((edited keys).length < longest [] keys ∨
    command.bytes[(edited keys).length + 1]? = some 0)

/-- The string at the start ends behind a text exactly if a NUL is there. -/
theorem stringAt_start {text bytes : List UInt8} (htext : 0 ∉ text)
    (h : ∀ j, j < text.length → bytes[j]? = text[j]?) :
    0 ∈ bytes ∧ stringAt bytes 0 = text ↔ bytes[text.length]? = some 0 := by
  have hpre : bytes = text ++ bytes.drop text.length := by
    refine List.ext_getElem? fun j => ?_
    by_cases hj : j < text.length
    · rw [List.getElem?_append_left hj, h j hj]
    · rw [List.getElem?_append_right (by omega), List.getElem?_drop]
      congr 1
      omega
  rw [← List.head?_drop]
  generalize bytes.drop text.length = rest at hpre
  subst hpre
  constructor
  · rintro ⟨hmem, hstring⟩
    cases rest with
    | nil => exact absurd (by simpa using hmem) htext
    | cons c rest =>
      by_contra hc
      have hc0 : c ≠ 0 := fun h => hc (congrArg some h)
      unfold stringAt at hstring
      rw [List.drop_zero, List.takeWhile_append_of_pos, List.takeWhile_cons_of_pos] at hstring
      · exact absurd (List.append_right_eq_self.mp hstring) (List.cons_ne_nil _ _)
      · exact bne_iff_ne.mpr hc0
      · exact fun c hc => bne_iff_ne.mpr fun h => htext (h ▸ hc)
  · intro hhead
    obtain ⟨rest, rfl⟩ := List.head?_eq_some_iff.mp hhead
    refine ⟨by simp, ?_⟩
    exact stringAt_text [] htext rfl

/-- `process_command` gets the line exactly if it fits. -/
theorem readLine_right_iff (command : Buffer) {keys : List UInt8} (hkeys : ∀ c ∈ keys, c ≠ 10) :
    Right command keys ↔ Fits command keys := by
  unfold Right Fits
  by_cases hlong : longest [] keys < 1000
  · obtain ⟨s, hs, hread⟩ := (Editing.start command).keys hkeys hlong
    rw [Nat.zero_max] at hs
    change Editing command (edited keys) _ s at hs
    have hle : (edited keys).length ≤ longest [] keys := hs.le_far
    have hnew : readLine (keys ++ [10]) ⟨command, 0⟩ =
        some ⟨⟨s.command.bytes.set (edited keys).length
        10, by rw [List.length_set, s.command.size]⟩, (edited keys).length + 1⟩ := by
      rw [hread, readLine]
      unfold key Buffer.store
      rw [hs.index_eq, if_neg (by decide), if_pos (by decide), if_pos (by omega)]
      rfl
    rw [hnew, and_iff_right hlong]
    have hsize := s.command.size
    have hstart := @stringAt_start (edited keys ++ [10])
      (s.command.bytes.set (edited keys).length 10) ?_ ?_
    · rw [List.length_append, List.length_singleton, List.getElem?_set_ne (by omega)] at hstart
      constructor
      · rintro ⟨s', hs', hright⟩
        obtain rfl := Option.some.inj hs'
        have h0 := hstart.mp hright
        by_cases hlt : (edited keys).length < longest [] keys
        · exact Or.inl hlt
        · exact Or.inr ((hs.behind _ (by omega)).symm.trans h0)
      · intro hfits
        refine ⟨_, rfl, hstart.mpr ?_⟩
        by_cases hlt : (edited keys).length < longest [] keys
        · exact hs.erased _ (Nat.lt_succ_self _) hlt (by omega)
        · exact (hs.behind _ (by omega)).trans (hfits.resolve_left hlt)
    · rw [List.mem_append, not_or]
      exact ⟨edited_notMem keys, by decide⟩
    · intro j hj
      rw [List.length_append, List.length_singleton] at hj
      by_cases hj0 : (edited keys).length = j
      · rw [← hj0, List.getElem?_set_self (by omega), List.getElem?_concat_length]
      · rw [List.getElem?_set_ne hj0, hs.here j (by omega), List.getElem?_append_left (by omega)]
  · refine iff_of_false ?_ fun h => hlong h.1
    rintro ⟨s, hs, -⟩
    rw [readLine_outside (Editing.start command) hkeys (by omega)] at hs
    cases hs

/-! ## Line after line -/

/-- Each line is as `P` says, in the buffer that the lines before it have left. -/
def EachLine (P : Buffer → List UInt8 → Prop) :
    (command : Buffer) → (lines : List (List UInt8)) → Prop
  | _, [] => True
  | command, keys :: lines =>
      P command keys ∧ ∀ command', terminal command keys = some command' →
        EachLine P command' lines

/-- The first 100 bytes are 0. -/
def Wiped (command : Buffer) : Prop := ∀ j, j < 100 → command.bytes[j]? = some 0

theorem wiped_zeros : Wiped Buffer.zeros :=
  fun j hj => List.getElem?_replicate_of_lt (by omega)

theorem terminal_wiped {command command' : Buffer} {keys : List UInt8}
    (h : terminal command keys = some command') : Wiped command' := by
  obtain ⟨s, -, hs⟩ := Option.bind_eq_some_iff.mp h
  obtain rfl := Option.some.inj hs
  intro j hj
  show (List.replicate 100 0 ++ (processCommand s.command).bytes.drop 100)[j]? = some 0
  rw [List.getElem?_append_left (by rwa [List.length_replicate]), List.getElem?_replicate_of_lt hj]

/-- Lines that stay within 98 characters fit, whatever lines are among those before them. -/
theorem fits_of_wiped {command : Buffer} (h : Wiped command) {keys : List UInt8}
    (hlong : longest [] keys ≤ 98) : Fits command keys := by
  have hle : (edited keys).length ≤ longest [] keys := edited_le_longest [] keys
  exact ⟨by omega, Or.inr (h _ (by omega))⟩

theorem short_lines_fit {command : Buffer} (h : Wiped command) {lines : List (List UInt8)}
    (hlines : ∀ keys ∈ lines, longest [] keys ≤ 98) : EachLine Fits command lines := by
  induction lines generalizing command with
  | nil => trivial
  | cons keys lines ih =>
    refine ⟨fits_of_wiped h (hlines keys List.mem_cons_self), fun command' hrun => ?_⟩
    exact ih (terminal_wiped hrun) fun k hk => hlines k (List.mem_cons_of_mem keys hk)

/-- From any buffer, the lines are right exactly if they fit. -/
theorem eachLine_iff (command : Buffer) {lines : List (List UInt8)}
    (hlines : ∀ keys ∈ lines, ∀ c ∈ keys, c ≠ 10) :
    EachLine Right command lines ↔ EachLine Fits command lines := by
  induction lines generalizing command with
  | nil => exact Iff.rfl
  | cons keys lines ih =>
    apply and_congr (readLine_right_iff command (hlines keys List.mem_cons_self))
    exact forall₂_congr fun command' _ =>
      ih command' fun k hk => hlines k (List.mem_cons_of_mem keys hk)

/-- From the start on, `process_command` gets each line as it was typed exactly if each stays in
    the buffer with a NUL behind it. -/
theorem terminal_lines_iff {lines : List (List UInt8)}
    (hlines : ∀ keys ∈ lines, ∀ c ∈ keys, c ≠ 10) :
    EachLine Right Buffer.zeros lines ↔ EachLine Fits Buffer.zeros lines :=
  eachLine_iff Buffer.zeros hlines

/-- `ls`, with a slip that is taken back. -/
theorem terminal_lines_ls : EachLine Right Buffer.zeros [[108, 108, 8, 115]] :=
  (@terminal_lines_iff [[108, 108, 8, 115]] (by simp)).mpr
    (short_lines_fit wiped_zeros (by decide))

theorem longest_replicate {c : UInt8} (h8 : c ≠ 8) (h0 : c ≠ 0) (n : Nat) (line : List UInt8) :
    longest line (List.replicate n c) = line.length + n := by
  induction n generalizing line with
  | zero => rfl
  | succ n ih =>
    have hedit : edit line c = line ++ [c] := (if_neg h8).trans (if_neg h0)
    rw [List.replicate_succ, longest, ih, hedit, List.length_append, List.length_singleton]
    omega

/-- The 1000 bytes are not enough for 1000 letters, and of a line of 101 letters the last one is
    read behind a line of 99. -/
theorem terminal_overflow :
    readLine (List.replicate 1000 97 ++ [10]) ⟨Buffer.zeros, 0⟩ = none ∧
      ¬ EachLine Right Buffer.zeros [List.replicate 1000 97] ∧
      ¬ EachLine Right Buffer.zeros [List.replicate 101 97, List.replicate 99 98] := by
  have hkeys : ∀ {n : Nat} {c : UInt8}, c ≠ 10 → ∀ d ∈ List.replicate n c, d ≠ 10 := by
    intro n c hc d hd
    rw [List.eq_of_mem_replicate hd]
    exact hc
  have hout : readLine (List.replicate 1000 97 ++ [10]) ⟨Buffer.zeros, 0⟩ = none := by
    apply readLine_outside (Editing.start _) (hkeys (by decide))
    rw [longest_replicate (by decide) (by decide)]
    decide
  refine ⟨hout, ?_, ?_⟩
  · rintro ⟨⟨s, hs, -⟩, -⟩
    rw [hout] at hs
    cases hs
  · rintro ⟨-, h⟩
    have hleft : (terminal Buffer.zeros (List.replicate 101 97)).map (fun b => b.bytes[100]?) =
        some (some 97) := by decide +kernel
    obtain ⟨command', hrun, hbyte⟩ := Option.map_eq_some_iff.mp hleft
    have hfits := (readLine_right_iff command' (hkeys (by decide))).mp (h command' hrun).1
    have hlen : (edited (List.replicate 99 98)).length = 99 := by decide +kernel
    have hlong : longest [] (List.replicate 99 98) = 99 :=
      longest_replicate (by decide) (by decide) 99 []
    have h0 := hfits.2
    rw [hlen, hlong, hbyte] at h0
    revert h0
    decide

end LossOs.Shell.Terminal
