/-
  `process_command`: how a command line is cut into words.

  `tokens` says what the words of a line are, and what ends each of them. The splitter of the source
  works in place: it puts a NUL behind each word and goes on behind it (`argvLoop`). On what
  is left of the line it is a function of its own (`codeTokens`, `argvLoop_eq`), which gives the
  words of the line, and one empty word more when the last one has not used the newline up
  (`codeTokens_line`).
-/
import Mathlib.Data.List.Chain
import Mathlib.Data.List.TakeWhile
import Mathlib.Data.List.TakeDrop

namespace LossOs.Shell

/-! ## The words of a line -/

/-- What ends a word: a space, its closing quote, the line, or nothing if the quote stays open. -/
inductive Ending where
  | space
  | quote
  | line
  | unclosed
  deriving DecidableEq, Repr

structure Token where
  text : List UInt8
  ended : Ending
  deriving DecidableEq, Repr

/-- Between two words, or in a word or a quote with so much text. -/
inductive Lexing where
  | gap
  | word (text : List UInt8)
  | quote (text : List UInt8)

/-- The words of what is left of a line. -/
def tokensFrom : Lexing → List UInt8 → List Token
  | .gap, [] => []
  | .gap, c :: cs =>
      if c = 32 then tokensFrom .gap cs
      else if c = 34 then tokensFrom (.quote []) cs
      else tokensFrom (.word [c]) cs
  | .word text, [] => [⟨text, .line⟩]
  | .word text, c :: cs =>
      if c = 32 then ⟨text, .space⟩ :: tokensFrom .gap cs else tokensFrom (.word (text ++ [c])) cs
  | .quote text, [] => [⟨text, .unclosed⟩]
  | .quote text, c :: cs =>
      if c = 34 then ⟨text, .quote⟩ :: tokensFrom .gap cs else tokensFrom (.quote (text ++ [c])) cs

/-- The words of a line, which stands without its newline. -/
def tokens (line : List UInt8) : List Token := tokensFrom .gap line

/-! ## The splitter -/

/-- `*p`. -/
def byteAt (buf : List UInt8) (p : Nat) : UInt8 := buf.getD p 0

/-- `while (f(*p)) p++`, for a loop that stops at a NUL. -/
def advance (f : UInt8 → Bool) (buf : List UInt8) (p : Nat) : Nat :=
  p + ((buf.drop p).takeWhile f).length

def isSpace (c : UInt8) : Bool := c == 32

/-- What the inner loop of a quoted word runs over, and that of another. -/
def inQuote (c : UInt8) : Bool := c != 0 && c != 34

def inWord (c : UInt8) : Bool := c != 0 && c != 32 && c != 10

/-- The loop of `process_command`, with room for `k` more words: the buffer, into which it puts the
    terminators, and the pointers to the words. -/
def argvLoop :
    (k : Nat) → (buf : List UInt8) → (p : Nat) → (argv : List Nat) → List UInt8 × List Nat
  | 0, buf, _, argv => (buf, argv)
  | k + 1, buf, p, argv =>
      if byteAt buf p = 0 then (buf, argv)
      else
        let p := advance isSpace buf p
        if byteAt buf p = 0 then (buf, argv)
        else if byteAt buf p = 34 then
          let argv := argv ++ [p + 1]
          let p := advance inQuote buf (p + 1)
          if byteAt buf p = 34 then
            let buf := buf.set p 0
            argvLoop k buf (advance isSpace buf (p + 1)) argv
          else argvLoop k buf (advance isSpace buf p) argv
        else
          let argv := argv ++ [p]
          let p := advance inWord buf p
          if byteAt buf p ≠ 0 then argvLoop k (buf.set p 0) (p + 1) argv
          else argvLoop k buf p argv

/-- The string that starts at a pointer. -/
def stringAt (buf : List UInt8) (p : Nat) : List UInt8 := (buf.drop p).takeWhile (· != 0)

/-- The `argv` of `process_command`, as strings. -/
def commandArgv (command : List UInt8) : List (List UInt8) :=
  let p := advance (fun c => c == 32 || c == 10) command 0
  let (buf, argv) := argvLoop 10 command p []
  argv.map (stringAt buf)

/-! ## The splitter as a function of what is left -/

/-- The words that the loop finds in what is left of the line. -/
def codeTokens : Nat → List UInt8 → List (List UInt8)
  | 0, _ => []
  | k + 1, rest =>
      if rest.headD 0 = 0 then []
      else
        let rest := rest.dropWhile isSpace
        if rest.headD 0 = 0 then []
        else if rest.headD 0 = 34 then
          let behind := rest.tail.dropWhile inQuote
          rest.tail.takeWhile inQuote :: codeTokens k
            ((if behind.headD 0 = 34 then behind.tail else behind).dropWhile isSpace)
        else
          let behind := rest.dropWhile inWord
          rest.takeWhile inWord :: codeTokens k
            (if behind.headD 0 ≠ 0 then behind.tail else behind)

theorem byteAt_append (pre rest : List UInt8) : byteAt (pre ++ rest) pre.length = rest.headD 0 := by
  cases rest <;> simp [byteAt, List.getD_eq_getElem?_getD]

theorem advance_append (f : UInt8 → Bool) (pre rest : List UInt8) :
    advance f (pre ++ rest) pre.length = (pre ++ rest.takeWhile f).length := by
  simp [advance]

theorem split_at (f : UInt8 → Bool) (pre rest : List UInt8) :
    pre ++ rest = pre ++ rest.takeWhile f ++ rest.dropWhile f := by
  rw [List.append_assoc, List.takeWhile_append_dropWhile]

/-- A string that ends within the first part of the buffer does not see the second. -/
theorem stringAt_append {pre : List UInt8} {q : Nat} (h : 0 ∈ pre.drop q) (rest : List UInt8) :
    stringAt (pre ++ rest) q = stringAt pre q := by
  have hq : q ≤ pre.length := by
    by_contra hlt
    rw [List.drop_eq_nil_of_le (by omega)] at h
    simp at h
  rw [stringAt, stringAt, List.drop_append_of_le_length hq]
  rw [List.takeWhile_append, if_neg]
  intro hlen
  have hall := List.takeWhile_eq_self_iff.mp (List.Sublist.eq_of_length
    (List.takeWhile_sublist _) hlen) 0 h
  simp at hall

/-- The string that starts where the text does, when a NUL, or nothing, stands behind the text. -/
theorem stringAt_text (pre : List UInt8) {text rest : List UInt8} (h : 0 ∉ text)
    (hrest : rest.headD 0 = 0) : stringAt (pre ++ text ++ rest) pre.length = text := by
  rw [stringAt, List.append_assoc, List.drop_left]
  have htext : ∀ c ∈ text, (c != 0) = true := by
    intro c hc
    rw [bne_iff_ne]
    rintro rfl
    exact h hc
  rw [List.takeWhile_append_of_pos htext]
  cases rest with
  | nil => simp
  | cons c cs =>
    have hc : c = 0 := hrest
    simp [hc]

theorem headD_ne {rest : List UInt8} (h : rest.headD 0 ≠ 0) :
    ∃ c cs, rest = c :: cs ∧ rest.headD 0 = c := by
  cases rest with
  | nil => exact absurd rfl h
  | cons c cs => exact ⟨c, cs, rfl, rfl⟩

/-- At a NUL the loop ends, whatever room is left. -/
theorem argvLoop_end (k : Nat) {pre rest : List UInt8} (argv : List Nat) (h : rest.headD 0 = 0) :
    argvLoop k (pre ++ rest) pre.length argv = (pre ++ rest, argv) := by
  cases k with
  | zero => rfl
  | succ k => rw [argvLoop, if_pos (by rw [byteAt_append, h])]

theorem codeTokens_end (k : Nat) {rest : List UInt8} (h : rest.headD 0 = 0) :
    codeTokens k rest = [] := by
  cases k with
  | zero => rfl
  | succ k => rw [codeTokens, if_pos h]

theorem dropWhile_nul (f : UInt8 → Bool) (hf : f 0 = false) {rest : List UInt8}
    (h : rest.headD 0 = 0) : rest.dropWhile f = rest := by
  cases rest with
  | nil => rfl
  | cons c cs =>
    have hc : c = 0 := h
    rw [List.dropWhile_cons, hc, hf]
    rfl

theorem takeWhile_nul (f : UInt8 → Bool) (hf : f 0 = false) {rest : List UInt8}
    (h : rest.headD 0 = 0) : rest.takeWhile f = [] := by
  have := List.takeWhile_append_dropWhile (p := f) (l := rest)
  rw [dropWhile_nul f hf h] at this
  exact List.append_left_eq_self.mp this

/-- Behind a run of `f` stands a byte that `f` does not let pass, or the text ends. -/
theorem headD_dropWhile (f : UInt8 → Bool) (rest : List UInt8) :
    (rest.dropWhile f).headD 0 = 0 ∨ f ((rest.dropWhile f).headD 0) = false := by
  induction rest with
  | nil => exact Or.inl rfl
  | cons c cs ih =>
    rw [List.dropWhile_cons]
    split
    · exact ih
    · next hc => exact Or.inr (by simpa using hc)

theorem inQuote_iff {c : UInt8} : inQuote c = true ↔ c ≠ 0 ∧ c ≠ 34 := by
  simp [inQuote]

theorem inWord_iff {c : UInt8} : inWord c = true ↔ c ≠ 0 ∧ c ≠ 32 ∧ c ≠ 10 := by
  simp [inWord, and_assoc]

theorem inQuote_stop {c : UInt8} (h : inQuote c = false) : c = 0 ∨ c = 34 := by
  simp only [inQuote, Bool.and_eq_false_iff, bne_eq_false_iff_eq] at h
  exact h

theorem notMem_takeWhile {f : UInt8 → Bool} (hf : f 0 = false) (rest : List UInt8) :
    0 ∉ rest.takeWhile f := by
  intro h
  have := List.mem_takeWhile_imp h
  rw [hf] at this
  exact absurd this (by decide)

/-- One word more: its string is the text, and the strings before it are as they were. -/
theorem strings_next {pre : List UInt8} (gap : List UInt8) {text rest : List UInt8}
    {argv : List Nat} (h : ∀ q ∈ argv, 0 ∈ pre.drop q) (htext : 0 ∉ text)
    (hrest : rest.headD 0 = 0) :
    (argv ++ [(pre ++ gap).length]).map (stringAt (pre ++ gap ++ text ++ rest)) =
      argv.map (stringAt pre) ++ [text] := by
  rw [List.map_append, List.map_singleton, stringAt_text (pre ++ gap) htext hrest]
  congr 1
  apply List.map_congr_left
  intro q hq
  rw [List.append_assoc, List.append_assoc]
  exact stringAt_append (h q hq) _

/-- All of them end within what the loop has passed, once the NUL is behind the word. -/
theorem ended_next {pre : List UInt8} (gap text behind : List UInt8) {argv : List Nat}
    (h : ∀ q ∈ argv, 0 ∈ pre.drop q) :
    ∀ q ∈ argv ++ [(pre ++ gap).length], 0 ∈ (pre ++ gap ++ text ++ 0 :: behind).drop q := by
  intro q hq
  rcases List.mem_append.mp hq with hq | hq
  · rw [List.append_assoc, List.append_assoc, List.drop_append]
    exact List.mem_append_left _ (h q hq)
  · rw [List.mem_singleton.mp hq, List.append_assoc, List.drop_left]
    simp

/-- The strings stay as they are, whatever stands behind what the loop has passed. -/
theorem strings_kept {pre : List UInt8} {argv : List Nat} (h : ∀ q ∈ argv, 0 ∈ pre.drop q)
    (x : List UInt8) : argv.map (stringAt (pre ++ x)) = argv.map (stringAt pre) := by
  apply List.map_congr_left
  intro q hq
  exact stringAt_append (h q hq) x

theorem set_append (pre : List UInt8) (c d : UInt8) (cs : List UInt8) :
    (pre ++ c :: cs).set pre.length d = pre ++ d :: cs := by
  simp

/-- The loop on a buffer whose first part it has passed. Its pointers into that part give strings
    that end there, so the terminators that it still puts do not change them. -/
theorem argvLoop_eq (k : Nat) (pre rest : List UInt8) (argv : List Nat)
    (h : ∀ q ∈ argv, 0 ∈ pre.drop q) {r : List UInt8 × List Nat}
    (hr : argvLoop k (pre ++ rest) pre.length argv = r) :
    r.2.map (stringAt r.1) = argv.map (stringAt pre) ++ codeTokens k rest := by
  induction k generalizing pre rest argv with
  | zero =>
    rw [← hr, codeTokens, List.append_nil]
    exact strings_kept h rest
  | succ k ih =>
    rw [argvLoop, byteAt_append] at hr
    rw [codeTokens]
    split at hr
    · next hzero =>
      rw [← hr, if_pos hzero, List.append_nil]
      exact strings_kept h rest
    next hzero =>
    rw [if_neg hzero]
    rw [advance_append, split_at isSpace pre rest] at hr
    generalize rest.takeWhile isSpace = gap at hr
    generalize rest.dropWhile isSpace = rest at hr ⊢
    dsimp only at hr ⊢
    rw [byteAt_append] at hr
    split at hr
    · next hend =>
      rw [← hr, if_pos hend, List.append_nil, List.append_assoc]
      exact strings_kept h _
    next hend =>
    rw [if_neg hend]
    split at hr
    · next hquote =>
      -- the word starts behind its quote
      obtain ⟨c, cs, rfl, hc⟩ := headD_ne hend
      obtain rfl : c = 34 := hc ▸ hquote
      rw [if_pos hquote, List.tail_cons]
      have hbuf : pre ++ gap ++ 34 :: cs = pre ++ (gap ++ [34]) ++ cs := by simp
      have hp : (pre ++ gap).length + 1 = (pre ++ (gap ++ [34])).length := by simp; omega
      rw [hbuf, hp, advance_append, split_at inQuote _ cs] at hr
      have htext := notMem_takeWhile (f := inQuote) rfl cs
      have hstop := headD_dropWhile inQuote cs
      generalize cs.takeWhile inQuote = text at hr htext ⊢
      generalize cs.dropWhile inQuote = behind at hr hstop ⊢
      rw [byteAt_append] at hr
      split at hr
      · next hclosed =>
        have hne : behind.headD 0 ≠ 0 := by rw [hclosed]; decide
        obtain ⟨c, cs, rfl, hc⟩ := headD_ne hne
        have hnul : pre ++ (gap ++ [34]) ++ text ++ 0 :: cs =
            pre ++ (gap ++ [34]) ++ text ++ [0] ++ cs := by simp
        have hlen : (pre ++ (gap ++ [34]) ++ text).length + 1 =
            (pre ++ (gap ++ [34]) ++ text ++ [0]).length := by simp; omega
        rw [set_append, hnul, hlen, advance_append, split_at isSpace _ cs, List.append_assoc _ [0],
          List.singleton_append] at hr
        rw [if_pos hclosed, List.tail_cons, ih _ _ _ (ended_next _ _ _ h) hr,
          strings_next (gap ++ [34]) h htext rfl, List.append_assoc, List.singleton_append]
      · next hopen =>
        -- no closing quote: the loop has run up to the NUL
        have hnul : behind.headD 0 = 0 := by
          rcases hstop with hstop | hstop
          · exact hstop
          · exact (inQuote_stop hstop).resolve_right hopen
        have hstay := dropWhile_nul isSpace rfl hnul
        rw [advance_append, split_at isSpace _ behind, hstay,
          argvLoop_end k _ hnul] at hr
        rw [if_neg hopen, hstay, codeTokens_end k hnul, ← hr, List.append_assoc _ _ behind]
        apply strings_next _ h htext
        rw [takeWhile_nul isSpace rfl hnul, List.nil_append, hnul]
    · next hquote =>
      rw [if_neg hquote]
      rw [advance_append, split_at inWord _ rest] at hr
      have htext := notMem_takeWhile (f := inWord) rfl rest
      generalize rest.takeWhile inWord = text at hr htext ⊢
      generalize rest.dropWhile inWord = behind at hr ⊢
      rw [byteAt_append] at hr
      split at hr
      · next hmore =>
        obtain ⟨c, cs, rfl, hc⟩ := headD_ne hmore
        have hnul : pre ++ gap ++ text ++ 0 :: cs = pre ++ gap ++ text ++ [0] ++ cs := by simp
        have hlen : (pre ++ gap ++ text).length + 1 = (pre ++ gap ++ text ++ [0]).length := by
          simp; omega
        rw [set_append, hnul, hlen] at hr
        rw [if_pos hmore, List.tail_cons, ih _ _ _ (ended_next _ _ _ h) hr,
          strings_next gap h htext rfl, List.append_assoc, List.singleton_append]
      · next hnul =>
        have hnul : behind.headD 0 = 0 := by simpa using hnul
        rw [argvLoop_end k _ hnul] at hr
        rw [if_neg (fun hne => hne hnul), codeTokens_end k hnul, ← hr]
        exact strings_next _ h htext hnul

/-! ## What is left of a line -/

/-- The strings that the splitter makes of words: an unclosed quote takes the newline along, and
    where the last word has not used the newline up, an empty string is left of it. -/
def argvOf : List Token → List (List UInt8)
  | [] => [[]]
  | t :: ts =>
      match t.ended with
      | .line => [t.text]
      | .unclosed => [t.text ++ [10]]
      | _ => t.text :: argvOf ts

theorem tokensFrom_space (line : List UInt8) :
    tokensFrom .gap (line.dropWhile isSpace) = tokensFrom .gap line := by
  induction line with
  | nil => rfl
  | cons c cs ih =>
    rw [List.dropWhile_cons]
    split
    · next hc =>
      have hc : c = 32 := by simpa [isSpace] using hc
      rw [ih, tokensFrom, if_pos hc]
    · rfl

/-- A word runs up to a space, or up to the end of the line. -/
theorem tokensFrom_word (text line : List UInt8) :
    ((∀ c ∈ line, c ≠ 32) ∧ tokensFrom (.word text) line = [⟨text ++ line, .line⟩]) ∨
      ∃ word behind, line = word ++ 32 :: behind ∧ (∀ c ∈ word, c ≠ 32) ∧
        tokensFrom (.word text) line = ⟨text ++ word, .space⟩ :: tokensFrom .gap behind := by
  induction line generalizing text with
  | nil => exact Or.inl ⟨by simp, by simp [tokensFrom]⟩
  | cons c cs ih =>
    rw [tokensFrom]
    by_cases hc : c = 32
    · exact Or.inr ⟨[], cs, by simp [hc], by simp, by simp [hc]⟩
    rw [if_neg hc]
    obtain ⟨hall, heq⟩ | ⟨word, behind, rfl, hall, heq⟩ := ih (text ++ [c])
    · refine Or.inl ⟨?_, ?_⟩
      · simpa [hc] using hall
      · rw [heq, List.append_assoc, List.singleton_append]
    · refine Or.inr ⟨c :: word, behind, rfl, ?_, ?_⟩
      · simpa [hc] using hall
      · rw [heq, List.append_assoc, List.singleton_append]

/-- A quote runs up to its closing one, or is not closed. -/
theorem tokensFrom_quote (text line : List UInt8) :
    ((∀ c ∈ line, c ≠ 34) ∧ tokensFrom (.quote text) line = [⟨text ++ line, .unclosed⟩]) ∨
      ∃ word behind, line = word ++ 34 :: behind ∧ (∀ c ∈ word, c ≠ 34) ∧
        tokensFrom (.quote text) line = ⟨text ++ word, .quote⟩ :: tokensFrom .gap behind := by
  induction line generalizing text with
  | nil => exact Or.inl ⟨by simp, by simp [tokensFrom]⟩
  | cons c cs ih =>
    rw [tokensFrom]
    by_cases hc : c = 34
    · exact Or.inr ⟨[], cs, by simp [hc], by simp, by simp [hc]⟩
    rw [if_neg hc]
    obtain ⟨hall, heq⟩ | ⟨word, behind, rfl, hall, heq⟩ := ih (text ++ [c])
    · refine Or.inl ⟨?_, ?_⟩
      · simpa [hc] using hall
      · rw [heq, List.append_assoc, List.singleton_append]
    · refine Or.inr ⟨c :: word, behind, rfl, ?_, ?_⟩
      · simpa [hc] using hall
      · rw [heq, List.append_assoc, List.singleton_append]

theorem takeWhile_upto {f : UInt8 → Bool} {text : List UInt8} (h : ∀ c ∈ text, f c = true)
    {d : UInt8} (hd : f d = false) (rest : List UInt8) :
    (text ++ d :: rest).takeWhile f = text := by
  rw [List.takeWhile_append_of_pos h, List.takeWhile_cons, hd]
  simp

theorem dropWhile_upto {f : UInt8 → Bool} {text : List UInt8} (h : ∀ c ∈ text, f c = true)
    {d : UInt8} (hd : f d = false) (rest : List UInt8) :
    (text ++ d :: rest).dropWhile f = d :: rest := by
  rw [List.dropWhile_append_of_pos h, List.dropWhile_cons, hd]
  simp

/-- Behind the spaces of the line comes what is left of it, or its newline. -/
theorem dropWhile_line (line tail : List UInt8) :
    (line ++ 10 :: tail).dropWhile isSpace = line.dropWhile isSpace ++ 10 :: tail := by
  induction line with
  | nil => rfl
  | cons c cs ih =>
    rw [List.cons_append, List.dropWhile_cons, List.dropWhile_cons, ih]
    split
    · rfl
    · rfl

/-- A line as `terminal` reads it: no NUL, and no newline but the one behind it. -/
def Typed (line : List UInt8) : Prop := ∀ c ∈ line, c ≠ 0 ∧ c ≠ 10

theorem Typed.behind {text line : List UInt8} {c : UInt8} (h : Typed (text ++ c :: line)) :
    Typed line :=
  fun d hd => h d (List.mem_append_right _ (List.mem_cons_of_mem c hd))

/-- On what is left of a line, the loop gives the strings of its words. -/
theorem codeTokens_line (k : Nat) {line : List UInt8} (hline : Typed line) (tail : List UInt8) :
    codeTokens k (line ++ 10 :: 0 :: tail) = (argvOf (tokens line)).take k := by
  induction k generalizing line with
  | zero => rfl
  | succ k ih =>
    have hhead : ∀ {line : List UInt8}, Typed line → (line ++ 10 :: 0 :: tail).headD 0 ≠ 0 := by
      intro line hline
      cases line with
      | nil => simp
      | cons c cs => exact (hline c List.mem_cons_self).1
    rw [codeTokens, if_neg (hhead hline), dropWhile_line, tokens, ← tokensFrom_space]
    have hspace := headD_dropWhile isSpace line
    have hline : Typed (line.dropWhile isSpace) :=
      fun c hc => hline c ((List.dropWhile_sublist _).subset hc)
    generalize line.dropWhile isSpace = line at hspace hline ⊢
    dsimp only
    rw [if_neg (hhead hline)]
    cases line with
    | nil =>
      -- nothing is left but the newline, of which the loop makes a word
      rw [List.nil_append]
      have hword : (10 :: 0 :: tail).takeWhile inWord = [] := by simp [inWord]
      have hbehind : (10 :: 0 :: tail).dropWhile inWord = 10 :: 0 :: tail := by simp [inWord]
      rw [if_neg (by simp), hword, hbehind, if_pos (by simp), List.tail_cons,
        codeTokens_end k rfl, tokensFrom, argvOf, List.take_of_length_le (by simp)]
    | cons c cs =>
      have hc : c ≠ 32 := by
        rcases hspace with hspace | hspace
        · exact absurd hspace (hline c List.mem_cons_self).1
        · simpa [isSpace] using hspace
      have hcs : Typed cs := fun d hd => hline d (List.mem_cons_of_mem c hd)
      rw [tokensFrom, if_neg hc, List.cons_append, List.headD_cons, List.tail_cons]
      by_cases hquote : c = 34
      · rw [if_pos hquote, if_pos hquote]
        obtain ⟨hall, heq⟩ | ⟨text, behind, rfl, hall, heq⟩ := tokensFrom_quote [] cs
        · have hrun : ∀ d ∈ cs ++ [10], inQuote d = true := by
            intro d hd
            rcases List.mem_append.mp hd with hd | hd
            · exact inQuote_iff.mpr ⟨(hcs d hd).1, hall d hd⟩
            · rw [List.mem_singleton.mp hd]
              decide
          have hsplit : cs ++ 10 :: 0 :: tail = cs ++ [10] ++ 0 :: tail := by simp
          rw [heq, hsplit, takeWhile_upto hrun rfl, dropWhile_upto hrun rfl]
          rw [if_neg (by simp), dropWhile_nul isSpace rfl rfl, codeTokens_end k rfl]
          simp [argvOf]
        · have hrun : ∀ d ∈ text, inQuote d = true := by
            intro d hd
            exact inQuote_iff.mpr ⟨(hcs d (List.mem_append_left _ hd)).1, hall d hd⟩
          rw [heq, List.append_assoc, List.cons_append, takeWhile_upto hrun rfl,
            dropWhile_upto hrun rfl, if_pos (by simp), List.tail_cons, dropWhile_line,
            ih (fun d hd => hcs.behind d ((List.dropWhile_sublist _).subset hd)), tokens,
            tokensFrom_space, List.nil_append]
          simp [argvOf]
      · rw [if_neg hquote, if_neg hquote]
        obtain ⟨hall, heq⟩ | ⟨text, behind, rfl, hall, heq⟩ := tokensFrom_word [c] cs
        · have hrun : ∀ d ∈ c :: cs, inWord d = true := by
            intro d hd
            refine inWord_iff.mpr ⟨(hline d hd).1, ?_, (hline d hd).2⟩
            rcases List.mem_cons.mp hd with rfl | hd
            · exact hc
            · exact hall d hd
          rw [heq, ← List.cons_append, takeWhile_upto hrun rfl, dropWhile_upto hrun rfl,
            if_pos (by simp), List.tail_cons, codeTokens_end k rfl]
          simp [argvOf]
        · have hrun : ∀ d ∈ c :: text, inWord d = true := by
            intro d hd
            have hd' : d ∈ c :: (text ++ 32 :: behind) := List.mem_append_left _ hd
            refine inWord_iff.mpr ⟨(hline d hd').1, ?_, (hline d hd').2⟩
            rcases List.mem_cons.mp hd with rfl | hd
            · exact hc
            · exact hall d hd
          have hsplit : c :: (text ++ 32 :: behind ++ 10 :: 0 :: tail) =
              c :: text ++ 32 :: (behind ++ 10 :: 0 :: tail) := by simp
          rw [heq, hsplit, takeWhile_upto hrun rfl, dropWhile_upto hrun rfl, if_pos (by simp),
            List.tail_cons, ih hcs.behind, tokens]
          simp [argvOf]

/-! ## The words of the line -/

/-- The line or an unclosed quote ends the last word only. -/
theorem tokensFrom_chain (l : Lexing) (line : List UInt8) :
    (tokensFrom l line).IsChain (fun t _ => t.ended = .space ∨ t.ended = .quote) := by
  fun_induction tokensFrom l line with
  | case1 => exact List.isChain_nil
  | case5 text => exact List.isChain_singleton _
  | case6 text cs ih => exact List.isChain_cons.mpr ⟨fun _ _ => Or.inl rfl, ih⟩
  | case8 text => exact List.isChain_singleton _
  | case9 text cs ih => exact List.isChain_cons.mpr ⟨fun _ _ => Or.inr rfl, ih⟩
  | _ => assumption

theorem last_cons {t : Token} (h : t.ended ≠ .line) (ts : List Token) :
    (∃ u ∈ (t :: ts).getLast?, u.ended = .line) ↔ ∃ u ∈ ts.getLast?, u.ended = .line := by
  cases ts with
  | nil => simp [h]
  | cons u us => rw [List.getLast?_cons_cons]

/-- Where the strings of the words are the words: an unclosed quote is not among them, and either
    the line is used up by its last word or there is no room for more. -/
theorem argvOf_take {ts : List Token}
    (hts : ts.IsChain (fun t _ => t.ended = .space ∨ t.ended = .quote)) (k : Nat) :
    (argvOf ts).take k = (ts.take k).map Token.text ↔
      (∀ t ∈ ts.take k, t.ended ≠ .unclosed) ∧
        (k ≤ ts.length ∨ ∃ t ∈ ts.getLast?, t.ended = .line) := by
  induction ts generalizing k with
  | nil =>
    cases k with
    | zero => simp
    | succ k => simp [argvOf]
  | cons t ts ih =>
    cases k with
    | zero => simp
    | succ k =>
      obtain ⟨hhead, htail⟩ := List.isChain_cons.mp hts
      have hlast : t.ended = .line ∨ t.ended = .unclosed → ts = [] := by
        intro hended
        cases ts with
        | nil => rfl
        | cons u us => rcases hended with h | h <;> simp [h] at hhead
      rw [List.take_succ_cons, List.map_cons, List.forall_mem_cons, List.length_cons,
        Nat.succ_le_succ_iff]
      cases hended : t.ended with
      | line =>
        obtain rfl := hlast (Or.inl hended)
        simp [argvOf, hended]
      | unclosed =>
        simp [argvOf, hended]
      | space =>
        rw [last_cons (by simp [hended]), and_assoc, ← ih htail k]
        simp [argvOf, hended]
      | quote =>
        rw [last_cons (by simp [hended]), and_assoc, ← ih htail k]
        simp [argvOf, hended]

/-- A line whose words the splitter gets right: it is blank, or no unclosed quote is among its first
    ten words and there are ten of them or the newline ends the last. -/
def Clean (line : List UInt8) : Prop :=
  tokens line = [] ∨
    (∀ t ∈ (tokens line).take 10, t.ended ≠ .unclosed) ∧
      (10 ≤ (tokens line).length ∨ ∃ t ∈ (tokens line).getLast?, t.ended = .line)

theorem tokens_nil {line : List UInt8} : tokens line = [] ↔ line.dropWhile isSpace = [] := by
  rw [tokens, ← tokensFrom_space]
  have hspace := headD_dropWhile isSpace line
  generalize line.dropWhile isSpace = line at hspace ⊢
  cases line with
  | nil => simp [tokensFrom]
  | cons c cs =>
    have hc : c ≠ 32 := by
      rintro rfl
      revert hspace
      simp [isSpace]
    refine iff_of_false ?_ (by simp)
    rw [tokensFrom, if_neg hc]
    split
    · obtain ⟨-, heq⟩ | ⟨text, behind, -, -, heq⟩ := tokensFrom_quote [] cs
      · simp [heq]
      · simp [heq]
    · obtain ⟨-, heq⟩ | ⟨text, behind, -, -, heq⟩ := tokensFrom_word [c] cs
      · simp [heq]
      · simp [heq]

/-- The blanks at the start of the command, which a blank line is up to its NUL. -/
theorem dropWhile_blank {line : List UInt8} (hline : Typed line) (tail : List UInt8) :
    (line ++ 10 :: 0 :: tail).dropWhile (fun c => c == 32 || c == 10) =
      if tokens line = [] then 0 :: tail else line.dropWhile isSpace ++ 10 :: 0 :: tail := by
  simp only [tokens_nil]
  induction line with
  | nil => simp
  | cons c cs ih =>
    have hcs : Typed cs := fun d hd => hline d (List.mem_cons_of_mem c hd)
    have hc := (hline c List.mem_cons_self).2
    by_cases hspace : c = 32
    · simpa [hspace, isSpace] using ih hcs
    · simp [hspace, hc, isSpace]

/-- The argument vector of a command, read off behind its blanks. -/
theorem commandArgv_eq (command : List UInt8) :
    commandArgv command = codeTokens 10 (command.dropWhile (fun c => c == 32 || c == 10)) := by
  have hp := advance_append (fun c => c == 32 || c == 10) [] command
  rw [List.nil_append, List.nil_append, List.length_nil] at hp
  have hloop := argvLoop_eq 10 (command.takeWhile (fun c => c == 32 || c == 10))
    (command.dropWhile (fun c => c == 32 || c == 10)) [] (by simp) rfl
  rw [List.takeWhile_append_dropWhile] at hloop
  rw [commandArgv, hp]
  exact hloop

/-- `argv` is the first ten words of the line, exactly where the line is clean. -/
theorem command_tokens_iff {line : List UInt8} (hline : Typed line) (tail : List UInt8) :
    commandArgv (line ++ 10 :: 0 :: tail) = ((tokens line).take 10).map Token.text ↔
      Clean line := by
  rw [commandArgv_eq, dropWhile_blank hline, Clean]
  split
  · next hnil =>
    rw [codeTokens_end 10 rfl, hnil]
    simp
  · next hsome =>
    have hrest : Typed (line.dropWhile isSpace) :=
      fun c hc => hline c ((List.dropWhile_sublist _).subset hc)
    rw [codeTokens_line 10 hrest, tokens, tokensFrom_space, ← tokens, or_iff_right hsome]
    exact argvOf_take (tokensFrom_chain .gap line) 10

/-- A line that is clean: a command and its argument. -/
theorem command_tokens_mkdir :
    commandArgv [109, 107, 100, 105, 114, 32, 97, 10, 0, 0] = [[109, 107, 100, 105, 114], [97]] :=
  (@command_tokens_iff [109, 107, 100, 105, 114, 32, 97] (by unfold Typed; simp)
    [0]).mpr (Or.inr (by decide))

/-- A space before the newline, and a quote as the last word, leave an empty word behind. For
    `mkdir` with a space behind it, that word is the name of a directory. -/
theorem command_tokens_not :
    commandArgv [108, 115, 32, 10, 0] = [[108, 115], []] ∧
      (tokens [108, 115, 32]).map Token.text = [[108, 115]] ∧
      commandArgv [108, 115, 32, 34, 97, 34, 10, 0] = [[108, 115], [97], []] ∧
      (tokens [108, 115, 32, 34, 97, 34]).map Token.text = [[108, 115], [97]] := by
  decide

end LossOs.Shell
