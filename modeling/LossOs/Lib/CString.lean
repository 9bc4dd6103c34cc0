/-
  Strings that end with a NUL, and the copies of them.

  `charAt` reads the characters of a string and its NUL, and nothing behind that. A memory holds a
  string when its first bytes are these (`IsString`), and then it holds no other
  (`IsString.unique`). A buffer has a size; what would read or write behind it fails. `storeRow`
  copies to a row of a table of strings, `strcpy` and `strcat` to the start and to the end of the
  string in a buffer, which they do exactly if it has the room (`strcat_eq`).
-/
import LossOs.Lib.Bytes
import LossOs.Lib.Loops

namespace LossOs.Lib

/-! ## Strings in a memory -/

/-- Character `i` of a string. -/
def charAt (s : List UInt8) (i : Nat) : Option UInt8 := (s ++ [0])[i]?

/-- The memory starts with the characters and a NUL. -/
def Holds (m : Mem) (s : List UInt8) : Prop := ∀ j x, charAt s j = some x → m j = x

/-- The string at the start of the memory. -/
structure IsString (m : Mem) (s : List UInt8) : Prop where
  noNul : 0 ∉ s
  holds : Holds m s

section Strings

variable {m m' : Mem} {s t : List UInt8} {j : Nat}

theorem charAt_lt (h : j < s.length) : charAt s j = some s[j] := by
  unfold charAt
  rw [List.getElem?_append_left h, List.getElem?_eq_getElem h]

theorem charAt_length (s : List UInt8) : charAt s s.length = some 0 := by
  unfold charAt
  rw [List.getElem?_append_right (Nat.le_refl _), Nat.sub_self]
  rfl

/-- The characters behind `s`. -/
theorem charAt_append (s t : List UInt8) (j : Nat) :
    charAt (s ++ t) (s.length + j) = charAt t j := by
  unfold charAt
  rw [List.append_assoc, List.getElem?_append_right (by omega), Nat.add_sub_cancel_left]

theorem charAt_append_left (t : List UInt8) (h : j < s.length) :
    charAt (s ++ t) j = some s[j] := by
  unfold charAt
  rw [List.append_assoc, List.getElem?_append_left h, List.getElem?_eq_getElem h]

theorem holds_iff : Holds m s ↔ (∀ j (h : j < s.length), m j = s[j]) ∧ m s.length = 0 := by
  constructor
  · intro h
    exact ⟨fun j hj => h j _ (charAt_lt hj), h _ _ (charAt_length s)⟩
  · rintro ⟨h1, h2⟩ j x hx
    obtain ⟨hj, rfl⟩ := List.getElem?_eq_some_iff.mp hx
    rw [List.length_append, List.length_singleton] at hj
    by_cases hlt : j < s.length
    · rw [h1 j hlt, List.getElem_append_left hlt]
    · obtain rfl : j = s.length := by omega
      rw [h2, List.getElem_append_right (Nat.le_refl _)]
      simp

/-- The bytes that a list of them was read from. -/
theorem byte_eq_getElem {o n : Nat} (h : bytes m o n = s) (hj : j < s.length) :
    m (o + j) = s[j] := by
  subst h
  simp [bytes]

theorem IsString.byte_ne (h : IsString m s) (hj : j < s.length) : m j ≠ 0 := by
  rw [(holds_iff.mp h.holds).1 j hj]
  exact fun h0 => h.noNul (h0 ▸ List.getElem_mem hj)

theorem IsString.length_le (h : IsString m s) (h' : IsString m t) : s.length ≤ t.length := by
  by_contra hlt
  exact h.byte_ne (Nat.not_le.mp hlt) (holds_iff.mp h'.holds).2

/-- The bytes up to the first NUL are a string. -/
theorem IsString.of_bytes {n : Nat} (h : bytes m 0 n = s ++ 0 :: t) (hno : 0 ∉ s) :
    IsString m s := by
  have hbyte : ∀ j (hj : j < (s ++ 0 :: t).length), m j = (s ++ 0 :: t)[j] := by
    intro j hj
    rw [← byte_eq_getElem h hj, Nat.zero_add]
  have hlen : (s ++ 0 :: t).length = s.length + (t.length + 1) := List.length_append
  refine ⟨hno, holds_iff.mpr ⟨fun j hj => ?_, ?_⟩⟩
  · rw [hbyte j (by omega), List.getElem_append_left hj]
  · rw [hbyte s.length (by omega), List.getElem_append_right (Nat.le_refl _)]
    simp

/-- A memory holds one string. -/
theorem IsString.unique (h : IsString m s) (h' : IsString m t) : s = t := by
  have hlen := Nat.le_antisymm (h.length_le h') (h'.length_le h)
  apply List.ext_getElem hlen
  intro j hj hj'
  rw [← (holds_iff.mp h.holds).1 j hj, ← (holds_iff.mp h'.holds).1 j hj']

end Strings

/-! ## Rows of strings -/

/-- `char rows[][width]`. -/
abbrev Rows := Nat → Mem

/-- `rows[k][j] = c`. -/
def putRow (rows width k j : Nat) (c : UInt8) (m : Rows) : Option Rows :=
  if k < rows ∧ j < width then some fun k' j' => if k' = k ∧ j' = j then c else m k' j' else none

/-- `for (int j = 0; j < len; j++) rows[k][j] = src[j]; rows[k][len] = '\0';` -/
def storeRow (rows width k : Nat) (src : Nat → Option UInt8) (len : Nat) (m : Rows) :
    Option Rows := do
  let m ← loop (upTo 0 len) (fun j m => do
    let c ← src j
    putRow rows width k j c m) m
  putRow rows width k len 0 m

section Rows

variable {rows width k : Nat} {src : Nat → Option UInt8} {s : List UInt8}

/-- The loop writes the first characters. -/
theorem storeRow_loop (hk : k < rows) (m : Rows) (hsrc : ∀ j (h : j < s.length), src j = some s[j])
    {n : Nat} (hn : n ≤ s.length) (hw : n ≤ width) :
    ∃ m', loop (upTo 0 n) (fun j m => do
        let c ← src j
        putRow rows width k j c m) m = some m' ∧
      (∀ j (h : j < n), m' k j = s[j]) ∧ ∀ k' j, k' ≠ k ∨ n ≤ j → m' k' j = m k' j := by
  induction n with
  | zero => exact ⟨m, rfl, fun j hj => absurd hj (Nat.not_lt_zero j), fun _ _ _ => rfl⟩
  | succ n ih =>
    obtain ⟨m', hloop, hrow, hsame⟩ := ih (by omega) (by omega)
    refine ⟨fun k' j' => if k' = k ∧ j' = n then s[n] else m' k' j', ?_, fun j hj => ?_,
      fun k' j hkj => ?_⟩
    · rw [upTo_succ, loop_concat, hloop]
      show (src n >>= fun c => putRow rows width k n c m') = _
      rw [hsrc n hn]
      exact if_pos ⟨hk, hw⟩
    · by_cases hjn : j = n
      · subst hjn
        exact if_pos ⟨rfl, rfl⟩
      · exact (if_neg fun h => hjn h.2).trans (hrow j (by omega))
    · exact (if_neg (by omega)).trans (hsame k' j (by omega))

/-- The row holds the string; nothing else has changed. -/
theorem storeRow_eq (hk : k < rows) (m : Rows) (hsrc : ∀ j (h : j < s.length), src j = some s[j])
    (hw : s.length < width) :
    ∃ m', storeRow rows width k src s.length m = some m' ∧ Holds (m' k) s ∧
      ∀ k' j, k' ≠ k ∨ width ≤ j → m' k' j = m k' j := by
  obtain ⟨m', hloop, hrow, hsame⟩ := storeRow_loop hk m hsrc (Nat.le_refl _) (Nat.le_of_lt hw)
  refine ⟨fun k' j' => if k' = k ∧ j' = s.length then 0 else m' k' j', ?_,
    holds_iff.mpr ⟨fun j hj => ?_, if_pos ⟨rfl, rfl⟩⟩, fun k' j hkj => ?_⟩
  · unfold storeRow
    rw [hloop]
    exact if_pos ⟨hk, hw⟩
  · exact (if_neg fun h => absurd h.2 (Nat.ne_of_lt hj)).trans (hrow j hj)
  · exact (if_neg (by omega)).trans (hsame k' j (by omega))

end Rows

/-! ## Copies -/

/-- `while (*p) p++`, from `o` on: where the string ends. -/
def endOf (size : Nat) (m : Mem) (o : Nat) : Option Nat :=
  if _h : o < size then if m o = 0 then some o else endOf size m (o + 1) else none
  termination_by size - o

/-- `strlen`. -/
def strlen (size : Nat) (m : Mem) : Option Nat := endOf size m 0

/-- `while ((*dest++ = *src++))`. -/
def copyFrom (size : Nat) (src : Mem) (dest : Mem) (d s : Nat) : Option Mem :=
  if _h : d < size then
    if src s = 0 then some (wr8 dest d (src s))
    else copyFrom size src (wr8 dest d (src s)) (d + 1) (s + 1)
  else none
  termination_by size - d

/-- `strcpy`, to a buffer of `size` bytes. -/
def strcpy (size : Nat) (dest src : Mem) : Option Mem := copyFrom size src dest 0 0

/-- `strcat`, in a buffer of `size` bytes. -/
def strcat (size : Nat) (dest src : Mem) : Option Mem := do
  let d ← endOf size dest 0
  copyFrom size src dest d 0

section Copies

variable {m src dest : Mem} {s t : List UInt8} {size : Nat}

theorem endOf_eq (h : IsString m s) (hlen : s.length < size) {o : Nat} (ho : o ≤ s.length) :
    endOf size m o = some s.length := by
  obtain ⟨n, hn⟩ : ∃ n, s.length = o + n := ⟨s.length - o, by omega⟩
  induction n generalizing o with
  | zero =>
    obtain rfl : s.length = o := hn
    rw [endOf, dif_pos hlen, if_pos (holds_iff.mp h.holds).2]
  | succ n ih =>
    rw [endOf, dif_pos (by omega), if_neg (h.byte_ne (by omega))]
    exact ih (by omega) (by omega)

theorem strlen_eq (h : IsString m s) (hlen : s.length < size) : strlen size m = some s.length :=
  endOf_eq h hlen (Nat.zero_le _)

/-- The copy of what is left of a string from `o` on. -/
theorem copyFrom_eq (h : IsString src t) {o : Nat} (ho : o ≤ t.length) (dest : Mem) (d : Nat) :
    (d + (t.length - o) < size → ∃ dest', copyFrom size src dest d o = some dest' ∧
      (∀ j, o ≤ j → j ≤ t.length → dest' (d + (j - o)) = src j) ∧
      ∀ j, j < d → dest' j = dest j) ∧
    (size ≤ d + (t.length - o) → copyFrom size src dest d o = none) := by
  obtain ⟨n, hn⟩ : ∃ n, t.length = o + n := ⟨t.length - o, by omega⟩
  induction n generalizing o d dest with
  | zero =>
    obtain rfl : t.length = o := hn
    have h0 : src t.length = 0 := (holds_iff.mp h.holds).2
    rw [copyFrom, if_pos h0]
    constructor
    · intro hd
      rw [dif_pos (by omega)]
      refine ⟨_, rfl, fun j hj hj' => ?_, fun j hj => ?_⟩
      · obtain rfl : j = t.length := by omega
        exact if_pos (by omega)
      · exact if_neg (by omega)
    · intro hd
      exact dif_neg (by omega)
  | succ n ih =>
    rw [copyFrom, if_neg (h.byte_ne (by omega))]
    obtain ⟨hroom, hfull⟩ := ih (o := o + 1) (by omega) (wr8 dest d (src o)) (d + 1) (by omega)
    constructor
    · intro hd
      rw [dif_pos (by omega)]
      obtain ⟨dest', hcopy, hnew, hold⟩ := hroom (by omega)
      refine ⟨dest', hcopy, fun j hj hj' => ?_, fun j hj => ?_⟩
      · by_cases hjo : j = o
        · subst hjo
          rw [show d + (j - j) = d by omega, hold d (Nat.lt_succ_self d)]
          exact if_pos rfl
        · rw [show d + (j - o) = d + 1 + (j - (o + 1)) by omega]
          exact hnew j (by omega) hj'
      · exact (hold j (by omega)).trans (if_neg (by omega))
    · intro hd
      by_cases hlt : d < size
      · rw [dif_pos hlt]
        exact hfull (by omega)
      · exact dif_neg hlt

/-- The string that is in a buffer when another has been copied to the end of its first bytes. -/
theorem copyFrom_string (h : IsString src t) (hs : 0 ∉ s)
    (hdest : ∀ j (hj : j < s.length), dest j = s[j]) (hlen : s.length + t.length < size) :
    ∃ dest', copyFrom size src dest s.length 0 = some dest' ∧ IsString dest' (s ++ t) := by
  obtain ⟨dest', hcopy, hnew, hold⟩ := (copyFrom_eq h (Nat.zero_le _) dest s.length).1 hlen
  obtain ⟨ht1, ht2⟩ := holds_iff.mp h.holds
  refine ⟨dest', hcopy, ?_, holds_iff.mpr ⟨fun j hj => ?_, ?_⟩⟩
  · rw [List.mem_append, not_or]
    exact ⟨hs, h.noNul⟩
  · rw [List.length_append] at hj
    by_cases hlt : j < s.length
    · rw [List.getElem_append_left hlt, hold j hlt, hdest j hlt]
    · rw [List.getElem_append_right (by omega), ← ht1 _ (by omega)]
      have := hnew (j - s.length) (Nat.zero_le _) (by omega)
      rwa [Nat.sub_zero, Nat.add_sub_cancel' (by omega)] at this
  · have := hnew t.length (Nat.zero_le _) (Nat.le_refl _)
    rw [List.length_append]
    exact this.trans ht2

theorem strcpy_eq (h : IsString src t) (dest : Mem) (hlen : t.length < size) :
    ∃ dest', strcpy size dest src = some dest' ∧ IsString dest' t :=
  @copyFrom_string src dest [] t size h (by simp) (fun _ hj => absurd hj (Nat.not_lt_zero _))
    (by simpa using hlen)

/-- `strcat` appends exactly if the buffer has the room. -/
theorem strcat_eq (h : IsString dest s) (h' : IsString src t) (hs : s.length < size) :
    (s.length + t.length < size →
      ∃ dest', strcat size dest src = some dest' ∧ IsString dest' (s ++ t)) ∧
    (size ≤ s.length + t.length → strcat size dest src = none) := by
  unfold strcat
  rw [endOf_eq h hs (Nat.zero_le _)]
  exact ⟨copyFrom_string h' h.noNul (holds_iff.mp h.holds).1,
    (copyFrom_eq h' (Nat.zero_le _) dest s.length).2⟩

end Copies

end LossOs.Lib
