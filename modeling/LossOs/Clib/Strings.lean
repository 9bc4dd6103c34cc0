/-
  `lib/string.c`: `memcpy`, `memmove` and `split`.

  A memory has a size; what would read or write behind it fails. `memmove` copies from the end that
  is safe: after each round the bytes that are still to be read are those of the start, and in the
  end the memory is the old one with the source laid over the destination (`memmove_eq`). `split`
  cuts the string while it scans it. In front of the scan are the tokens that are complete and the
  one that is not, and they are the scanned part of the string when they are joined (`At`).
-/
import LossOs.Lib.CString

namespace LossOs.Clib

open LossOs.Lib

/-! ## Memories with a size -/

/-- The byte at address `a`, in a memory of `size` bytes. -/
def load (size a : Nat) (m : Mem) : Option UInt8 := if a < size then some (m a) else none

/-- Store a byte at address `a`. -/
def store (size a : Nat) (v : UInt8) (m : Mem) : Option Mem :=
  if a < size then some (wr8 m a v) else none

theorem load_of_lt {size a : Nat} (h : a < size) (m : Mem) : load size a m = some (m a) :=
  if_pos h

theorem store_of_lt {size a : Nat} (h : a < size) (v : UInt8) (m : Mem) :
    store size a v m = some (wr8 m a v) := if_pos h

/-! ## `memcpy` and `memmove` -/

/-- `memcpy`, from a source outside of the memory: `for (size_t i = 0; i < n; i++)`. -/
def memcpy (size dest : Nat) (src : Mem) (n : Nat) (m : Mem) : Option Mem :=
  loop (upTo 0 n) (fun i m => store size (dest + i) (src i) m) m

/-- The values of `i` in `for (size_t i = n; i != 0; i--)`. -/
def downFrom : Nat → List Nat
  | 0 => []
  | n + 1 => (n + 1) :: downFrom n

/-- `dstbuf[i] = srcbuf[i]`. -/
def moveByte (size dest src i : Nat) (m : Mem) : Option Mem := do
  let v ← load size (src + i) m
  store size (dest + i) v m

/-- `memmove`: what it returns, and the memory afterwards. -/
def memmove (size dest src n : Nat) (m : Mem) : Option (Nat × Mem) := do
  let m ← if dest < src then loop (upTo 0 n) (moveByte size dest src) m
    else loop (downFrom n) (fun i => moveByte size dest src (i - 1)) m
  some (dest, m)

section Copies

variable {size dest src n i : Nat} {m s : Mem}

theorem blit_zero (m : Mem) (o : Nat) (src : Mem) : blit m o src 0 = m := by
  funext p
  exact blit_of_not_mem (by omega)

/-- One byte more at the end. -/
theorem wr8_blit_last (m : Mem) (o : Nat) (src : Mem) (n : Nat) :
    wr8 (blit m o src n) (o + n) (src n) = blit m o src (n + 1) := by
  funext p
  by_cases hp : p = o + n
  · subst hp
    rw [wr8_same, blit_of_mem (by omega) (by omega), Nat.add_sub_cancel_left]
  · rw [wr8_of_ne hp]
    unfold blit
    by_cases h : o ≤ p ∧ p < o + n
    · rw [if_pos h, if_pos (by omega)]
    · rw [if_neg h, if_neg (by omega)]

/-- One byte more at the start. -/
theorem wr8_blit_first (m : Mem) (o : Nat) (src : Mem) (a n : Nat) :
    wr8 (blit m (o + 1) (view src (a + 1)) n) o (src a) = blit m o (view src a) (n + 1) := by
  funext p
  by_cases hp : p = o
  · subst hp
    rw [wr8_same, blit_of_mem (by omega) (by omega), Nat.sub_self, view_apply, Nat.add_zero]
  · rw [wr8_of_ne hp]
    unfold blit
    by_cases h : o + 1 ≤ p ∧ p < o + 1 + n
    · rw [if_pos h, if_pos (by omega), view_apply, view_apply]
      congr 1
      omega
    · rw [if_neg h, if_neg (by omega)]

/-- `memcpy` lays the source over the memory. -/
theorem memcpy_eq (h : dest + n ≤ size) (s m : Mem) :
    memcpy size dest s n m = some (blit m dest s n) := by
  unfold memcpy
  induction n with
  | zero => exact congrArg some (blit_zero m dest s).symm
  | succ n ih =>
    rw [upTo_succ, loop_concat, ih (by omega)]
    show store size (dest + n) (s n) (blit m dest s n) = _
    rw [store_of_lt (by omega), wr8_blit_last]

/-- A round whose source has not been overwritten. -/
theorem moveByte_eq (hsrc : src + i < size) (hdest : dest + i < size) (m' : Mem)
    (hm : m' (src + i) = m (src + i)) :
    moveByte size dest src i m' = some (wr8 m' (dest + i) (m (src + i))) := by
  unfold moveByte
  rw [load_of_lt hsrc, hm]
  exact store_of_lt hdest _ _

/-- From below: the bytes behind the copied ones are not in front of the source. -/
theorem moveUp (hlt : dest < src) (hsrc : src + n ≤ size) :
    loop (upTo 0 n) (moveByte size dest src) m = some (blit m dest (view m src) n) := by
  induction n with
  | zero => exact congrArg some (blit_zero m dest _).symm
  | succ n ih =>
    have hread : blit m dest (view m src) n (src + n) = m (src + n) :=
      blit_of_not_mem (by omega)
    rw [upTo_succ, loop_concat, ih (by omega)]
    show moveByte size dest src n (blit m dest (view m src) n) = _
    rw [moveByte_eq (by omega) (by omega) _ hread]
    exact congrArg some (wr8_blit_last m dest (view m src) n)

/-- From above, with the bytes from `i` on copied. -/
theorem moveDown_from (hle : src ≤ dest) (hdest : dest + n ≤ size) (hi : i ≤ n) :
    loop (downFrom i) (fun i => moveByte size dest src (i - 1))
      (blit m (dest + i) (view m (src + i)) (n - i)) = some (blit m dest (view m src) n) := by
  induction i with
  | zero => rfl
  | succ i ih =>
    have hread : blit m (dest + (i + 1)) (view m (src + (i + 1))) (n - (i + 1)) (src + i) =
        m (src + i) := blit_of_not_mem (by omega)
    have hstep : wr8 (blit m (dest + (i + 1)) (view m (src + (i + 1))) (n - (i + 1))) (dest + i)
        (m (src + i)) = blit m (dest + i) (view m (src + i)) (n - i) := by
      rw [show n - i = n - (i + 1) + 1 by omega]
      exact wr8_blit_first m (dest + i) m (src + i) (n - (i + 1))
    rw [downFrom, loop_cons, Nat.add_sub_cancel, moveByte_eq (by omega) (by omega) _ hread, hstep]
    exact ih (by omega)

theorem moveDown (hle : src ≤ dest) (hdest : dest + n ≤ size) :
    loop (downFrom n) (fun i => moveByte size dest src (i - 1)) m =
      some (blit m dest (view m src) n) := by
  have h := moveDown_from (m := m) hle hdest (Nat.le_refl n)
  rwa [Nat.sub_self, blit_zero] at h

/-- `memmove` lays the old source over the destination. -/
theorem memmove_eq (hsrc : src + n ≤ size) (hdest : dest + n ≤ size) (m : Mem) :
    memmove size dest src n m = some (dest, blit m dest (view m src) n) := by
  unfold memmove
  by_cases hlt : dest < src
  · rw [if_pos hlt, moveUp hlt hsrc]
    rfl
  · rw [if_neg hlt, moveDown (Nat.not_lt.mp hlt) hdest]
    rfl

end Copies

/-- Whether or not the regions overlap: the bytes at the destination are those that were at the
    source, all others are as before. -/
theorem memmove_moves {size dest src n : Nat} (m : Mem) (hsrc : src + n ≤ size)
    (hdest : dest + n ≤ size) :
    ∃ m', memmove size dest src n m = some (dest, m') ∧ (∀ j < n, m' (dest + j) = m (src + j)) ∧
      ∀ a, a < dest ∨ dest + n ≤ a → m' a = m a := by
  refine ⟨_, memmove_eq hsrc hdest m, fun j hj => ?_, fun a ha => blit_of_not_mem ha⟩
  rw [blit_of_mem (by omega) (by omega), view_apply, Nat.add_sub_cancel_left]

/-- Three bytes, moved up by one. -/
theorem memmove_moves_up : ∃ m', memmove 8 3 2 3 (fun a => UInt8.ofNat a) = some (3, m') ∧
    (∀ j < 3, m' (3 + j) = UInt8.ofNat (2 + j)) ∧
    ∀ a, a < 3 ∨ 3 + 3 ≤ a → m' a = UInt8.ofNat a :=
  memmove_moves _ (by decide) (by decide)

/-! ## `split` -/

/-- The variables of `split` besides `p`: the count, the string and the array `out`, of which a
    pointer is the offset in the string. -/
structure SplitState where
  count : Nat
  str : Mem
  out : Nat → Nat

/-- `out[count++] = p`. -/
def SplitState.push (maxTokens p : Nat) (s : SplitState) : Option SplitState :=
  if s.count < maxTokens then
    some { s with count := s.count + 1, out := Function.update s.out s.count p }
  else none

/-- The body of the loop. -/
def splitRound (size : Nat) (delim : UInt8) (maxTokens p : Nat) (s : SplitState) :
    Option SplitState := do
  let c ← load size p s.str
  if c = delim then
    let str ← store size p 0 s.str
    let next ← load size (p + 1) str
    if next ≠ 0 then SplitState.push maxTokens (p + 1) { s with str := str }
    else some { s with str := str }
  else some s

/-- `while (*p && count < max_tokens)`. -/
def splitWhile (size : Nat) (delim : UInt8) (maxTokens p : Nat) (s : SplitState) :
    Option SplitState :=
  if _h : p < size then
    if s.str p ≠ 0 ∧ s.count < maxTokens then
      (splitRound size delim maxTokens p s).bind fun s =>
        splitWhile size delim maxTokens (p + 1) s
    else some s
  else none
  termination_by size - p

/-- `split`, of a string in a buffer of `size` bytes; the pointers are not NULL. It returns
    `count`. -/
def split (size : Nat) (str : Mem) (delim : UInt8) (out : Nat → Nat) (maxTokens : Nat) :
    Option SplitState :=
  if maxTokens = 0 then some ⟨0, str, out⟩
  else (SplitState.push maxTokens 0 ⟨0, str, out⟩).bind (splitWhile size delim maxTokens 0)

/-- The out pointers denote the tokens `ts`, other pointers are as before, and these are the tokens
    of the string: only the last one can contain the delimiter, when there is no room for more, and
    joined they are the string, up to a delimiter at its end that was cut off. -/
structure Splits (delim : UInt8) (maxTokens : Nat) (str : List UInt8) (out : Nat → Nat)
    (s : SplitState) (ts : List (List UInt8)) : Prop where
  count : s.count = ts.length
  strings : ∀ i t, ts[i]? = some t → IsString (view s.str (s.out i)) t
  untouched : ∀ i, s.count ≤ i → s.out i = out i
  room : ts.length ≤ maxTokens
  init : ∀ t ∈ ts.dropLast, delim ∉ t
  last : ts.length < maxTokens → ∀ t ∈ ts, delim ∉ t
  joined : [delim].intercalate ts =
    if ts.length < maxTokens ∧ str.getLast? = some delim then str.dropLast else str

/-! ### Joined tokens -/

section Join

variable {α : Type} (d : α)

theorem join_concat {ts : List (List α)} (h : ts ≠ []) (t : List α) :
    [d].intercalate (ts ++ [t]) = [d].intercalate ts ++ d :: t := by
  induction ts with
  | nil => exact absurd rfl h
  | cons a ts ih =>
    cases ts with
    | nil =>
      show [d].intercalate [a, t] = [d].intercalate [a] ++ d :: t
      rw [List.intercalate_cons_cons, List.intercalate_singleton, List.intercalate_singleton,
        List.append_assoc]
      rfl
    | cons b ts =>
      show [d].intercalate (a :: b :: (ts ++ [t])) = _
      rw [List.intercalate_cons_cons, List.intercalate_cons_cons, List.append_assoc,
        List.append_assoc, List.append_assoc, ← ih (List.cons_ne_nil b ts)]
      rfl

/-- Characters behind the last token. -/
theorem join_append (ts : List (List α)) (t u : List α) :
    [d].intercalate (ts ++ [t ++ u]) = [d].intercalate (ts ++ [t]) ++ u := by
  cases ts with
  | nil =>
    show [d].intercalate [t ++ u] = [d].intercalate [t] ++ u
    rw [List.intercalate_singleton, List.intercalate_singleton]
  | cons a ts =>
    rw [join_concat d (List.cons_ne_nil a ts), join_concat d (List.cons_ne_nil a ts),
      List.append_assoc, List.cons_append]

end Join

/-! ### The scan -/

/-- The loop is at `rest`. The tokens `closed` are complete; `cur` is the scanned part of the next
    one, whose characters and those of `rest` have not been touched. -/
structure At (delim : UInt8) (m : Mem) (str : List UInt8) (out : Nat → Nat)
    (pre cur rest : List UInt8) (closed : List (List UInt8)) (s : SplitState) : Prop where
  str_eq : str = pre ++ (cur ++ rest)
  joined : [delim].intercalate (closed ++ [cur]) = pre ++ cur
  clean : ∀ t ∈ closed ++ [cur], delim ∉ t
  count : s.count = closed.length + 1
  strings : ∀ i t, closed[i]? = some t →
    IsString (view s.str (s.out i)) t ∧ s.out i + t.length < pre.length
  start : s.out closed.length = pre.length
  same : ∀ j, pre.length ≤ j → s.str j = m j
  untouched : ∀ i, closed.length < i → s.out i = out i
  pending : closed ≠ [] → cur ++ rest ≠ []

section Scan

variable {delim : UInt8} {m : Mem} {str pre cur rest : List UInt8} {out : Nat → Nat}
  {closed : List (List UInt8)} {s : SplitState} {maxTokens : Nat} {c : UInt8}

/-- The part of a string from some character on. -/
theorem isString_view (hm : IsString m str) (h : str = pre ++ cur) (hs : ∀ j, pre.length ≤ j →
    s.str j = m j) : IsString (view s.str pre.length) cur := by
  subst h
  refine ⟨fun h0 => hm.noNul (List.mem_append_right pre h0), fun j x hx => ?_⟩
  rw [view_apply, hs _ (Nat.le_add_right _ _)]
  exact hm.holds _ x ((charAt_append pre cur j).trans hx)

/-- A string with what follows it cut off. -/
theorem isString_cut {m : Mem} {s t : List UInt8} {o p : Nat} (h : IsString (view m o) (s ++ t))
    (hp : p = o + s.length) : IsString (view (wr8 m p 0) o) s := by
  obtain ⟨h1, -⟩ := holds_iff.mp h.holds
  refine ⟨fun h0 => h.noNul (List.mem_append_left t h0), holds_iff.mpr ⟨fun j hj => ?_, ?_⟩⟩
  · have hj' : j < (s ++ t).length := by rw [List.length_append]; omega
    rw [view_apply, wr8_of_ne (by omega), ← view_apply m, h1 j hj', List.getElem_append_left hj]
  · rw [view_apply, hp, wr8_same]

/-- A string in front of what is changed. -/
theorem isString_before {m : Mem} {t : List UInt8} {o p : Nat} (h : IsString (view m o) t)
    (hp : o + t.length < p) (v : UInt8) : IsString (view (wr8 m p v) o) t := by
  obtain ⟨h1, h2⟩ := holds_iff.mp h.holds
  refine ⟨h.noNul, holds_iff.mpr ⟨fun j hj => ?_, ?_⟩⟩
  · rw [view_apply, wr8_of_ne (by omega)]
    exact h1 j hj
  · rw [view_apply, wr8_of_ne (by omega)]
    exact h2

theorem At.length (h : At delim m str out pre cur rest closed s) :
    pre.length + cur.length + rest.length = str.length := by
  rw [h.str_eq, List.length_append, List.length_append]
  omega

/-- The character at `p`. -/
theorem At.char (h : At delim m str out pre cur rest closed s) (hm : IsString m str) :
    s.str (pre.length + cur.length) = rest.headD 0 := by
  rw [h.same _ (Nat.le_add_right _ _), ← List.length_append]
  apply hm.holds
  rw [h.str_eq, ← List.append_assoc]
  have hchar := charAt_append (pre ++ cur) rest 0
  rw [Nat.add_zero] at hchar
  rw [hchar]
  unfold charAt
  cases rest <;> rfl

/-- What is left is the last token. -/
theorem At.stop (h : At delim m str out pre cur rest closed s) (hm : IsString m str)
    (hle : s.count ≤ maxTokens) (hrest : rest = [] ∨ s.count = maxTokens) :
    Splits delim maxTokens str out s (closed ++ [cur ++ rest]) := by
  have hlen : (closed ++ [cur ++ rest]).length = s.count := by
    rw [List.length_append, List.length_singleton, h.count]
  have hjoined : [delim].intercalate (closed ++ [cur ++ rest]) = str := by
    rw [join_append, h.joined, h.str_eq, List.append_assoc]
  refine ⟨hlen.symm, fun i t hi => ?_, fun i hi => h.untouched i ?_, hlen ▸ hle, fun t ht => ?_,
    fun hlt => ?_, ?_⟩
  · by_cases hlt : i < closed.length
    · rw [List.getElem?_append_left hlt] at hi
      exact (h.strings i t hi).1
    · have hi' := (List.getElem?_eq_some_iff.mp hi).1
      rw [hlen, h.count] at hi'
      obtain rfl : i = closed.length := by omega
      rw [List.getElem?_append_right (Nat.le_refl _), Nat.sub_self] at hi
      obtain rfl : cur ++ rest = t := Option.some.inj hi
      rw [h.start]
      exact isString_view hm h.str_eq h.same
  · rw [h.count] at hi
    omega
  · rw [List.dropLast_concat] at ht
    exact h.clean t (List.mem_append_left _ ht)
  · rcases hrest with rfl | hmax
    · rw [List.append_nil]
      exact h.clean
    · omega
  · rw [hjoined]
    by_cases hend : (closed ++ [cur ++ rest]).length < maxTokens ∧ str.getLast? = some delim
    · -- the string ends with the last token, which has no delimiter
      obtain rfl : rest = [] := hrest.resolve_right (by omega)
      have hlast := hend.2
      rw [h.str_eq, List.append_nil] at hlast
      by_cases hcur : cur = []
      · have hclosed : closed = [] := by
          by_contra hne
          exact h.pending hne (by rw [hcur]; rfl)
        have hpre := h.joined
        rw [hcur, hclosed, List.append_nil] at hpre
        rw [hcur, ← hpre] at hlast
        exact absurd hlast (by simp)
      · rw [List.getLast?_append_of_ne_nil _ hcur] at hlast
        exact absurd (List.mem_of_getLast? hlast) (h.clean cur (by simp))
    · rw [if_neg hend]

/-- A character of the token. -/
theorem At.next (h : At delim m str out pre cur (c :: rest) closed s) (hc : c ≠ delim) :
    At delim m str out pre (cur ++ [c]) rest closed s where
  str_eq := by rw [h.str_eq, List.append_assoc, List.singleton_append]
  joined := by rw [join_append, h.joined, List.append_assoc]
  clean := fun t ht => by
    rcases List.mem_append.mp ht with ht | ht
    · exact h.clean t (List.mem_append_left _ ht)
    · rw [List.mem_singleton.mp ht, List.mem_append, not_or]
      exact ⟨h.clean cur (by simp), fun hm => hc (List.mem_singleton.mp hm).symm⟩
  count := h.count
  strings := h.strings
  start := h.start
  same := h.same
  untouched := h.untouched
  pending := fun _ => by simp

/-- The token ends, and another one begins. -/
theorem At.cut (h : At delim m str out pre cur (delim :: rest) closed s) (hm : IsString m str)
    (hrest : rest ≠ []) :
    At delim m str out (pre ++ cur ++ [delim]) [] rest (closed ++ [cur])
      ⟨s.count + 1, wr8 s.str (pre.length + cur.length) 0,
        Function.update s.out s.count (pre.length + cur.length + 1)⟩ where
  str_eq := by rw [h.str_eq]; simp
  joined := by
    rw [join_concat delim (by simp), h.joined]
    simp
  clean := fun t ht => by
    rcases List.mem_append.mp ht with ht | ht
    · exact h.clean t ht
    · rw [List.mem_singleton.mp ht]
      exact List.not_mem_nil
  count := by
    rw [List.length_append, List.length_singleton, h.count]
  strings := fun i t hi => by
    have hlt := (List.getElem?_eq_some_iff.mp hi).1
    rw [List.length_append, List.length_singleton] at hlt
    dsimp only
    rw [Function.update_of_ne (by rw [h.count]; omega), List.length_append, List.length_append,
      List.length_singleton]
    by_cases hlast : i < closed.length
    · rw [List.getElem?_append_left hlast] at hi
      obtain ⟨hstr, hle⟩ := h.strings i t hi
      exact ⟨isString_before hstr (by omega) 0, by omega⟩
    · obtain rfl : i = closed.length := by omega
      rw [List.getElem?_append_right (Nat.le_refl _), Nat.sub_self] at hi
      obtain rfl : cur = t := Option.some.inj hi
      rw [h.start]
      exact ⟨isString_cut (isString_view hm h.str_eq h.same) rfl, by omega⟩
  start := by
    dsimp only
    rw [List.length_append, List.length_singleton, ← h.count, Function.update_self,
      List.length_append, List.length_append, List.length_singleton]
  same := fun j hj => by
    rw [List.length_append, List.length_append, List.length_singleton] at hj
    dsimp only
    rw [wr8_of_ne (by omega), h.same j (by omega)]
  untouched := fun i hi => by
    rw [List.length_append, List.length_singleton] at hi
    dsimp only
    rw [Function.update_of_ne (by rw [h.count]; omega), h.untouched i (by omega)]
  pending := fun _ => hrest

/-- The delimiter at the end of the string is cut off. -/
theorem At.cut_last (h : At delim m str out pre cur [delim] closed s) (hm : IsString m str)
    (hlt : s.count < maxTokens) : Splits delim maxTokens str out
      { s with str := wr8 s.str (pre.length + cur.length) 0 } (closed ++ [cur]) := by
  have hlen : (closed ++ [cur]).length = s.count := by
    rw [List.length_append, List.length_singleton, h.count]
  have hstr : str = (pre ++ cur) ++ [delim] := by rw [h.str_eq, List.append_assoc]
  refine ⟨hlen.symm, fun i t hi => ?_, fun i hi => h.untouched i ?_, by omega, fun t ht => ?_,
    fun _ => h.clean, ?_⟩
  · by_cases hlast : i < closed.length
    · rw [List.getElem?_append_left hlast] at hi
      obtain ⟨hs, hle⟩ := h.strings i t hi
      exact isString_before hs (by omega) 0
    · have hi' := (List.getElem?_eq_some_iff.mp hi).1
      rw [hlen, h.count] at hi'
      obtain rfl : i = closed.length := by omega
      rw [List.getElem?_append_right (Nat.le_refl _), Nat.sub_self] at hi
      obtain rfl : cur = t := Option.some.inj hi
      show IsString (view (wr8 s.str _ 0) (s.out closed.length)) cur
      rw [h.start]
      exact isString_cut (isString_view hm h.str_eq h.same) rfl
  · have hcount : s.count ≤ i := hi
    rw [h.count] at hcount
    omega
  · exact h.clean t (List.dropLast_subset _ ht)
  · rw [h.joined, if_pos ⟨by omega, by rw [hstr]; simp⟩, hstr, List.dropLast_concat]

/-! ### The rounds -/

theorem splitRound_other {size p : Nat} (hp : p < size) (hc : s.str p ≠ delim) :
    splitRound size delim maxTokens p s = some s := by
  unfold splitRound
  rw [load_of_lt hp]
  exact if_neg hc

theorem splitRound_cut {size p : Nat} (hp : p + 1 < size) (hc : s.str p = delim)
    (hnext : s.str (p + 1) ≠ 0) (hlt : s.count < maxTokens) :
    splitRound size delim maxTokens p s =
      some ⟨s.count + 1, wr8 s.str p 0, Function.update s.out s.count (p + 1)⟩ := by
  have hnext' : wr8 s.str p 0 (p + 1) ≠ 0 := by rwa [wr8_of_ne (Nat.succ_ne_self p)]
  unfold splitRound
  rw [load_of_lt (Nat.lt_of_succ_lt hp), store_of_lt (Nat.lt_of_succ_lt hp)]
  dsimp only [Option.bind_eq_bind, Option.bind_some]
  rw [if_pos hc, load_of_lt hp]
  dsimp only [Option.bind_some]
  rw [if_pos hnext']
  exact if_pos hlt

theorem splitRound_last {size p : Nat} (hp : p + 1 < size) (hc : s.str p = delim)
    (hnext : s.str (p + 1) = 0) : splitRound size delim maxTokens p s =
      some { s with str := wr8 s.str p 0 } := by
  have hnext' : ¬ wr8 s.str p 0 (p + 1) ≠ 0 := by
    rw [wr8_of_ne (Nat.succ_ne_self p), not_not]
    exact hnext
  unfold splitRound
  rw [load_of_lt (Nat.lt_of_succ_lt hp), store_of_lt (Nat.lt_of_succ_lt hp)]
  dsimp only [Option.bind_eq_bind, Option.bind_some]
  rw [if_pos hc, load_of_lt hp]
  dsimp only [Option.bind_some]
  exact if_neg hnext'

theorem splitWhile_stop {size p : Nat} (hp : p < size)
    (h : s.str p = 0 ∨ maxTokens ≤ s.count) : splitWhile size delim maxTokens p s = some s := by
  rw [splitWhile, dif_pos hp, if_neg]
  rintro ⟨h1, h2⟩
  exact h.elim h1 (Nat.not_le.mpr h2)

/-- From every point of the scan on. -/
theorem splitWhile_splits (hm : IsString m str) (hle : s.count ≤ maxTokens)
    (h : At delim m str out pre cur rest closed s) :
    ∃ s' ts, splitWhile (str.length + 1) delim maxTokens (pre.length + cur.length) s = some s' ∧
      Splits delim maxTokens str out s' ts := by
  induction rest generalizing pre cur closed s with
  | nil =>
    have hlen := h.length
    have hend : s.str (pre.length + cur.length) = 0 := h.char hm
    exact ⟨s, _, splitWhile_stop (by rw [← hlen]; simp) (Or.inl hend), h.stop hm hle (Or.inl rfl)⟩
  | cons c rest ih =>
    have hlen := h.length
    rw [List.length_cons] at hlen
    have hchar : s.str (pre.length + cur.length) = c := h.char hm
    have hc0 : c ≠ 0 := by
      rintro rfl
      refine hm.noNul ?_
      rw [h.str_eq]
      simp
    by_cases hlt : s.count < maxTokens
    · rw [splitWhile, dif_pos (by omega), if_pos ⟨by rwa [hchar], hlt⟩]
      by_cases hc : c = delim
      · subst hc
        cases rest with
        | nil =>
          have hlen' : pre.length + cur.length + 1 = str.length := hlen
          have hnext : s.str (pre.length + cur.length + 1) = 0 := by
            rw [h.same _ (by omega), hlen']
            exact (holds_iff.mp hm.holds).2
          refine ⟨_, _, ?_, h.cut_last hm hlt⟩
          rw [splitRound_last (by omega) hchar hnext]
          apply splitWhile_stop (by omega)
          left
          show wr8 s.str (pre.length + cur.length) 0 (pre.length + cur.length + 1) = 0
          rw [wr8_of_ne (Nat.succ_ne_self _), hnext]
        | cons c' rest =>
          have hcut := h.cut hm (List.cons_ne_nil c' rest)
          have hnext : s.str (pre.length + cur.length + 1) ≠ 0 := by
            rw [h.same _ (by omega)]
            rw [List.length_cons] at hlen
            exact hm.byte_ne (by omega)
          obtain ⟨s', ts, hrun, hts⟩ := ih (Nat.succ_le_of_lt hlt) hcut
          refine ⟨s', ts, ?_, hts⟩
          rw [splitRound_cut (by rw [List.length_cons] at hlen; omega) hchar hnext hlt]
          rw [List.length_append, List.length_append, List.length_singleton, List.length_nil,
            Nat.add_zero] at hrun
          exact hrun
      · have hround : splitRound (str.length + 1) delim maxTokens (pre.length + cur.length) s =
            some s := splitRound_other (by omega) (by rwa [hchar])
        obtain ⟨s', ts, hrun, hts⟩ := ih hle (h.next hc)
        refine ⟨s', ts, ?_, hts⟩
        rw [hround]
        rw [List.length_append, List.length_singleton, ← Nat.add_assoc] at hrun
        exact hrun
    · refine ⟨s, _, splitWhile_stop (by omega) (Or.inr (Nat.not_lt.mp hlt)),
        h.stop hm hle (Or.inr (by omega))⟩

end Scan

/-! ### Result -/

/-- `split` on every string stays inside it and ends; the out pointers denote its tokens. -/
theorem split_splits {str : List UInt8} {m : Mem} (hm : IsString m str) (delim : UInt8)
    {maxTokens : Nat} (hmax : 1 ≤ maxTokens) (out : Nat → Nat) :
    ∃ s ts, split (str.length + 1) m delim out maxTokens = some s ∧
      Splits delim maxTokens str out s ts := by
  have hstart : At delim m str out [] [] str [] ⟨1, m, Function.update out 0 0⟩ := by
    refine ⟨rfl, rfl, fun t ht => ?_, rfl, fun i t hi => ?_, ?_, fun _ _ => rfl, fun i hi => ?_,
      fun h => absurd rfl h⟩
    · rw [List.mem_singleton.mp ht]
      exact List.not_mem_nil
    · cases hi
    · exact Function.update_self (0 : Nat) 0 out
    · exact Function.update_of_ne (Nat.ne_of_gt hi) 0 out
  obtain ⟨s, ts, hrun, hts⟩ := splitWhile_splits hm
    (show (⟨1, m, Function.update out 0 0⟩ : SplitState).count ≤ maxTokens from hmax) hstart
  refine ⟨s, ts, ?_, hts⟩
  unfold split
  rw [if_neg (by omega)]
  unfold SplitState.push
  rw [if_pos (by show 0 < maxTokens; omega)]
  exact hrun

/-- `a,b,` at the commas, with room for five tokens. -/
theorem split_splits_commas :
    ∃ s ts, split 5 (fun j => [97, 44, 98, 44].getD j 0) 44 (fun _ => 0) 5 = some s ∧
      Splits 44 5 [97, 44, 98, 44] (fun _ => 0) s ts := by
  have hstr : IsString (fun j => [97, 44, 98, 44].getD j 0) [97, 44, 98, 44] :=
    ⟨by decide, holds_iff.mpr ⟨by decide, rfl⟩⟩
  exact split_splits hstr 44 (by decide) (fun _ => 0)

end LossOs.Clib
