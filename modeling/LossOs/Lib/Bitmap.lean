/-
  Bitmaps in a byte memory: bit `i` is bit `i % 8` of byte `i / 8`.

  * `bit_setBit`, `bit_clearBit`: an update changes its own bit and no other.
  * `firstClear_eq_some`, `firstClear_eq_none`: the byte-then-bit scan for a clear bit
    finds the least one below the limit, and fails only when there is none.
  * `clearCount`: the number of clear bits below a limit, and how one update moves it.
-/
import LossOs.Lib.Bytes
import Mathlib.Data.Finset.Card
import Mathlib.Order.Interval.Finset.Nat
import Mathlib.Algebra.BigOperators.Intervals
import Mathlib.Data.Nat.Count
import Mathlib.Data.Nat.Bitwise
import Mathlib.Tactic.IntervalCases

namespace LossOs.Lib

/-- Bit `i` of the bitmap. -/
def bit (m : Mem) (i : Nat) : Bool := (m (i / 8)).toNat.testBit (i % 8)

/-- The byte `1 << i`. -/
def mask (i : Nat) : UInt8 := 1 <<< UInt8.ofNat i

def setBit (m : Mem) (i : Nat) : Mem := wr8 m (i / 8) (m (i / 8) ||| mask (i % 8))

def clearBit (m : Mem) (i : Nat) : Mem := wr8 m (i / 8) (m (i / 8) &&& ~~~ mask (i % 8))

/-- The scan of the bytes `start ≤ byte < 512` for a clear bit: a byte `0xFF` is skipped,
    and the bits of a byte are left as soon as their index reaches `limit`. -/
def firstClearFrom (start : Nat) (m : Mem) (limit : Nat) : Option Nat :=
  (List.range' start (512 - start)).findSome? fun byte =>
    if m byte = 0xFF then none
    else (List.range 8).findSome? fun b =>
      if limit ≤ byte * 8 + b then none
      else if m byte &&& mask b = 0 then some (byte * 8 + b) else none

/-- The scan of all 512 bytes of a block. -/
def firstClear (m : Mem) (limit : Nat) : Option Nat := firstClearFrom 0 m limit

/-- The number of clear bits among the first `n`. -/
def clearCount (m : Mem) (n : Nat) : Nat :=
  ((Finset.range n).filter fun i => bit m i = false).card

/-! ## One byte -/

theorem toNat_mask {i : Nat} (h : i < 8) : (mask i).toNat = 2 ^ i := by
  interval_cases i <;> decide

theorem testBit_compl_mask {i j : Nat} (hi : i < 8) (hj : j < 8) :
    (~~~ mask i).toNat.testBit j = !decide (i = j) := by
  interval_cases i <;> interval_cases j <;> decide

theorem and_mask_eq_zero {v : UInt8} {i : Nat} (h : i < 8) :
    v &&& mask i = 0 ↔ v.toNat.testBit i = false := by
  rw [← UInt8.toNat_inj, UInt8.toNat_and, toNat_mask h, Nat.and_two_pow]
  cases v.toNat.testBit i <;> simp

theorem testBit_ff {i : Nat} (h : i < 8) : (0xFF : UInt8).toNat.testBit i = true := by
  interval_cases i <;> decide

/-- Bytes with the same eight bits are equal. -/
theorem eq_of_testBit_eq {u v : UInt8} (h : ∀ i < 8, u.toNat.testBit i = v.toNat.testBit i) :
    u = v := by
  refine UInt8.toNat_inj.mp (Nat.eq_of_testBit_eq fun i => ?_)
  by_cases hi : i < 8
  · exact h i hi
  · have h8 : 2 ^ 8 ≤ 2 ^ i := Nat.pow_le_pow_right (by decide) (by omega)
    rw [Nat.testBit_lt_two_pow (lt_of_lt_of_le u.toNat_lt h8),
      Nat.testBit_lt_two_pow (lt_of_lt_of_le v.toNat_lt h8)]

/-- Bitmaps that agree on the first `8 * n` bits agree on the first `n` bytes. -/
theorem eq_of_bit_eq {m m' : Mem} {n : Nat} (h : ∀ i < 8 * n, bit m i = bit m' i) :
    ∀ o < n, m o = m' o := by
  intro o ho
  apply eq_of_testBit_eq
  intro i hi
  have := h (8 * o + i) (by omega)
  unfold bit at this
  rwa [show (8 * o + i) / 8 = o by omega, show (8 * o + i) % 8 = i by omega] at this

/-! ## Updates -/

theorem bit_setBit (m : Mem) (i j : Nat) :
    bit (setBit m i) j = (decide (j = i) || bit m j) := by
  unfold bit setBit
  have hi : i % 8 < 8 := Nat.mod_lt _ (by decide)
  by_cases hb : j / 8 = i / 8
  · rw [hb, wr8_same, UInt8.toNat_or, Nat.testBit_or, toNat_mask hi, Nat.testBit_two_pow,
      Bool.or_comm]
    congr 1
    by_cases h : j = i
    · simp [h]
    · have : i % 8 ≠ j % 8 := by omega
      simp [h, this]
  · have : j ≠ i := fun h => hb (by rw [h])
    rw [wr8_of_ne hb]
    simp [this]

theorem bit_clearBit (m : Mem) (i j : Nat) :
    bit (clearBit m i) j = (!decide (j = i) && bit m j) := by
  unfold bit clearBit
  have hi : i % 8 < 8 := Nat.mod_lt _ (by decide)
  have hj : j % 8 < 8 := Nat.mod_lt _ (by decide)
  by_cases hb : j / 8 = i / 8
  · rw [hb, wr8_same, UInt8.toNat_and, Nat.testBit_and, testBit_compl_mask hi hj, Bool.and_comm]
    congr 2
    by_cases h : j = i
    · simp [h]
    · have : i % 8 ≠ j % 8 := by omega
      simp [h, this]
  · have : j ≠ i := fun h => hb (by rw [h])
    rw [wr8_of_ne hb]
    simp [this]

theorem setBit_of_ne {m : Mem} {i p : Nat} (h : p ≠ i / 8) : setBit m i p = m p := wr8_of_ne h

theorem clearBit_of_ne {m : Mem} {i p : Nat} (h : p ≠ i / 8) : clearBit m i p = m p :=
  wr8_of_ne h

theorem bit_congr {m m' : Mem} {i : Nat} (h : m (i / 8) = m' (i / 8)) : bit m i = bit m' i := by
  unfold bit; rw [h]

/-! ## The scan -/

/-- The first hit of a search over consecutive numbers, and the misses before it. -/
theorem findSome?_range'_eq_some {α : Type} {f : Nat → Option α} {v : α} :
    ∀ {n s : Nat}, (List.range' s n).findSome? f = some v →
      ∃ k, s ≤ k ∧ k < s + n ∧ f k = some v ∧ ∀ j, s ≤ j → j < k → f j = none
  | 0, _, h => by simp at h
  | n + 1, s, h => by
      rw [List.range'_succ, List.findSome?_cons] at h
      cases hs : f s with
      | some w =>
          rw [hs] at h
          exact ⟨s, le_refl _, by omega, by rw [hs]; exact h, fun j h1 h2 => by omega⟩
      | none =>
          rw [hs] at h
          obtain ⟨k, h1, h2, h3, h4⟩ := findSome?_range'_eq_some h
          refine ⟨k, by omega, by omega, h3, fun j hj hjk => ?_⟩
          by_cases hjs : j = s
          · rw [hjs]; exact hs
          · exact h4 j (by omega) hjk

/-- What the scan of one byte finds. -/
theorem firstBit_eq_some {m : Mem} {limit byte i : Nat}
    (h : ((List.range 8).findSome? fun b =>
      if limit ≤ byte * 8 + b then none
      else if m byte &&& mask b = 0 then some (byte * 8 + b) else none) = some i) :
    i / 8 = byte ∧ i < limit ∧ bit m i = false ∧ ∀ j < i, j / 8 = byte → bit m j = true := by
  rw [List.range_eq_range'] at h
  obtain ⟨b, -, hb8, hb, hpre⟩ := findSome?_range'_eq_some h
  have hlim : ¬ limit ≤ byte * 8 + b := fun hc => by rw [if_pos hc] at hb; cases hb
  rw [if_neg hlim] at hb
  have hz : m byte &&& mask b = 0 := by
    by_contra hc
    rw [if_neg hc] at hb; cases hb
  rw [if_pos hz] at hb
  have hi : i = byte * 8 + b := by simpa using hb.symm
  refine ⟨by omega, by omega, ?_, fun j hj hbyte => ?_⟩
  · unfold bit
    rw [show i / 8 = byte by omega, show i % 8 = b by omega]
    exact (and_mask_eq_zero (by omega)).mp hz
  · have hm := hpre (j % 8) (by omega) (by omega)
    rw [if_neg (by omega)] at hm
    unfold bit
    rw [hbyte]
    by_contra hc
    rw [if_pos ((and_mask_eq_zero (by omega)).mpr (by simpa using hc))] at hm
    cases hm

/-- A byte in which the scan finds nothing is full up to the limit. -/
theorem firstBit_eq_none {m : Mem} {limit byte : Nat}
    (h : ((List.range 8).findSome? fun b =>
      if limit ≤ byte * 8 + b then none
      else if m byte &&& mask b = 0 then some (byte * 8 + b) else none) = none) :
    ∀ i < limit, i / 8 = byte → bit m i = true := by
  intro i hi hbyte
  have hm := List.findSome?_eq_none_iff.mp h (i % 8) (by simp; omega)
  rw [if_neg (by omega)] at hm
  unfold bit
  rw [hbyte]
  by_contra hc
  rw [if_pos ((and_mask_eq_zero (by omega)).mpr (by simpa using hc))] at hm
  cases hm

theorem bit_of_ff {m : Mem} {i : Nat} (h : m (i / 8) = 0xFF) : bit m i = true := by
  unfold bit
  rw [h]
  exact testBit_ff (Nat.mod_lt _ (by decide))

theorem firstClear_eq_some {m : Mem} {limit i : Nat} (h : firstClear m limit = some i) :
    i < limit ∧ i < 4096 ∧ bit m i = false ∧ ∀ j < i, bit m j = true := by
  obtain ⟨byte, -, hlt, hbyte, hpre⟩ := findSome?_range'_eq_some h
  have hff : m byte ≠ 0xFF := fun hc => by rw [if_pos hc] at hbyte; cases hbyte
  rw [if_neg hff] at hbyte
  obtain ⟨hdiv, hlim, hclear, hlow⟩ := firstBit_eq_some hbyte
  refine ⟨hlim, by omega, hclear, fun j hj => ?_⟩
  by_cases hsame : j / 8 = byte
  · exact hlow j hj hsame
  · have hm := hpre (j / 8) (by omega) (by omega)
    by_cases hffj : m (j / 8) = 0xFF
    · exact bit_of_ff hffj
    · rw [if_neg hffj] at hm
      exact firstBit_eq_none hm j (by omega) rfl

theorem firstClearFrom_eq_none {m : Mem} {start limit : Nat}
    (h : firstClearFrom start m limit = none) :
    ∀ i < limit, i < 4096 → start * 8 ≤ i → bit m i = true := by
  intro i hi hi' hs
  have hm := List.findSome?_eq_none_iff.mp h (i / 8) (by simp; omega)
  by_cases hff : m (i / 8) = 0xFF
  · exact bit_of_ff hff
  · rw [if_neg hff] at hm
    exact firstBit_eq_none hm i hi rfl

theorem firstClear_eq_none {m : Mem} {limit : Nat} (h : firstClear m limit = none) :
    ∀ i < limit, i < 4096 → bit m i = true :=
  fun i hi hi' => firstClearFrom_eq_none h i hi hi' (by omega)

/-- A scan that starts behind byte 0 finds no bit of it. -/
theorem firstClearFrom_ge {m : Mem} {start limit i : Nat}
    (h : firstClearFrom start m limit = some i) : start * 8 ≤ i := by
  obtain ⟨byte, hge, -, hbyte, -⟩ := findSome?_range'_eq_some h
  by_cases hff : m byte = 0xFF
  · rw [if_pos hff] at hbyte
    cases hbyte
  · rw [if_neg hff] at hbyte
    obtain ⟨hdiv, -⟩ := firstBit_eq_some hbyte
    omega

/-! ## Counting -/

theorem clearCount_le (m : Mem) (n : Nat) : clearCount m n ≤ n := by
  unfold clearCount
  exact (Finset.card_filter_le _ _).trans (by simp)

theorem clearCount_congr {m m' : Mem} {n : Nat} (h : ∀ i < n, bit m i = bit m' i) :
    clearCount m n = clearCount m' n := by
  unfold clearCount
  refine congrArg Finset.card (Finset.filter_congr fun i hi => ?_)
  rw [h i (Finset.mem_range.mp hi)]

theorem clearCount_pos {m : Mem} {n i : Nat} (hi : i < n) (h : bit m i = false) :
    0 < clearCount m n :=
  Finset.card_pos.mpr ⟨i, Finset.mem_filter.mpr ⟨Finset.mem_range.mpr hi, h⟩⟩

theorem clearCount_setBit {m : Mem} {n i : Nat} (hi : i < n) (h : bit m i = false) :
    clearCount (setBit m i) n + 1 = clearCount m n := by
  unfold clearCount
  have : ((Finset.range n).filter fun j => bit (setBit m i) j = false) =
      ((Finset.range n).filter fun j => bit m j = false).erase i := by
    ext j
    by_cases hj : j = i <;> simp [bit_setBit, hj]
  rw [this, Finset.card_erase_add_one]
  exact Finset.mem_filter.mpr ⟨Finset.mem_range.mpr hi, h⟩

/-- A bitmap whose set bits are the first `k`. -/
theorem clearCount_initial {m : Mem} {n k : Nat} (h : ∀ i < n, bit m i = decide (i < k)) :
    clearCount m n = n - k := by
  unfold clearCount
  have : ((Finset.range n).filter fun i => bit m i = false) = Finset.Ico k n := by
    ext i
    simp only [Finset.mem_filter, Finset.mem_range, Finset.mem_Ico]
    constructor
    · rintro ⟨hi, hb⟩
      rw [h i hi] at hb
      exact ⟨by simpa using hb, hi⟩
    · rintro ⟨hk, hi⟩
      exact ⟨hi, by rw [h i hi]; simpa using hk⟩
  rw [this, Nat.card_Ico]

theorem clearCount_clearBit {m : Mem} {n i : Nat} (hi : i < n) (h : bit m i = true) :
    clearCount (clearBit m i) n = clearCount m n + 1 := by
  unfold clearCount
  have : ((Finset.range n).filter fun j => bit (clearBit m i) j = false) =
      insert i ((Finset.range n).filter fun j => bit m j = false) := by
    ext j
    by_cases hj : j = i <;> simp [bit_clearBit, hj, hi]
  rw [this, Finset.card_insert_of_notMem]
  simp [h]

/-- Clear bits of several bitmaps of `n` bits, as those of one long bitmap. -/
theorem sum_clearCount (m : Nat → Mem) (n k : Nat) :
    ∑ g ∈ Finset.range k, clearCount (m g) n =
      ((Finset.range (k * n)).filter fun x => bit (m (x / n)) (x % n) = false).card := by
  induction k with
  | zero => simp
  | succ k ih =>
    have hlast : clearCount (m k) n =
        Nat.count (fun j => bit (m ((k * n + j) / n)) ((k * n + j) % n) = false) n := by
      rw [Nat.count_eq_card_filter_range]
      unfold clearCount
      refine congrArg Finset.card (Finset.filter_congr fun j hj => ?_)
      have hlt := Finset.mem_range.mp hj
      rw [Nat.mul_comm k n, Nat.mul_add_div (by omega), Nat.mul_add_mod, Nat.div_eq_of_lt hlt,
        Nat.mod_eq_of_lt hlt, Nat.add_zero]
    rw [Finset.sum_range_succ, ih, hlast, Nat.succ_mul, ← Nat.count_eq_card_filter_range,
      ← Nat.count_eq_card_filter_range, Nat.count_add]

/-- Bits that are set one by one are no longer counted. -/
theorem card_clear_taken {f f' : Nat → Bool} {n : Nat} {L : List Nat} (hn : L.Nodup)
    (hL : ∀ x ∈ L, x < n ∧ f x = false) (h : ∀ x < n, f' x = (f x || decide (x ∈ L))) :
    ((Finset.range n).filter fun x => f' x = false).card + L.length =
      ((Finset.range n).filter fun x => f x = false).card := by
  have hsub : L.toFinset ⊆ (Finset.range n).filter fun x => f x = false := by
    intro x hx
    have := hL x (List.mem_toFinset.mp hx)
    exact Finset.mem_filter.mpr ⟨Finset.mem_range.mpr this.1, this.2⟩
  have hrest : ((Finset.range n).filter fun x => f' x = false) =
      ((Finset.range n).filter fun x => f x = false) \ L.toFinset := by
    ext x
    simp only [Finset.mem_filter, Finset.mem_range, Finset.mem_sdiff, List.mem_toFinset, and_assoc]
    apply and_congr_right
    intro hx
    rw [h x hx, Bool.or_eq_false_iff, decide_eq_false_iff_not]
  rw [hrest, ← List.toFinset_card_of_nodup hn]
  exact Finset.card_sdiff_add_card_eq_card hsub

end LossOs.Lib
