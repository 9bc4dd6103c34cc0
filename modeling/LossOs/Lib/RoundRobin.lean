/-
  Round robin over the positions 0, ..., n - 1.

  Each turn goes to the first position with a property that comes cyclically after the one
  before (`NextAfter`). The positions that are passed over before a waiting one shrink with
  every turn (`waiting_lt`), so whoever has the property at each of n turns gets one of them
  (`InTurn.served`).
-/
import Mathlib.Data.Int.ModEq

namespace LossOs.Lib

variable {n : Nat} {A : Int → Prop} {prev next i : Int} {l : List ((Int → Prop) × Int)}

/-- `next` is the first position with `A` that comes cyclically after `prev`. -/
def NextAfter (n : Nat) (A : Int → Prop) (prev next : Int) : Prop :=
  ∃ d : Nat, 1 ≤ d ∧ d ≤ n ∧ next = (prev + d) % n ∧ A next ∧
    ∀ c : Nat, 1 ≤ c → c < d → ¬ A ((prev + c) % n)

/-- Turns one after the other, each with the property it goes by; the first comes after `prev`. -/
def InTurn (n : Nat) : Int → List ((Int → Prop) × Int) → Prop
  | _, [] => True
  | prev, t :: l => NextAfter n t.1 prev t.2 ∧ InTurn n t.2 l

/-- The positions between `prev` and `i`, cyclically. -/
def waiting (n : Nat) (prev i : Int) : Int := (i - prev - 1) % n

/-! ## One turn -/

theorem waiting_nonneg (hn : 0 < n) (prev i : Int) : 0 ≤ waiting n prev i :=
  Int.emod_nonneg _ (by omega)

theorem waiting_lt_length (hn : 0 < n) (prev i : Int) : waiting n prev i < n :=
  Int.emod_lt_of_pos _ (by omega)

/-- The position that is reached after those in between. -/
theorem add_waiting (h0 : 0 ≤ i) (hi : i < n) : (prev + (waiting n prev i + 1)) % n = i := by
  have hmod : prev + (waiting n prev i + 1) ≡ prev + (i - prev - 1 + 1) [ZMOD n] :=
    ((Int.mod_modEq _ _).add_right 1).add_left prev
  rw [show prev + (i - prev - 1 + 1) = i by omega] at hmod
  exact hmod.eq.trans (Int.emod_eq_of_lt h0 hi)

/-- A turn that goes elsewhere brings the position nearer. -/
theorem waiting_lt (h : NextAfter n A prev next) (h0 : 0 ≤ i) (hi : i < n) (hA : A i)
    (hne : next ≠ i) : waiting n next i < waiting n prev i := by
  obtain ⟨d, hd1, hdn, rfl, -, hbefore⟩ := h
  have hn : 0 < n := by omega
  have hw : (prev + (waiting n prev i + 1)) % n = i := add_waiting h0 hi
  obtain ⟨w, hw'⟩ := Int.eq_ofNat_of_zero_le (waiting_nonneg hn prev i)
  have hlt := waiting_lt_length hn prev i
  rw [hw'] at hw hlt ⊢
  -- the turn does not go past `i`
  have hdw : d ≤ w := by
    rcases lt_trichotomy d (w + 1) with h | rfl | h
    · omega
    · exact absurd (by rw [← hw]; push_cast; rfl) hne
    · refine absurd ?_ (hbefore (w + 1) (by omega) h)
      push_cast
      rwa [hw]
  have hnew : waiting n ((prev + d) % n) i = w - d := by
    have hmod : i - (prev + d) % n - 1 ≡ (i - prev - 1) - d [ZMOD n] := by
      rw [show (i - prev - 1) - (d : Int) = i - (prev + d) - 1 by omega]
      exact ((Int.mod_modEq (prev + d) n).sub_left i).sub_right 1
    have hold : i - prev - 1 ≡ w [ZMOD n] := by
      rw [show (w : Int) = waiting n prev i from hw'.symm]
      exact (Int.mod_modEq _ _).symm
    exact (hmod.trans (hold.sub_right d)).eq.trans (Int.emod_eq_of_lt (by omega) (by omega))
  rw [hnew]
  omega

/-! ## All turns -/

theorem InTurn.right {l' : List ((Int → Prop) × Int)} (h : InTurn n prev (l ++ l')) :
    ∃ prev', InTurn n prev' l' := by
  induction l generalizing prev with
  | nil => exact ⟨prev, h⟩
  | cons t l ih => exact ih h.2

theorem InTurn.left {l' : List ((Int → Prop) × Int)} (h : InTurn n prev (l ++ l')) :
    InTurn n prev l := by
  induction l generalizing prev with
  | nil => trivial
  | cons t l ih => exact ⟨h.1, ih h.2⟩

/-- While a waiting position is passed over, fewer turns go by than positions lie before it. -/
theorem InTurn.passed (h : InTurn n prev l) (hn : 0 < n) (h0 : 0 ≤ i) (hi : i < n)
    (hA : ∀ t ∈ l, t.1 i) (hnot : i ∉ l.map Prod.snd) : (l.length : Int) ≤ waiting n prev i := by
  induction l generalizing prev with
  | nil => exact waiting_nonneg hn prev i
  | cons t l ih =>
    rw [List.map_cons, List.mem_cons, not_or] at hnot
    have hstep := waiting_lt h.1 h0 hi (hA t List.mem_cons_self) (Ne.symm hnot.1)
    have := ih h.2 (fun t' ht' => hA t' (List.mem_cons_of_mem _ ht')) hnot.2
    rw [List.length_cons]
    push_cast
    omega

/-- Who has the property at each of `n` turns gets one of them. -/
theorem InTurn.served (h : InTurn n prev l) (hn : 0 < n) (h0 : 0 ≤ i) (hi : i < n)
    (hA : ∀ t ∈ l, t.1 i) (hlen : n ≤ l.length) : i ∈ l.map Prod.snd := by
  by_contra hnot
  have hpassed := h.passed hn h0 hi hA hnot
  have := waiting_lt_length hn prev i
  omega

end LossOs.Lib
