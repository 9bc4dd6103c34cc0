/-
  Tables of flags: a fixed number of slots, each of them taken or free.

  * `firstFree_eq_some`, `firstFree_eq_none`: the scan finds the lowest free slot from a start.
  * `count_update_gain`, `count_update_loss`: how one update moves the number of slots in a
    state.
-/
import Mathlib.Data.Finset.Card
import Mathlib.Data.Fintype.Card
import Mathlib.Data.Fin.Basic

namespace LossOs.Lib

variable {n start : Nat} {f g : Fin n → Bool} {i j : Fin n} {b : Bool}

/-- The first slot from `start` on whose flag is clear. -/
def firstFree (start : Nat) (f : Fin n → Bool) : Option (Fin n) :=
  (List.finRange n).find? fun i => decide (start ≤ i.val) && !f i

/-- The number of slots whose flag is `b`. -/
def count (b : Bool) (f : Fin n → Bool) : Nat := (Finset.univ.filter fun i => f i = b).card

/-! ## The scan -/

theorem firstFree_eq_some (h : firstFree start f = some i) :
    start ≤ i.val ∧ f i = false ∧ ∀ j, start ≤ j.val → j < i → f j = true := by
  have hi := List.find?_some h
  simp only [Bool.and_eq_true, decide_eq_true_eq, Bool.not_eq_true'] at hi
  refine ⟨hi.1, hi.2, fun j hj hlt => ?_⟩
  obtain ⟨-, A, B, hAB, hA⟩ := List.find?_eq_some_iff_append.mp h
  have hmem : j ∈ A ++ i :: B := hAB ▸ List.mem_finRange j
  have hsorted : (A ++ i :: B).Pairwise (· < ·) := hAB ▸ List.pairwise_lt_finRange n
  have hjA : j ∈ A := by
    rcases List.mem_append.mp hmem with hA' | hB'
    · exact hA'
    · have hge : i ≤ j := by
        rcases List.mem_cons.mp hB' with rfl | hB''
        · exact le_refl _
        · exact le_of_lt (List.rel_of_pairwise_cons (List.pairwise_append.mp hsorted).2.1 hB'')
      omega
  have := hA j hjA
  simpa [hj] using this

theorem firstFree_eq_none : firstFree start f = none ↔ ∀ i : Fin n, start ≤ i.val → f i = true := by
  unfold firstFree
  rw [List.find?_eq_none]
  simp [List.mem_finRange]

theorem firstFree_isSome (hs : start ≤ i.val) (h : f i = false) :
    ∃ j, firstFree start f = some j := by
  cases hf : firstFree start f with
  | some j => exact ⟨j, rfl⟩
  | none => rw [firstFree_eq_none.mp hf i hs] at h; cases h

/-! ## Counting -/

theorem count_add (f : Fin n → Bool) : count true f + count false f = n := by
  have h := Finset.card_filter_add_card_filter_not (s := Finset.univ) fun i => f i = true
  simp only [Bool.not_eq_true] at h
  simpa [count] using h

theorem exists_of_count_pos (h : 0 < count b f) : ∃ i, f i = b := by
  obtain ⟨i, hi⟩ := Finset.card_pos.mp h
  exact ⟨i, (Finset.mem_filter.mp hi).2⟩

theorem count_pos (h : f i = b) : 0 < count b f :=
  Finset.card_pos.mpr ⟨i, by simpa using h⟩

theorem count_eq_zero : count b f = 0 ↔ ∀ i, f i ≠ b := by
  simp [count, Finset.filter_eq_empty_iff]

/-- A slot that comes into state `b` adds one. -/
theorem count_update_gain (h : f i ≠ b) : count b (Function.update f i b) = count b f + 1 := by
  have hset : (Finset.univ.filter fun j => Function.update f i b j = b) =
      insert i (Finset.univ.filter fun j => f j = b) := by
    ext j
    simp only [Finset.mem_filter, Finset.mem_univ, true_and, Finset.mem_insert]
    by_cases hj : j = i
    · subst hj
      simp
    · simp [hj]
  unfold count
  rw [hset, Finset.card_insert_of_notMem (by simpa using h)]

/-- A slot that leaves state `b` takes one away. -/
theorem count_update_loss (h : f i = b) :
    count b (Function.update f i (!b)) + 1 = count b f := by
  have hback : Function.update (Function.update f i (!b)) i b = f := by
    rw [Function.update_idem, ← h, Function.update_eq_self]
  have := count_update_gain (f := Function.update f i (!b)) (i := i) (b := b)
    (by simp)
  rw [hback] at this
  exact this.symm

theorem count_le_of_imp (h : ∀ i, f i = b → g i = b) : count b f ≤ count b g :=
  Finset.card_le_card fun i hi => by
    rw [Finset.mem_filter] at hi ⊢
    exact ⟨hi.1, h i hi.2⟩

end LossOs.Lib
