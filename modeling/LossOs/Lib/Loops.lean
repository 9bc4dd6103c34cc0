/-
  Loops that may fail.

  `loop L f` runs `f i` for each `i` of the list. `Refines abs I f g`: from a state that meets `I`,
  `f` gives a state that meets `I`, and its view by `abs` is what `g` makes of the view before. A
  loop refines the fold of what its rounds refine (`Refines.loop`). `loopWhile` has a condition of
  its own besides the bound; an invariant of its rounds holds where it stops (`loopWhile_total`, and
  `loopWhile_inv` where it need not succeed).
-/
import Mathlib.Data.List.Basic

namespace LossOs.Lib

/-- The values of `i` in `for (int i = lo; i < hi; i++)`. -/
def upTo (lo hi : Nat) : List Nat := List.range' lo (hi - lo)

theorem mem_upTo {lo hi i : Nat} : i ∈ upTo lo hi ↔ lo ≤ i ∧ i < hi := by
  unfold upTo
  rw [List.mem_range'_1]
  omega

/-- `f i` for each `i` of the list, one after the other. -/
def loop {σ ι : Type*} (L : List ι) (f : ι → σ → Option σ) (s : σ) : Option σ :=
  L.foldlM (fun s i => f i s) s

section Rounds

variable {σ ι : Type*} (L : List ι) (i : ι) (f : ι → σ → Option σ) (s : σ)

theorem upTo_succ (n : Nat) : upTo 0 (n + 1) = upTo 0 n ++ [n] := by
  unfold upTo
  rw [Nat.sub_zero, Nat.sub_zero, List.range'_concat, Nat.one_mul, Nat.zero_add]

theorem loop_cons : loop (i :: L) f s = (f i s).bind (loop L f) := List.foldlM_cons

theorem loop_singleton : loop [i] f s = f i s :=
  (loop_cons [] i f s).trans (Option.bind_fun_some _)

theorem loop_concat : loop (L ++ [i]) f s = (loop L f s).bind (f i) := by
  unfold loop
  rw [List.foldlM_append]
  exact congrArg (Option.bind _) (funext fun s => loop_singleton i f s)

end Rounds

/-- From states that meet `I`, `f` does what `g` says of the views. -/
def Refines {σ τ : Type*} (abs : σ → τ) (I : σ → Prop) (f : σ → Option σ) (g : τ → τ) : Prop :=
  ∀ s, I s → ∃ s', f s = some s' ∧ I s' ∧ abs s' = g (abs s)

section Refines

variable {σ τ ι : Type*} {abs : σ → τ} {I J : σ → Prop} {f f' : σ → Option σ} {g g' : τ → τ}

theorem Refines.refl : Refines abs I some id := fun s hs => ⟨s, rfl, hs, rfl⟩

theorem Refines.congr (h : Refines abs I f g) (hf : ∀ s, f' s = f s) (hg : ∀ t, g t = g' t) :
    Refines abs I f' g' := by
  intro s hs
  obtain ⟨s', hs', hI, habs⟩ := h s hs
  exact ⟨s', (hf s).trans hs', hI, habs.trans (hg _)⟩

theorem Refines.bind (h : Refines abs I f g) (h' : Refines abs I f' g') :
    Refines abs I (fun s => (f s).bind f') (g' ∘ g) := by
  intro s hs
  obtain ⟨s₁, hf, hs₁, habs⟩ := h s hs
  obtain ⟨s₂, hf', hs₂, habs'⟩ := h' s₁ hs₁
  refine ⟨s₂, ?_, hs₂, ?_⟩
  · show (f s).bind f' = some s₂
    rw [hf]
    exact hf'
  · rw [habs', habs]
    rfl

/-- A loop refines the fold of what its rounds refine. -/
theorem Refines.loop {F : ι → σ → Option σ} {G : ι → τ → τ} {L : List ι}
    (h : ∀ i ∈ L, Refines abs I (F i) (G i)) :
    Refines abs I (Lib.loop L F) (fun t => L.foldl (fun t i => G i t) t) := by
  induction L with
  | nil => exact fun s hs => ⟨s, rfl, hs, rfl⟩
  | cons i L ih =>
    intro s hs
    obtain ⟨s₁, hf, hs₁, habs⟩ := h i List.mem_cons_self s hs
    obtain ⟨s₂, hf', hs₂, habs'⟩ := ih (fun j hj => h j (List.mem_cons_of_mem i hj)) s₁ hs₁
    refine ⟨s₂, ?_, hs₂, ?_⟩
    · rw [loop_cons, hf]
      exact hf'
    · rw [habs', habs]
      rfl

end Refines

/-! ## Loops with a condition -/

/-- `for (; i < i + k && cond; i++)`: at most `k` rounds. -/
def loopWhile {σ : Type*} (cond : Nat → σ → Bool) (f : Nat → σ → Option σ) :
    (k i : Nat) → σ → Option σ
  | 0, _, s => some s
  | k + 1, i, s => if cond i s then (f i s).bind (loopWhile cond f k (i + 1)) else some s

section While

variable {σ : Type*} {cond : Nat → σ → Bool} {f : Nat → σ → Option σ} {I : Nat → σ → Prop}
  {k i : Nat} {s s' : σ}

theorem loopWhile_stop (h : cond i s = false) : loopWhile cond f k i s = some s := by
  cases k with
  | zero => rfl
  | succ k =>
    rw [loopWhile, h]
    rfl

theorem loopWhile_next (h : cond i s = true) :
    loopWhile cond f (k + 1) i s = (f i s).bind (loopWhile cond f k (i + 1)) := if_pos h

/-- Rounds that succeed from the states of an invariant: the loop does, and stops at the bound or
    where the condition fails. -/
theorem loopWhile_total (cond : Nat → σ → Bool) (f : Nat → σ → Option σ) (k : Nat)
    (hround : ∀ j s, j < i + k → I j s → cond j s = true → ∃ s', f j s = some s' ∧ I (j + 1) s')
    (hs : I i s) : ∃ j s', loopWhile cond f k i s = some s' ∧ I j s' ∧ i ≤ j ∧ j ≤ i + k ∧
      (j = i + k ∨ cond j s' = false) := by
  induction k generalizing i s with
  | zero => exact ⟨i, s, rfl, hs, Nat.le_refl i, Nat.le_refl i, Or.inl rfl⟩
  | succ k ih =>
    cases hc : cond i s with
    | false => exact ⟨i, s, loopWhile_stop hc, hs, Nat.le_refl i, by omega, Or.inr hc⟩
    | true =>
      obtain ⟨s₁, hf, hs₁⟩ := hround i s (by omega) hs hc
      obtain ⟨j, s', hrun, hs', hle, hle', hend⟩ :=
        ih (fun j s hj => hround j s (by omega)) hs₁
      refine ⟨j, s', ?_, hs', by omega, by omega, ?_⟩
      · rw [loopWhile_next hc, hf]
        exact hrun
      · rwa [show i + (k + 1) = i + 1 + k from by omega]

/-- What each round keeps, where it succeeds, the loop does. -/
theorem loopWhile_inv
    (hround : ∀ j s s', j < i + k → I j s → cond j s = true → f j s = some s' → I (j + 1) s')
    (hs : I i s) (hrun : loopWhile cond f k i s = some s') : ∃ j, I j s' := by
  induction k generalizing i s with
  | zero =>
    obtain rfl : s = s' := Option.some.inj hrun
    exact ⟨i, hs⟩
  | succ k ih =>
    cases hc : cond i s with
    | false =>
      rw [loopWhile_stop hc] at hrun
      obtain rfl : s = s' := Option.some.inj hrun
      exact ⟨i, hs⟩
    | true =>
      rw [loopWhile_next hc] at hrun
      obtain ⟨s₁, hf, hrest⟩ := Option.bind_eq_some_iff.mp hrun
      exact ih (fun j s s' hj => hround j s s' (by omega)) (hround i s s₁ (by omega) hs hc hf) hrest

end While

end LossOs.Lib
