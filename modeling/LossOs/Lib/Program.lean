/-
  Programs that make calls.

  A `Program` returns a value, or makes a call and goes on with the reply; a recursion that runs
  out of depth is `stuck`. A machine answers the calls (`run`), and `Always` says what holds of each
  call in the state that it is made in. Both take a program apart at its steps (`run_bind`,
  `always_bind`), and what such calls keep holds at the end (`Always.invariant`).
-/
import Mathlib.Logic.Basic

namespace LossOs.Lib

universe u v w

/-- A program with calls `C`, whose replies depend on the call, and results `α`. -/
inductive Program (C : Type v) (R : C → Type u) (α : Type u) where
  | done (a : α)
  | stuck
  | call (c : C) (next : R c → Program C R α)

namespace Program

variable {C : Type v} {R : C → Type u} {α β : Type u} {σ : Type w}

/-- Go on with the result. -/
def andThen : Program C R α → (α → Program C R β) → Program C R β
  | done a, f => f a
  | stuck, _ => stuck
  | call c next, f => call c fun r => (next r).andThen f

instance : Monad (Program C R) where
  pure := done
  bind := andThen

/-- Make one call. -/
def perform (c : C) : Program C R (R c) := call c done

variable (h : (c : C) → σ → R c × σ)

/-- Run the program where `h` answers the calls. -/
def run : Program C R α → σ → Option α × σ
  | done a, s => (some a, s)
  | stuck, s => (none, s)
  | call c next, s => (next (h c s).1).run (h c s).2

/-- `ok` holds of each call in the state that it is made in. -/
def Always (ok : C → σ → Prop) : Program C R α → σ → Prop
  | done _, _ => True
  | stuck, _ => True
  | call c next, s => ok c s ∧ (next (h c s).1).Always ok (h c s).2

variable {h} {p : Program C R α} {f : α → Program C R β} {ok ok' : C → σ → Prop} {s s' : σ} {a : α}

@[simp] theorem run_pure (a : α) (s : σ) : run h (pure a) s = (some a, s) := rfl

@[simp] theorem run_stuck (s : σ) : run h (stuck : Program C R α) s = (none, s) := rfl

@[simp] theorem run_perform (c : C) (s : σ) :
    run h (perform c) s = (some (h c s).1, (h c s).2) := rfl

/-- A program that returns is followed by the rest. -/
theorem run_bind_some (hp : run h p s = (some a, s')) : run h (p >>= f) s = run h (f a) s' := by
  induction p generalizing s with
  | done b =>
    obtain ⟨hb, rfl⟩ := Prod.mk.inj hp
    obtain rfl := Option.some.inj hb
    rfl
  | stuck => cases (Prod.mk.inj hp).1
  | call c next ih => exact ih _ hp

/-- A program that is stuck is not. -/
theorem run_bind_none (hp : run h p s = (none, s')) : run h (p >>= f) s = (none, s') := by
  induction p generalizing s with
  | done b => cases (Prod.mk.inj hp).1
  | stuck => exact congrArg (Prod.mk none) (Prod.mk.inj hp).2
  | call c next ih => exact ih _ hp

/-- There is one run. -/
theorem run_eq {b : α} {s'' : σ} (hp : run h p s = (some a, s')) (hq : run h p s = (some b, s'')) :
    a = b ∧ s' = s'' := by
  obtain ⟨hab, hs⟩ := Prod.mk.inj (hp.symm.trans hq)
  exact ⟨Option.some.inj hab, hs⟩

/-- What a program returns comes from what its first part returns. -/
theorem run_bind_inv {b : β} {s'' : σ} (hp : run h (p >>= f) s = (some b, s'')) :
    ∃ a s', run h p s = (some a, s') ∧ run h (f a) s' = (some b, s'') := by
  cases hfirst : run h p s with
  | mk a s' =>
    cases a with
    | none =>
      rw [run_bind_none hfirst] at hp
      cases (Prod.mk.inj hp).1
    | some a =>
      rw [run_bind_some hfirst] at hp
      exact ⟨a, s', rfl, hp⟩

/-- A program that returns something else than its early exit has not taken it. -/
theorem run_exit_inv {P : Prop} [Decidable P] {q : Program C R α} {b : α} (hab : a ≠ b)
    (hp : run h (if P then pure a else q) s = (some b, s')) : ¬ P ∧ run h q s = (some b, s') := by
  by_cases hP : P
  · rw [if_pos hP, run_pure] at hp
    exact absurd (Option.some.inj (Prod.mk.inj hp).1) hab
  · rw [if_neg hP] at hp
    exact ⟨hP, hp⟩

theorem run_perform_bind (c : C) (f : R c → Program C R β) (s : σ) :
    run h (perform c >>= f) s = run h (f (h c s).1) (h c s).2 := rfl

@[simp] theorem always_pure (a : α) (s : σ) : Always h ok (pure a) s := trivial

@[simp] theorem always_stuck (s : σ) : Always h ok (stuck : Program C R α) s := trivial

theorem always_perform_bind (c : C) (f : R c → Program C R β) (s : σ) :
    Always h ok (perform c >>= f) s ↔ ok c s ∧ Always h ok (f (h c s).1) (h c s).2 := Iff.rfl

theorem always_bind : Always h ok (p >>= f) s ↔
    Always h ok p s ∧ ∀ a s', run h p s = (some a, s') → Always h ok (f a) s' := by
  induction p generalizing s with
  | done b =>
    refine ⟨fun hf => ⟨trivial, ?_⟩, fun hf => hf.2 b s rfl⟩
    rintro a s' hs
    obtain ⟨ha, rfl⟩ := Prod.mk.inj hs
    obtain rfl := Option.some.inj ha
    exact hf
  | stuck => exact iff_of_true trivial ⟨trivial, fun a s' hs => by cases (Prod.mk.inj hs).1⟩
  | call c next ih => exact (and_congr_right fun _ => ih _).trans and_assoc.symm

/-- When the first part returns, what follows goes on from there. -/
theorem always_bind_some (hp : run h p s = (some a, s')) : Always h ok (p >>= f) s ↔
    Always h ok p s ∧ Always h ok (f a) s' := by
  rw [always_bind]
  refine and_congr_right fun _ => ⟨fun hf => hf a s' hp, fun hf b s'' hq => ?_⟩
  obtain ⟨rfl, rfl⟩ := run_eq hp hq
  exact hf

theorem forM_nil {γ : Type*} (g : γ → Program C R PUnit) : [].forM g = pure ⟨⟩ := rfl

theorem forM_cons {γ : Type*} (b : γ) (l : List γ) (g : γ → Program C R PUnit) :
    (b :: l).forM g = g b >>= fun _ => l.forM g := rfl

theorem always_forM {γ : Type*} {g : γ → Program C R PUnit} {l : List γ}
    (hg : ∀ b ∈ l, ∀ s, Always h ok (g b) s) (s : σ) : Always h ok (l.forM g) s := by
  induction l generalizing s with
  | nil => exact always_pure _ _
  | cons b l ih =>
    rw [forM_cons, always_bind]
    exact ⟨hg b List.mem_cons_self s,
      fun _ s' _ => ih (fun b hb => hg b (List.mem_cons_of_mem _ hb)) s'⟩

/-- What calls with `ok` keep holds at the end. -/
theorem Always.invariant {I : σ → Prop} (hp : Always h ok p s)
    (hstep : ∀ c s, I s → ok c s → I (h c s).2) (hs : I s) : I (run h p s).2 := by
  induction p generalizing s with
  | done a => exact hs
  | stuck => exact hs
  | call c next ih => exact ih _ hp.2 (hstep c s hs hp.1)

/-- Where an invariant of all calls implies `ok`, this always holds. -/
theorem always_of_invariant {I : σ → Prop} (p : Program C R α)
    (hstep : ∀ c s, I s → I (h c s).2) (hok : ∀ c s, I s → ok c s) (hs : I s) :
    Always h ok p s := by
  induction p generalizing s with
  | done a => trivial
  | stuck => trivial
  | call c next ih => exact ⟨hok c s hs, ih _ (hstep c s hs)⟩

theorem Always.mono (hp : Always h ok p s) (hle : ∀ c s, ok c s → ok' c s) : Always h ok' p s := by
  induction p generalizing s with
  | done a => trivial
  | stuck => trivial
  | call c next ih => exact ⟨hle c s hp.1, ih _ hp.2⟩

theorem Always.and (hp : Always h ok p s) (hp' : Always h ok' p s) :
    Always h (fun c s => ok c s ∧ ok' c s) p s := by
  induction p generalizing s with
  | done a => trivial
  | stuck => trivial
  | call c next ih => exact ⟨⟨hp.1, hp'.1⟩, ih _ hp.2 hp'.2⟩

-- programs are taken apart by the rules above
attribute [irreducible] run Always

end Program

end LossOs.Lib
