/-
  Labelled runs, and machines that answer for one another.

  An `Execution` is a run of labelled steps with its labels in order. When each step of a machine
  is answered by an execution of another one, with the label translated and the states related
  again, so is each of its executions (`Execution.simulate`). What the steps of an execution keep,
  it keeps (`Execution.invariant`).
-/
import Mathlib.Data.List.Basic

namespace LossOs.Lib

variable {σ ε τ δ : Type*}

/-- A run from one state to another, with the labels of its steps. -/
inductive Execution (step : σ → ε → σ → Prop) : σ → List ε → σ → Prop
  | nil (s : σ) : Execution step s [] s
  | cons {s s' s'' : σ} {e : ε} {es : List ε} : step s e s' → Execution step s' es s'' →
      Execution step s (e :: es) s''

variable {step : σ → ε → σ → Prop} {s s' s'' : σ} {e : ε} {es es' : List ε}

theorem Execution.single (h : step s e s') : Execution step s [e] s' := .cons h (.nil s')

theorem Execution.append (h : Execution step s es s') (h' : Execution step s' es' s'') :
    Execution step s (es ++ es') s'' := by
  induction h with
  | nil => exact h'
  | cons hs _ ih => exact .cons hs (ih h')

theorem Execution.snoc (h : Execution step s es s') (h' : step s' e s'') :
    Execution step s (es ++ [e]) s'' := h.append (.single h')

/-- What each step with one of the labels keeps, the execution keeps. -/
theorem Execution.invariant {I : σ → Prop} (h : Execution step s es s')
    (hstep : ∀ s e s', e ∈ es → I s → step s e s' → I s') (hs : I s) : I s' := by
  induction h with
  | nil => exact hs
  | cons hd _ ih =>
    exact ih (fun s e s' he => hstep s e s' (List.mem_cons_of_mem _ he))
      (hstep _ _ _ List.mem_cons_self hs hd)

/-- An execution is answered when each of its steps is. -/
theorem Execution.simulate (astep : τ → δ → τ → Prop) (f : ε → List δ) (R : σ → τ → Prop)
    (hstep : ∀ s t e s', R s t → step s e s' → ∃ t', Execution astep t (f e) t' ∧ R s' t')
    (h : Execution step s es s') {t : τ} (hR : R s t) :
    ∃ t', Execution astep t (es.flatMap f) t' ∧ R s' t' := by
  induction h generalizing t with
  | nil => exact ⟨t, .nil t, hR⟩
  | cons hd _ ih =>
    obtain ⟨t₁, h1, hR₁⟩ := hstep _ _ _ _ hR hd
    obtain ⟨t₂, h2, hR₂⟩ := ih hR₁
    exact ⟨t₂, h1.append h2, hR₂⟩

end LossOs.Lib
