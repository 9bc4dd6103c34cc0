/-
  Runs of a machine that takes one event after the other.

  A step may fail to return (`none`), and a run may be held to a condition on each event in
  the state in which it comes. `Runs.invariant` is the induction every claim about reachable
  states goes through.
-/
import Mathlib.Logic.Relation

namespace LossOs.Lib

/-- What one step keeps, a whole run keeps. -/
theorem run_invariant {σ : Type*} {r : σ → σ → Prop} {I : σ → Prop} {s s' : σ}
    (hstep : ∀ s s', I s → r s s' → I s') (h : Relation.ReflTransGen r s s') (hs : I s) : I s' := by
  induction h with
  | refl => exact hs
  | tail _ hr ih => exact hstep _ _ ih hr

variable {σ ε : Type*} {step : ε → σ → Option σ} {ok : ε → σ → Prop} {s s' s'' : σ} {e : ε}

/-- A run of events that all return and all meet `ok` in the state in which they come. -/
def Runs (step : ε → σ → Option σ) (ok : ε → σ → Prop) : σ → σ → Prop :=
  Relation.ReflTransGen fun s s' => ∃ e, ok e s ∧ step e s = some s'

theorem Runs.refl (s : σ) : Runs step ok s s := Relation.ReflTransGen.refl

theorem Runs.tail (h : Runs step ok s s') (hok : ok e s') (he : step e s' = some s'') :
    Runs step ok s s'' := Relation.ReflTransGen.tail h ⟨e, hok, he⟩

/-- What every allowed event keeps, a whole run keeps. -/
theorem Runs.invariant {I : σ → Prop} (h : Runs step ok s s')
    (hstep : ∀ e s s', I s → ok e s → step e s = some s' → I s') (hs : I s) : I s' :=
  run_invariant (fun s s' hI ⟨e, hok, he⟩ => hstep e s s' hI hok he) h hs

end LossOs.Lib
