/-
  A memory seen through a mapping.

  Keys are mapped to places of one memory. When no place has two keys (`Apart`), what a key sees
  is its own: a write through one key is an update of what that key sees and of nothing else
  (`seen_write`), and mapping a key to a new place brings in what lies there (`seen_map`).
-/
import Mathlib.Logic.Function.Basic

namespace LossOs.Lib

variable {κ φ β : Type*}

/-- No place has two keys. -/
def Apart (m : κ → Option φ) : Prop := ∀ k l f, m k = some f → m l = some f → k = l

/-- What each key sees of the memory. -/
def seen (m : κ → Option φ) (ram : φ → β) (k : κ) : Option β := (m k).map ram

variable {m : κ → Option φ} {ram ram' : φ → β} {k : κ} {f : φ}

theorem seen_of_some (h : m k = some f) : seen m ram k = some (ram f) := by
  unfold seen
  rw [h]
  rfl

@[simp] theorem seen_eq_none : seen m ram k = none ↔ m k = none := Option.map_eq_none_iff

/-- Keys that are taken away see nothing. -/
theorem seen_unmap (p : κ → Prop) [DecidablePred p] :
    seen (fun k => if p k then none else m k) ram =
      fun k => if p k then none else seen m ram k := by
  funext k
  unfold seen
  dsimp only
  by_cases hp : p k
  · rw [if_pos hp, if_pos hp]
    rfl
  · rw [if_neg hp, if_neg hp]

variable [DecidableEq κ]

/-- A write through a key is seen by that key alone. -/
theorem seen_write [DecidableEq φ] (h : Apart m) (hk : m k = some f) (b : β) :
    seen m (Function.update ram f b) = Function.update (seen m ram) k (some b) := by
  funext l
  by_cases hl : l = k
  · subst hl
    rw [Function.update_self, seen_of_some hk, Function.update_self]
  · rw [Function.update_of_ne hl]
    cases hm : m l with
    | none => rw [seen_eq_none.mpr hm, seen_eq_none.mpr hm]
    | some g =>
      have hg : g ≠ f := fun hc => hl (h l k f (hc ▸ hm) hk)
      rw [seen_of_some hm, seen_of_some hm, Function.update_of_ne hg]

/-- A key that is mapped anew sees what lies there. -/
theorem seen_map (f : φ) :
    seen (Function.update m k (some f)) ram = Function.update (seen m ram) k (some (ram f)) := by
  funext l
  by_cases hl : l = k
  · subst hl
    rw [Function.update_self]
    exact seen_of_some (Function.update_self ..)
  · rw [Function.update_of_ne hl]
    unfold seen
    rw [Function.update_of_ne hl]

end LossOs.Lib
