/-
  A store of files and directories, in which a name stands for a stack of items.

  A directory maps each name to the items that have it, the one that is found first on top. What
  is put under a name hides what was there (`push`), and what is taken away uncovers it again
  (`pop`). A directory is opened with its first items, and closed with all it holds.
-/
import Mathlib.Logic.Function.Basic

namespace LossOs.Lib

/-- A file of `size` bytes of which the first ones are `bytes`, or a directory. -/
inductive Item (ι β : Type*)
  | file (size : Nat) (bytes : List β)
  | dir (i : ι)

/-- Which directories there are, and the items under each name in them. -/
structure Store (ι ν β : Type*) where
  dir : ι → Prop
  items : ι → ν → List (Item ι β)

namespace Store

variable {ι ν β : Type*}

theorem ext_items {s t : Store ι ν β} (hd : ∀ p, s.dir p ↔ t.dir p)
    (hi : ∀ p n, s.items p n = t.items p n) : s = t := by
  obtain ⟨d, f⟩ := s
  obtain ⟨d', f'⟩ := t
  obtain rfl : d = d' := funext fun p => propext (hd p)
  obtain rfl : f = f' := funext fun p => funext fun n => hi p n
  rfl

variable [DecidableEq ι] {s : Store ι ν β} {p q i : ι} {n m : ν} {x : Item ι β}
  {first : ν → List (Item ι β)}

/-- A new directory with its first items. -/
def openDir (s : Store ι ν β) (i : ι) (first : ν → List (Item ι β)) : Store ι ν β where
  dir j := s.dir j ∨ j = i
  items := Function.update s.items i first

/-- A directory is gone, with its items. -/
def closeDir (s : Store ι ν β) (i : ι) : Store ι ν β where
  dir j := s.dir j ∧ j ≠ i
  items := Function.update s.items i fun _ => []

@[simp] theorem openDir_dir : (s.openDir i first).dir q ↔ s.dir q ∨ q = i := Iff.rfl

@[simp] theorem closeDir_dir : (s.closeDir i).dir q ↔ s.dir q ∧ q ≠ i := Iff.rfl

theorem openDir_items : (s.openDir i first).items q m =
    if q = i then first m else s.items q m := by
  unfold openDir
  dsimp only
  by_cases hq : q = i
  · rw [hq, Function.update_self, if_pos rfl]
  · rw [Function.update_of_ne hq, if_neg hq]

theorem closeDir_items : (s.closeDir i).items q m = if q = i then [] else s.items q m := by
  unfold closeDir
  dsimp only
  by_cases hq : q = i
  · rw [hq, Function.update_self, if_pos rfl]
  · rw [Function.update_of_ne hq, if_neg hq]

variable [DecidableEq ν]

/-- Other items under one name. -/
def put (s : Store ι ν β) (p : ι) (n : ν) (l : List (Item ι β)) : Store ι ν β :=
  { s with items := Function.update s.items p (Function.update (s.items p) n l) }

/-- One more item under a name. -/
def push (s : Store ι ν β) (p : ι) (n : ν) (x : Item ι β) : Store ι ν β :=
  s.put p n (x :: s.items p n)

/-- The item on top of a name is gone. -/
def pop (s : Store ι ν β) (p : ι) (n : ν) : Store ι ν β := s.put p n (s.items p n).tail

@[simp] theorem put_dir (l : List (Item ι β)) : (s.put p n l).dir q ↔ s.dir q := Iff.rfl

@[simp] theorem push_dir : (s.push p n x).dir q ↔ s.dir q := Iff.rfl

@[simp] theorem pop_dir : (s.pop p n).dir q ↔ s.dir q := Iff.rfl

theorem put_items (l : List (Item ι β)) :
    (s.put p n l).items q m = if q = p ∧ m = n then l else s.items q m := by
  unfold put
  dsimp only
  by_cases hq : q = p
  · subst hq
    rw [Function.update_self]
    by_cases hm : m = n
    · rw [hm, Function.update_self, if_pos ⟨rfl, rfl⟩]
    · rw [Function.update_of_ne hm, if_neg fun h => hm h.2]
  · rw [Function.update_of_ne hq, if_neg fun h => hq h.1]

theorem push_items : (s.push p n x).items q m =
    if q = p ∧ m = n then x :: s.items p n else s.items q m := put_items _

theorem pop_items : (s.pop p n).items q m =
    if q = p ∧ m = n then (s.items p n).tail else s.items q m := put_items _

end Store

end LossOs.Lib
