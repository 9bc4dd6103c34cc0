/-
  The nodes below a node.

  The links with `P` make a forest when each node has one of them at most (`Once`) and ranks grow
  along them (`Ranked`). Then what lies below two links of one directory is disjoint
  (`Once.apart_below`), every node has a height (`Ranked.tall`), and subtrees that are taken out one
  after the other add up (`Prune.trans`).
-/
import LossOs.Lib.LinkGraph
import Mathlib.Data.Finset.Lattice.Fold
import Mathlib.Data.List.Pairwise
import Mathlib.Logic.Function.Basic
import Mathlib.Logic.Relation

namespace LossOs.Lib

namespace LinkGraph

variable {ι κ ε : Type*} {target : ε → ι} {P : ε → Prop} {g g' g'' : LinkGraph ι κ ε}
  {p q t u x y : ι} {a b : ε} {own rest rest' : List ε}

/-! ## Below -/

/-- A link with `P` leads from directory `p` to `q`. -/
def Child (target : ε → ι) (P : ε → Prop) (g : LinkGraph ι κ ε) (p q : ι) : Prop :=
  g.isDir p ∧ ∃ a ∈ g.links p, P a ∧ target a = q

/-- Links with `P` lead down from the first node to the second. -/
abbrev Below (target : ε → ι) (P : ε → Prop) (g : LinkGraph ι κ ε) : ι → ι → Prop :=
  Relation.ReflTransGen (Child target P g)

theorem below_iff : Below target P g p x ↔
    p = x ∨ g.isDir p ∧ ∃ a ∈ g.links p, P a ∧ Below target P g (target a) x := by
  refine Relation.ReflTransGen.cases_head_iff.trans (or_congr Iff.rfl ⟨?_, ?_⟩)
  · rintro ⟨q, ⟨hp, a, ha, hP, rfl⟩, hq⟩
    exact ⟨hp, a, ha, hP, hq⟩
  · rintro ⟨hp, a, ha, hP, hq⟩
    exact ⟨_, ⟨hp, a, ha, hP, rfl⟩, hq⟩

/-- What lies below `u` depends on the links that lie there. -/
theorem below_congr (h : ∀ y, Below target P g u y →
    (g'.isDir y ↔ g.isDir y) ∧ (g.isDir y → g'.links y = g.links y)) :
    Below target P g' u x ↔ Below target P g u x := by
  have hchild : ∀ y z, Below target P g u y → (Child target P g' y z ↔ Child target P g y z) := by
    intro y z hy
    obtain ⟨hd, hl⟩ := h y hy
    unfold Child
    rw [hd]
    exact and_congr_right fun hdy => by rw [hl hdy]
  constructor
  · intro hx
    induction hx with
    | refl => exact Relation.ReflTransGen.refl
    | tail _ hc ih => exact ih.tail ((hchild _ _ ih).mp hc)
  · intro hx
    induction hx with
    | refl => exact Relation.ReflTransGen.refl
    | tail hy hc ih => exact ih.tail ((hchild _ _ hy).mpr hc)

/-- Links with `P` lead to allocated nodes. -/
theorem Once.used_below (h : Once target P g) (hu : g.used p) (hx : Below target P g p x) :
    g.used x := by
  induction hx with
  | refl => exact hu
  | tail _ hc _ =>
    obtain ⟨hd, a, ha, hP, rfl⟩ := hc
    exact h.used _ hd a ha hP

/-! ## Ranks -/

/-- Ranks grow along the links with `P`. -/
def Ranked (target : ε → ι) (P : ε → Prop) (g : LinkGraph ι κ ε) : Prop :=
  ∃ rank : ι → Nat, ∀ p, g.isDir p → ∀ a ∈ g.links p, P a → rank p < rank (target a)

theorem Ranked.same (h : Ranked target P g) (hs : Same g g') : Ranked target P g' := by
  obtain ⟨rank, h⟩ := h
  refine ⟨rank, fun p hp a ha hP => ?_⟩
  have hp' := (hs.isDir p).mp hp
  rw [hs.links p hp'] at ha
  exact h p hp' a ha hP

theorem Ranked.drop {x : ε} (h : Ranked target P g) (hs : Drop target g g' p x) :
    Ranked target P g' := by
  obtain ⟨rank, h⟩ := h
  exact ⟨rank, fun q hq a ha hP =>
    h q ((hs.isDir q).mp hq).1 a ((hs.sublist hq).subset ha) hP⟩

/-- The new node gets a rank above that of its directory. -/
theorem Ranked.add {x : ε} (h : Ranked target P g) (ho : Once target P g) (hu : DirsUsed g)
    (hs : Add target g g' p x own) (hp : g.isDir p) (hown : ∀ a ∈ own, ¬ P a) :
    Ranked target P g' := by
  classical
  obtain ⟨rank, h⟩ := h
  have hne : ∀ q, g.isDir q → q ≠ target x := fun q hq => hs.ne_of_used (hu q hq)
  refine ⟨Function.update rank (target x) (rank p + 1), fun q hq a ha hP => ?_⟩
  rcases hs.link_cases hq ha with ⟨-, hao⟩ | ⟨rfl, rfl⟩ | ⟨hd, hao⟩
  · exact absurd hP (hown a hao)
  · rw [Function.update_of_ne (hne q hp), Function.update_self]
    exact Nat.lt_succ_self _
  · rw [Function.update_of_ne (hne q hd),
      Function.update_of_ne (hs.ne_of_used (ho.used q hd a hao hP))]
    exact h q hd a hao hP

theorem Ranked.not_below (h : Ranked target P g) (hc : Child target P g p q) :
    ¬ Below target P g q p := by
  obtain ⟨rank, h⟩ := h
  have hlt : ∀ y z, Child target P g y z → rank y < rank z := by
    rintro y _ ⟨hd, a, ha, hP, rfl⟩
    exact h y hd a ha hP
  have hle : ∀ z, Below target P g q z → rank q ≤ rank z := by
    intro z hz
    induction hz with
    | refl => exact le_rfl
    | tail _ hc ih => exact ih.trans (hlt _ _ hc).le
  exact fun hb => absurd (hlt p q hc) (not_lt.mpr (hle p hb))

/-- From `i` links with `P` lead down `n` times at most. -/
def Tall (target : ε → ι) (P : ε → Prop) (g : LinkGraph ι κ ε) : Nat → ι → Prop
  | 0, i => ∀ q, ¬ Child target P g i q
  | n + 1, i => ∀ q, Child target P g i q → Tall target P g n q

theorem Tall.mono {n m : Nat} (h : Tall target P g n u) (hle : n ≤ m) : Tall target P g m u := by
  induction n generalizing m u with
  | zero =>
    cases m with
    | zero => exact h
    | succ m => exact fun q hq => absurd hq (h q)
  | succ n ih =>
    obtain ⟨m, rfl⟩ : ∃ k, m = k + 1 := ⟨m - 1, by omega⟩
    exact fun q hq => ih (h q hq) (by omega)

/-- The height of `u` depends on the links that lie below. -/
theorem Tall.congr {n : Nat} (ht : Tall target P g n u) (h : ∀ y, Below target P g u y →
    (g'.isDir y ↔ g.isDir y) ∧ (g.isDir y → g'.links y = g.links y)) : Tall target P g' n u := by
  have hchild : ∀ u, (∀ y, Below target P g u y →
      (g'.isDir y ↔ g.isDir y) ∧ (g.isDir y → g'.links y = g.links y)) →
      ∀ q, Child target P g' u q → Child target P g u q := by
    rintro u h q ⟨hd, a, ha, hP, rfl⟩
    obtain ⟨h1, h2⟩ := h u Relation.ReflTransGen.refl
    have hd' := h1.mp hd
    exact ⟨hd', a, h2 hd' ▸ ha, hP, rfl⟩
  induction n generalizing u with
  | zero => exact fun q hq => ht q (hchild u h q hq)
  | succ n ih =>
    intro q hq
    have hq' := hchild u h q hq
    exact ih (ht q hq') fun y hy => h y (Relation.ReflTransGen.head hq' hy)

/-- Where finitely many nodes are allocated, there is a bound on the heights. -/
theorem Ranked.tall (h : Ranked target P g) (ho : Once target P g) (s : Finset ι)
    (hs : ∀ j, g.used j → j ∈ s) : ∃ n, ∀ i, Tall target P g n i := by
  obtain ⟨rank, h⟩ := h
  have hlt : ∀ y z, Child target P g y z → rank y < rank z ∧ rank z ≤ s.sup rank := by
    rintro y _ ⟨hd, a, ha, hP, rfl⟩
    exact ⟨h y hd a ha hP, Finset.le_sup (hs _ (ho.used y hd a ha hP))⟩
  -- a node can be left only while its rank is below the largest one
  have htall : ∀ n i, s.sup rank ≤ rank i + n → Tall target P g n i := by
    intro n
    induction n with
    | zero =>
      intro i hi q hq
      have := hlt i q hq
      omega
    | succ n ih =>
      intro i hi q hq
      have := hlt i q hq
      exact ih q (by omega)
  exact ⟨s.sup rank, fun i => htall _ i (Nat.le_add_left _ _)⟩

/-! ## One way up -/

theorem Once.child_unique (h : Once target P g) (hp : Child target P g p x)
    (hq : Child target P g q x) : p = q := by
  obtain ⟨hdp, a, ha, hPa, rfl⟩ := hp
  obtain ⟨hdq, b, hb, hPb, he⟩ := hq
  by_contra hne
  exact h.apart p q hdp hdq hne a ha b hb hPa hPb he.symm

/-- One link leads there. -/
theorem Once.link_unique (h : Once target P g) (hp : g.isDir p) (ha : a ∈ g.links p) (hPa : P a)
    (hq : g.isDir q) (hb : b ∈ g.links q) (hPb : P b) (he : target a = target b) :
    p = q ∧ a = b := by
  obtain rfl : p = q := h.child_unique ⟨hp, a, ha, hPa, he⟩ ⟨hq, b, hb, hPb, rfl⟩
  refine ⟨rfl, ?_⟩
  by_contra hne
  have hsymm : Std.Symm fun a b : ε => P a → P b → target a ≠ target b :=
    ⟨fun x y hxy hy hx => (hxy hx hy).symm⟩
  exact (h.here p hp).forall ha hb hne hPa hPb he

/-- Of two nodes above the same one, one is above the other. -/
theorem Once.comparable (h : Once target P g) (hp : Below target P g p x)
    (hq : Below target P g q x) : Below target P g p q ∨ Below target P g q p := by
  induction hp with
  | refl => exact Or.inr hq
  | @tail y z hpy hyz ih =>
    rcases Relation.ReflTransGen.cases_tail hq with he | ⟨w, hqw, hwz⟩
    · exact Or.inl (he ▸ hpy.tail hyz)
    · obtain rfl := h.child_unique hyz hwz
      exact ih hqw

/-- What lies below two links of one directory is disjoint. -/
theorem Once.apart_below (h : Once target P g) (hr : Ranked target P g) (hp : Child target P g p q)
    (hp' : Child target P g p t) (hne : q ≠ t) (hx : Below target P g q x) :
    ¬ Below target P g t x := by
  have hnot : ∀ q t, Child target P g p q → Child target P g p t → q ≠ t →
      ¬ Below target P g q t := by
    intro q t hq ht hne hb
    rcases Relation.ReflTransGen.cases_tail hb with he | ⟨w, hqw, hwt⟩
    · exact hne he.symm
    · obtain rfl := h.child_unique hwt ht
      exact hr.not_below hq hqw
  intro hx'
  rcases h.comparable hx hx' with hb | hb
  · exact hnot q t hp hp' hne hb
  · exact hnot t q hp' hp hne.symm hb

/-! ## Taking out subtrees -/

/-- The nodes of `S` are freed, and directory `p`, which keeps the links `rest`, is the only other
    directory that changes. -/
structure Prune (g g' : LinkGraph ι κ ε) (p : ι) (S : ι → Prop) (rest : List ε) : Prop where
  used : ∀ j, g'.used j ↔ g.used j ∧ ¬ S j
  isDir : ∀ j, g'.isDir j ↔ g.isDir j ∧ ¬ S j
  links : g'.links p = rest
  others : ∀ j, g.isDir j → j ≠ p → ¬ S j → g'.links j = g.links j

variable {S S' : ι → Prop}

theorem Prune.refl (g : LinkGraph ι κ ε) (p : ι) : Prune g g p (fun _ => False) (g.links p) :=
  ⟨fun _ => by simp, fun _ => by simp, rfl, fun _ _ _ _ => rfl⟩

theorem Prune.trans (h : Prune g g' p S rest) (h' : Prune g' g'' p S' rest') :
    Prune g g'' p (fun j => S j ∨ S' j) rest' where
  used := fun j => by rw [h'.used, h.used]; tauto
  isDir := fun j => by rw [h'.isDir, h.isDir]; tauto
  links := h'.links
  others := fun j hj hne hS => by
    rw [not_or] at hS
    rw [h'.others j ((h.isDir j).mpr ⟨hj, hS.1⟩) hne hS.2, h.others j hj hne hS.1]

/-- Taking out one link with its node. -/
theorem Drop.prune {x : ε} (h : Drop target g g' p x) (hp : p ≠ target x) :
    ∃ A B, g.links p = A ++ x :: B ∧ Prune g g' p (fun j => j = target x) (A ++ B) := by
  obtain ⟨A, B, h1, h2⟩ := h.parent hp
  exact ⟨A, B, h1, h.used, h.isDir, h2, fun j hj hne hS => h.others j hj hne hS⟩

end LinkGraph

end LossOs.Lib
