/-
  Paths of names, and nodes below which everything is alike.

  A path of keys leads down along links with `P` (`Leads`). Two nodes, of two graphs, are `Alike`
  when the same paths lead down from both, to nodes that are the same in a given sense. This is put
  together from the links of the two nodes (`Alike.of_links`), and it depends only on what lies
  below them (`Alike.congr`).
-/
import LossOs.Lib.Subtree

namespace LossOs.Lib

namespace LinkGraph

variable {ι κ ε ν : Type*} {target : ε → ι} {P : ε → Prop} {key : ε → ν}
    {g g₁ g' g₁' : LinkGraph ι κ ε}
  {i j i' : ι} {path : List ν} {same same₁ : ι → ι → Prop}

/-- The path leads from the first node to the second. -/
def Leads (target : ε → ι) (P : ε → Prop) (key : ε → ν) (g : LinkGraph ι κ ε) :
    List ν → ι → ι → Prop
  | [], i, j => i = j
  | n :: path, i, j => g.isDir i ∧ ∃ a ∈ g.links i, P a ∧ key a = n ∧
      Leads target P key g path (target a) j

/-- The same paths lead down from both nodes, to nodes that are the same. -/
structure Alike (target : ε → ι) (P : ε → Prop) (key : ε → ν) (same : ι → ι → Prop)
    (g g' : LinkGraph ι κ ε) (i i' : ι) : Prop where
  there : ∀ path j, Leads target P key g path i j →
    ∃ j', Leads target P key g' path i' j' ∧ same j j'
  back : ∀ path j', Leads target P key g' path i' j' →
    ∃ j, Leads target P key g path i j ∧ same j j'

theorem Leads.below (h : Leads target P key g path i j) : Below target P g i j := by
  induction path generalizing i with
  | nil =>
    obtain rfl : i = j := h
    exact Relation.ReflTransGen.refl
  | cons n path ih =>
    obtain ⟨hd, a, ha, hP, -, h⟩ := h
    exact Relation.ReflTransGen.head ⟨hd, a, ha, hP, rfl⟩ (ih h)

theorem leads_append {path' : List ν} {k : ι} :
    Leads target P key g (path ++ path') i k ↔
      ∃ j, Leads target P key g path i j ∧ Leads target P key g path' j k := by
  induction path generalizing i with
  | nil => exact ⟨fun h => ⟨i, rfl, h⟩, fun ⟨j, hj, h⟩ => hj ▸ h⟩
  | cons n path ih =>
    constructor
    · rintro ⟨hd, a, ha, hP, hn, h⟩
      obtain ⟨j, hj, h⟩ := ih.mp h
      exact ⟨j, ⟨hd, a, ha, hP, hn, hj⟩, h⟩
    · rintro ⟨j, ⟨hd, a, ha, hP, hn, hj⟩, h⟩
      exact ⟨hd, a, ha, hP, hn, ih.mpr ⟨j, hj, h⟩⟩

/-- Each link is a path. -/
theorem leads_link {a : ε} (hd : g.isDir i) (ha : a ∈ g.links i) (hP : P a) :
    Leads target P key g [key a] i (target a) := ⟨hd, a, ha, hP, rfl, rfl⟩

/-- A path leads to whatever lies below. -/
theorem exists_leads (h : Below target P g i j) : ∃ path, Leads target P key g path i j := by
  induction h with
  | refl => exact ⟨[], rfl⟩
  | tail _ hchild ih =>
    obtain ⟨path, hpath⟩ := ih
    obtain ⟨hd, a, ha, hP, rfl⟩ := hchild
    exact ⟨path ++ [key a], leads_append.mpr ⟨_, hpath, leads_link hd ha hP⟩⟩

/-- What a path leads to depends on the links that lie below. -/
theorem leads_congr (h : ∀ y, Below target P g i y →
    (g₁.isDir y ↔ g.isDir y) ∧ (g.isDir y → g₁.links y = g.links y)) :
    Leads target P key g₁ path i j ↔ Leads target P key g path i j := by
  induction path generalizing i with
  | nil => exact Iff.rfl
  | cons n path ih =>
    obtain ⟨hd, hl⟩ := h i Relation.ReflTransGen.refl
    unfold Leads
    rw [hd]
    apply and_congr_right
    intro hi
    rw [hl hi]
    refine exists_congr fun a => and_congr_right fun ha => and_congr_right fun hP => ?_
    refine and_congr_right fun _ => ih fun y hy => h y ?_
    exact Relation.ReflTransGen.head ⟨hi, a, ha, hP, rfl⟩ hy

/-- A path still leads there when links are added. -/
theorem Leads.mono (h : Leads target P key g path i j)
    (hg : ∀ y, g.isDir y → g₁.isDir y ∧ ∀ a ∈ g.links y, a ∈ g₁.links y) :
    Leads target P key g₁ path i j := by
  induction path generalizing i with
  | nil => exact h
  | cons n path ih =>
    obtain ⟨hd, a, ha, hP, hn, h⟩ := h
    exact ⟨(hg i hd).1, a, (hg i hd).2 a ha, hP, hn, ih h⟩

/-- Nodes that are the same are alike when their links lead to nodes that are alike. -/
theorem Alike.of_links (h : same i i') (hd : g.isDir i ↔ g'.isDir i')
    (hthere : g.isDir i → ∀ a ∈ g.links i, P a → ∃ a' ∈ g'.links i', P a' ∧ key a' = key a ∧
      Alike target P key same g g' (target a) (target a'))
    (hback : g.isDir i → ∀ a' ∈ g'.links i', P a' → ∃ a ∈ g.links i, P a ∧ key a' = key a ∧
      Alike target P key same g g' (target a) (target a')) :
    Alike target P key same g g' i i' := by
  refine ⟨fun path j hj => ?_, fun path j' hj => ?_⟩
  · cases path with
    | nil =>
      obtain rfl : i = j := hj
      exact ⟨i', rfl, h⟩
    | cons n path =>
      obtain ⟨hi, a, ha, hP, rfl, hj⟩ := hj
      obtain ⟨a', ha', hP', hkey, hal⟩ := hthere hi a ha hP
      obtain ⟨j', hj', hs⟩ := hal.there path j hj
      exact ⟨j', ⟨hd.mp hi, a', ha', hP', hkey, hj'⟩, hs⟩
  · cases path with
    | nil =>
      obtain rfl : i' = j' := hj
      exact ⟨i, rfl, h⟩
    | cons n path =>
      obtain ⟨hi, a', ha', hP', rfl, hj⟩ := hj
      obtain ⟨a, ha, hP, hkey, hal⟩ := hback (hd.mpr hi) a' ha' hP'
      obtain ⟨j, hj', hs⟩ := hal.back path j' hj
      exact ⟨j, ⟨hd.mpr hi, a, ha, hP, hkey.symm, hj'⟩, hs⟩

theorem Alike.head (h : Alike target P key same g g' i i') : same i i' := by
  obtain ⟨j', hj, hs⟩ := h.there [] i rfl
  obtain rfl : i' = j' := hj
  exact hs

/-- Nodes stay alike as long as what lies below them stays. -/
theorem Alike.congr (h : Alike target P key same g g' i i')
    (hg : ∀ y, Below target P g i y →
      (g₁.isDir y ↔ g.isDir y) ∧ (g.isDir y → g₁.links y = g.links y))
    (hg' : ∀ y, Below target P g' i' y →
      (g₁'.isDir y ↔ g'.isDir y) ∧ (g'.isDir y → g₁'.links y = g'.links y))
    (hs : ∀ y y', Below target P g i y → Below target P g' i' y' → same y y' → same₁ y y') :
    Alike target P key same₁ g₁ g₁' i i' := by
  refine ⟨fun path j hj => ?_, fun path j' hj' => ?_⟩
  · rw [leads_congr hg] at hj
    obtain ⟨j', hj', hsame⟩ := h.there path j hj
    exact ⟨j', (leads_congr hg').mpr hj', hs j j' hj.below hj'.below hsame⟩
  · rw [leads_congr hg'] at hj'
    obtain ⟨j, hj, hsame⟩ := h.back path j' hj'
    exact ⟨j, (leads_congr hg).mpr hj, hs j j' hj.below hj'.below hsame⟩

end LinkGraph

end LossOs.Lib
