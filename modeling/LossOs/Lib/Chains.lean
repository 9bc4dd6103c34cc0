/-
  Chains of links.

  A chain is the list of the links along a path: it `Leads` with the links themselves for keys. In a
  forest there is one chain from the root to each node (`Leads.unique`). `chains` lists the chains
  from a node to a depth, each before those that go on behind it; to the height of the node these
  are all of them (`mem_chains`), each once (`nodup_chains`).
-/
import LossOs.Lib.Paths
import Mathlib.Data.List.Nodup

namespace LossOs.Lib

namespace LinkGraph

variable {ι κ ε ν : Type*} {target : ε → ι} {P : ε → Prop} {key : ε → ν} {g : LinkGraph ι κ ε}
  {i j k : ι} {path : List ν} {c c' : List ε} {a : ε} {n : Nat}

/-! ## Chains and paths -/

theorem Leads.keys (h : Leads target P id g c i j) : Leads target P key g (c.map key) i j := by
  induction c generalizing i with
  | nil => exact h
  | cons a c ih =>
    obtain ⟨hd, b, hb, hP, hba, h⟩ := h
    obtain rfl : b = a := hba
    exact ⟨hd, b, hb, hP, rfl, ih h⟩

theorem Leads.chain (h : Leads target P key g path i j) :
    ∃ c, c.map key = path ∧ Leads target P id g c i j := by
  induction path generalizing i with
  | nil => exact ⟨[], rfl, h⟩
  | cons n path ih =>
    obtain ⟨hd, a, ha, hP, rfl, h⟩ := h
    obtain ⟨c, rfl, hc⟩ := ih h
    exact ⟨a :: c, rfl, hd, a, ha, hP, rfl, hc⟩

theorem leads_cons : Leads target P id g (a :: c) i k ↔
    g.isDir i ∧ a ∈ g.links i ∧ P a ∧ Leads target P id g c (target a) k := by
  constructor
  · rintro ⟨hd, b, hb, hP, hba, h⟩
    obtain rfl : b = a := hba
    exact ⟨hd, hb, hP, h⟩
  · rintro ⟨hd, ha, hP, h⟩
    exact ⟨hd, a, ha, hP, rfl, h⟩

/-- The last link of a chain. -/
theorem leads_concat : Leads target P id g (c ++ [a]) i k ↔
    ∃ j, Leads target P id g c i j ∧ g.isDir j ∧ a ∈ g.links j ∧ P a ∧ target a = k := by
  rw [leads_append]
  exact exists_congr fun j => and_congr_right fun _ => leads_cons

/-- From a node that no link leads to there is one chain to each node. -/
theorem Leads.unique (h : Leads target P id g c i j) (h' : Leads target P id g c' i j)
    (ho : Once target P g) (hi : ∀ p, ¬ Child target P g p i) : c = c' := by
  have hroot : ∀ {c a}, ¬ Leads target P id g (c ++ [a]) i i := by
    intro c a h
    obtain ⟨p, -, hd, ha, hP, he⟩ := leads_concat.mp h
    exact hi p ⟨hd, a, ha, hP, he⟩
  induction c using List.reverseRecOn generalizing c' j with
  | nil =>
    obtain rfl : i = j := h
    rcases List.eq_nil_or_concat c' with rfl | ⟨c', b, rfl⟩
    · rfl
    · rw [List.concat_eq_append] at h'
      exact absurd h' hroot
  | append_singleton c a ih =>
    rcases List.eq_nil_or_concat c' with rfl | ⟨c', b, rfl⟩
    · obtain rfl : i = j := h'
      exact absurd h hroot
    · rw [List.concat_eq_append] at h' ⊢
      obtain ⟨p, hp, hdp, ha, hPa, rfl⟩ := leads_concat.mp h
      obtain ⟨q, hq, hdq, hb, hPb, he⟩ := leads_concat.mp h'
      obtain ⟨rfl, rfl⟩ := ho.link_unique hdp ha hPa hdq hb hPb he.symm
      rw [ih hp hq]

/-! ## The list of the chains -/

variable [DecidablePred P]

open Classical in
/-- The chains from node `i` that have a link, and up to `n` of them. -/
noncomputable def chains (target : ε → ι) (P : ε → Prop) [DecidablePred P] (g : LinkGraph ι κ ε) :
    Nat → ι → List (List ε)
  | 0, _ => []
  | n + 1, i =>
      if g.isDir i then
        ((g.links i).filter fun a => P a).flatMap fun a =>
          [a] :: (chains target P g n (target a)).map fun c => a :: c
      else []

theorem chains_of_not_isDir (h : ¬ g.isDir i) : chains target P g n i = [] := by
  cases n with
  | zero => rfl
  | succ n =>
    unfold chains
    exact if_neg h

theorem cons_mem_chains : a :: c ∈ chains target P g (n + 1) i ↔
    g.isDir i ∧ a ∈ g.links i ∧ P a ∧ (c = [] ∨ c ∈ chains target P g n (target a)) := by
  rw [chains]
  by_cases hd : g.isDir i
  · rw [if_pos hd, List.mem_flatMap]
    constructor
    · rintro ⟨b, hb, hc⟩
      obtain ⟨hb, hP⟩ := List.mem_filter.mp hb
      rw [List.mem_cons, List.mem_map] at hc
      rcases hc with h | ⟨c', hc', h⟩
      · obtain ⟨rfl, rfl⟩ := List.cons.inj h
        exact ⟨hd, hb, of_decide_eq_true hP, Or.inl rfl⟩
      · obtain ⟨rfl, rfl⟩ := List.cons.inj h
        exact ⟨hd, hb, of_decide_eq_true hP, Or.inr hc'⟩
    · rintro ⟨-, ha, hP, hc⟩
      refine ⟨a, List.mem_filter.mpr ⟨ha, decide_eq_true hP⟩, ?_⟩
      rcases hc with rfl | hc
      · exact List.mem_cons_self
      · exact List.mem_cons_of_mem _ (List.mem_map.mpr ⟨c, hc, rfl⟩)
  · rw [if_neg hd]
    exact iff_of_false (List.not_mem_nil) fun h => hd h.1

theorem ne_nil_of_mem_chains (h : c ∈ chains target P g n i) : c ≠ [] := by
  cases n with
  | zero => cases h
  | succ n =>
    rintro rfl
    rw [chains] at h
    by_cases hd : g.isDir i
    · rw [if_pos hd, List.mem_flatMap] at h
      obtain ⟨b, -, hc⟩ := h
      rw [List.mem_cons, List.mem_map] at hc
      rcases hc with hc | ⟨c', -, hc⟩
      · cases hc
      · cases hc
    · rw [if_neg hd] at h
      cases h

/-- To the height of the node these are all of its chains. -/
theorem mem_chains (h : Tall target P g n i) : c ∈ chains target P g (n + 1) i ↔
    c ≠ [] ∧ ∃ j, Leads target P id g c i j := by
  induction n generalizing i c with
  | zero =>
    cases c with
    | nil => exact iff_of_false (fun hc => ne_nil_of_mem_chains hc rfl) fun hc => hc.1 rfl
    | cons a c =>
      refine iff_of_false (fun hc => ?_) ?_
      · obtain ⟨hd, ha, hP, -⟩ := cons_mem_chains.mp hc
        exact h _ ⟨hd, a, ha, hP, rfl⟩
      · rintro ⟨-, j, hc⟩
        obtain ⟨hd, ha, hP, -⟩ := leads_cons.mp hc
        exact h _ ⟨hd, a, ha, hP, rfl⟩
  | succ n ih =>
    cases c with
    | nil => exact iff_of_false (fun hc => ne_nil_of_mem_chains hc rfl) fun hc => hc.1 rfl
    | cons a c =>
      rw [cons_mem_chains]
      constructor
      · rintro ⟨hd, ha, hP, hc⟩
        refine ⟨List.cons_ne_nil a c, ?_⟩
        rcases hc with rfl | hc
        · exact ⟨_, leads_cons.mpr ⟨hd, ha, hP, rfl⟩⟩
        · obtain ⟨-, j, hj⟩ := (ih (h _ ⟨hd, a, ha, hP, rfl⟩)).mp hc
          exact ⟨j, leads_cons.mpr ⟨hd, ha, hP, hj⟩⟩
      · rintro ⟨-, j, hc⟩
        obtain ⟨hd, ha, hP, hj⟩ := leads_cons.mp hc
        refine ⟨hd, ha, hP, or_iff_not_imp_left.mpr fun hne => ?_⟩
        exact (ih (h _ ⟨hd, a, ha, hP, rfl⟩)).mpr ⟨hne, j, hj⟩

/-- Each chain is listed once, if the links are. -/
theorem nodup_chains (h : ∀ p, g.isDir p → ((g.links p).Pairwise fun a b => P a → P b → a ≠ b)) :
    (chains target P g n i).Nodup := by
  induction n generalizing i with
  | zero => exact List.nodup_nil
  | succ n ih =>
    by_cases hd : g.isDir i
    · rw [chains, if_pos hd, List.nodup_flatMap]
      constructor
      · intro a _
        refine List.nodup_cons.mpr ⟨fun hc => ?_, ih.map fun c c' hcc => (List.cons.inj hcc).2⟩
        obtain ⟨c, hc, he⟩ := List.mem_map.mp hc
        exact ne_nil_of_mem_chains hc (List.cons.inj he).2
      · refine List.pairwise_filter.mpr ((h i hd).imp fun hne hPa hPb => ?_)
        have hhead : ∀ {a : ε} {c : List ε},
            c ∈ [a] :: (chains target P g n (target a)).map (a :: ·) →
            c.head? = some a := by
          intro a c hc
          rw [List.mem_cons, List.mem_map] at hc
          rcases hc with rfl | ⟨c', -, rfl⟩
          · rfl
          · rfl
        intro c hc hc'
        apply hne (of_decide_eq_true hPa) (of_decide_eq_true hPb)
        exact Option.some.inj ((hhead hc).symm.trans (hhead hc'))
    · rw [chains_of_not_isDir hd]
      exact List.nodup_nil

end LinkGraph

end LossOs.Lib
