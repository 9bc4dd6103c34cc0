/-
  Directories as a graph of links.

  A `LinkGraph` says which nodes are allocated, which of them are directories, and which links
  each directory holds, in order. A step leaves everything as it is, links a node that was free
  (`Add`), or takes a link out and frees the node that it names (`Drop`). Each invariant below
  comes with the condition under which a step keeps it.
-/
import Mathlib.Data.List.Nodup

namespace LossOs.Lib

/-- Nodes `ι` of some kind `κ`, and the links `ε` that lead to them. -/
structure LinkGraph (ι κ ε : Type*) where
  used : ι → Prop
  isDir : ι → Prop
  kind : ι → κ
  links : ι → List ε

namespace LinkGraph

variable {ι κ ε ν : Type*} {target : ε → ι} {g g' : LinkGraph ι κ ε} {p q : ι} {x a : ε}
  {own : List ε} {P : ε → Prop} {R : ε → κ → Prop} {key : ε → ν}

/-! ## Steps -/

/-- Allocated nodes and the links of directories are the same. -/
structure Same (g g' : LinkGraph ι κ ε) : Prop where
  used : ∀ j, g'.used j ↔ g.used j
  isDir : ∀ j, g'.isDir j ↔ g.isDir j
  kind : ∀ j, g'.kind j = g.kind j
  links : ∀ j, g.isDir j → g'.links j = g.links j

/-- Link `x` from `p` to a node that was free. If that is a directory it starts with the
    links `own`. -/
structure Add (target : ε → ι) (g g' : LinkGraph ι κ ε) (p : ι) (x : ε) (own : List ε) :
    Prop where
  fresh : ¬ g.used (target x)
  used : ∀ j, g'.used j ↔ g.used j ∨ j = target x
  isDir : ∀ j, j ≠ target x → (g'.isDir j ↔ g.isDir j)
  kind : ∀ j, g.used j → g'.kind j = g.kind j
  parent : ∃ A B, g.links p = A ++ B ∧ g'.links p = A ++ x :: B
  others : ∀ j, g.isDir j → j ≠ p → g'.links j = g.links j
  start : g'.isDir (target x) → g'.links (target x) = own

/-- Link `x` is taken out of `p`, and the node that it names is freed. It may be `p` itself. -/
structure Drop (target : ε → ι) (g g' : LinkGraph ι κ ε) (p : ι) (x : ε) : Prop where
  used : ∀ j, g'.used j ↔ g.used j ∧ j ≠ target x
  isDir : ∀ j, g'.isDir j ↔ g.isDir j ∧ j ≠ target x
  kind : ∀ j, j ≠ target x → g.used j → g'.kind j = g.kind j
  parent : p ≠ target x → ∃ A B, g.links p = A ++ x :: B ∧ g'.links p = A ++ B
  others : ∀ j, g.isDir j → j ≠ p → j ≠ target x → g'.links j = g.links j

/-- Directories are allocated. -/
abbrev DirsUsed (g : LinkGraph ι κ ε) : Prop := ∀ p, g.isDir p → g.used p

theorem Add.ne_of_used (h : Add target g g' p x own) (hq : g.used q) : q ≠ target x := by
  rintro rfl
  exact h.fresh hq

/-- A directory afterwards is the new node, or was one before and has kept its links, apart
    from `x`. -/
theorem Add.dir_cases (h : Add target g g' p x own) (hq : g'.isDir q) :
    (q = target x ∧ g'.links q = own) ∨
    g.isDir q ∧ q ≠ target x ∧ ((q = p ∧ ∃ A B, g.links q = A ++ B ∧ g'.links q = A ++ x :: B) ∨
      q ≠ p ∧ g'.links q = g.links q) := by
  by_cases hx : q = target x
  · exact Or.inl ⟨hx, by rw [hx] at hq ⊢; exact h.start hq⟩
  · have hq' := (h.isDir q hx).mp hq
    refine Or.inr ⟨hq', hx, ?_⟩
    by_cases hp : q = p
    · exact Or.inl ⟨hp, by rw [hp]; exact h.parent⟩
    · exact Or.inr ⟨hp, h.others q hq' hp⟩

/-- A link of a directory afterwards: one of a new directory, the new one, or an old one. -/
theorem Add.link_cases (h : Add target g g' p x own) (hq : g'.isDir q) (ha : a ∈ g'.links q) :
    (q = target x ∧ a ∈ own) ∨ (q = p ∧ a = x) ∨ g.isDir q ∧ a ∈ g.links q := by
  rcases h.dir_cases hq with ⟨hx, he⟩ | ⟨hd, -, ⟨hp, A, B, h1, h2⟩ | ⟨-, he⟩⟩
  · exact Or.inl ⟨hx, he ▸ ha⟩
  · rw [h2, List.mem_append, List.mem_cons] at ha
    rw [h1, List.mem_append]
    tauto
  · exact Or.inr (Or.inr ⟨hd, he ▸ ha⟩)

/-- Old links stay. -/
theorem Add.mem (h : Add target g g' p x own) (hd : g.isDir q) (ha : a ∈ g.links q) :
    a ∈ g'.links q := by
  by_cases hp : q = p
  · subst hp
    obtain ⟨A, B, h1, h2⟩ := h.parent
    rw [h1, List.mem_append] at ha
    rw [h2, List.mem_append, List.mem_cons]
    tauto
  · rw [h.others q hd hp]; exact ha

theorem Add.mem_new (h : Add target g g' p x own) : x ∈ g'.links p := by
  obtain ⟨A, B, -, h2⟩ := h.parent
  rw [h2]; simp

/-- Dropping only takes links away. -/
theorem Drop.sublist (h : Drop target g g' p x) (hq : g'.isDir q) :
    (g'.links q).Sublist (g.links q) := by
  obtain ⟨hd, hx⟩ := (h.isDir q).mp hq
  by_cases hp : q = p
  · subst hp
    obtain ⟨A, B, h1, h2⟩ := h.parent hx
    rw [h1, h2]
    exact (List.sublist_cons_self x B).append_left A
  · rw [h.others q hd hp hx]

/-- The links that do not name the freed node stay. -/
theorem Drop.mem (h : Drop target g g' p x) (hq : g'.isDir q) (ha : a ∈ g.links q)
    (hne : target a ≠ target x) : a ∈ g'.links q := by
  obtain ⟨hd, hx⟩ := (h.isDir q).mp hq
  by_cases hp : q = p
  · subst hp
    obtain ⟨A, B, h1, h2⟩ := h.parent hx
    rw [h1, List.mem_append, List.mem_cons] at ha
    rw [h2, List.mem_append]
    rcases ha with ha | rfl | ha
    · exact Or.inl ha
    · exact absurd rfl hne
    · exact Or.inr ha
  · rw [h.others q hd hp hx]; exact ha

/-! ## Links that name a node once -/

/-- The links with `P` name allocated nodes, and no two of them the same node. -/
structure Once (target : ε → ι) (P : ε → Prop) (g : LinkGraph ι κ ε) : Prop where
  used : ∀ p, g.isDir p → ∀ a ∈ g.links p, P a → g.used (target a)
  here : ∀ p, g.isDir p → (g.links p).Pairwise fun a b => P a → P b → target a ≠ target b
  apart : ∀ p q, g.isDir p → g.isDir q → p ≠ q → ∀ a ∈ g.links p, ∀ b ∈ g.links q,
    P a → P b → target a ≠ target b

theorem Once.same (h : Once target P g) (hs : Same g g') : Once target P g' where
  used := fun p hp a ha hP => by
    have hp' := (hs.isDir p).mp hp
    rw [hs.links p hp'] at ha
    exact (hs.used _).mpr (h.used p hp' a ha hP)
  here := fun p hp => by
    have hp' := (hs.isDir p).mp hp
    rw [hs.links p hp']
    exact h.here p hp'
  apart := fun p q hp hq hpq a ha b hb => by
    have hp' := (hs.isDir p).mp hp
    have hq' := (hs.isDir q).mp hq
    rw [hs.links p hp'] at ha
    rw [hs.links q hq'] at hb
    exact h.apart p q hp' hq' hpq a ha b hb

theorem Once.add (h : Once target P g) (hs : Add target g g' p x own) (hown : ∀ a ∈ own, ¬ P a) :
    Once target P g' := by
  -- the other links with `P` name nodes that were allocated before
  have hold : ∀ q, g'.isDir q → ∀ a ∈ g'.links q, P a →
      (q = p ∧ a = x) ∨ g.isDir q ∧ a ∈ g.links q ∧ target a ≠ target x := by
    intro q hq a ha hP
    rcases hs.link_cases hq ha with ⟨-, ha⟩ | ha | ⟨hd, ha⟩
    · exact absurd hP (hown a ha)
    · exact Or.inl ha
    · exact Or.inr ⟨hd, ha, hs.ne_of_used (h.used q hd a ha hP)⟩
  refine ⟨fun q hq a ha hP => ?_, fun q hq => ?_, fun q r hq hr hqr a ha b hb hPa hPb => ?_⟩
  · rcases hold q hq a ha hP with ⟨-, rfl⟩ | ⟨hd, ha, -⟩
    · exact (hs.used _).mpr (Or.inr rfl)
    · exact (hs.used _).mpr (Or.inl (h.used q hd a ha hP))
  · rcases hs.dir_cases hq with ⟨-, he⟩ | ⟨hd, -, ⟨-, A, B, h1, h2⟩ | ⟨-, he⟩⟩
    · rw [he]
      exact List.pairwise_of_forall_mem_list fun a ha b _ hPa _ => absurd hPa (hown a ha)
    · have hp := h.here q hd
      have hne : ∀ a ∈ A ++ B, P a → target a ≠ target x := fun a ha hP =>
        hs.ne_of_used (h.used q hd a (h1 ▸ ha) hP)
      rw [h1, List.pairwise_append] at hp
      rw [h2, List.pairwise_append, List.pairwise_cons]
      refine ⟨hp.1, ⟨fun b hb _ hPb => (hne b (by simp [hb]) hPb).symm, hp.2.1⟩,
        fun a ha b hb hPa hPb => ?_⟩
      rcases List.mem_cons.mp hb with rfl | hb
      · exact hne a (by simp [ha]) hPa
      · exact hp.2.2 a ha b hb hPa hPb
    · rw [he]; exact h.here q hd
  · rcases hold q hq a ha hPa with ⟨rfl, rfl⟩ | ⟨hd, ha, hax⟩
    · rcases hold r hr b hb hPb with ⟨rfl, -⟩ | ⟨-, -, hbx⟩
      · exact absurd rfl hqr
      · exact hbx.symm
    · rcases hold r hr b hb hPb with ⟨rfl, rfl⟩ | ⟨hd', hb, -⟩
      · exact hax
      · exact h.apart q r hd hd' hqr a ha b hb hPa hPb

/-- Once a link is gone that alone named its node, nothing names that node. -/
theorem Once.rest (h : Once target P g) (hs : Drop target g g' p x) (hp : g.isDir p)
    (hx : x ∈ g.links p) (hP : P x) (hq : g'.isDir q) (ha : a ∈ g'.links q) (hPa : P a) :
    target a ≠ target x := by
  obtain ⟨hd, hne⟩ := (hs.isDir q).mp hq
  by_cases hqp : q = p
  · subst hqp
    obtain ⟨A, B, h1, h2⟩ := hs.parent hne
    have hpair := h.here q hd
    rw [h1, List.pairwise_append, List.pairwise_cons] at hpair
    rw [h2, List.mem_append] at ha
    rcases ha with ha | ha
    · exact hpair.2.2 a ha x (by simp) hPa hP
    · exact (hpair.2.1.1 a ha hP hPa).symm
  · rw [hs.others q hd hqp hne] at ha
    exact h.apart q p hd hp hqp a ha x hx hPa hP

theorem Once.drop (h : Once target P g) (hs : Drop target g g' p x)
    (hrest : ∀ q, g'.isDir q → ∀ a ∈ g'.links q, P a → target a ≠ target x) :
    Once target P g' where
  used := fun q hq a ha hP => (hs.used _).mpr
    ⟨h.used q ((hs.isDir q).mp hq).1 a ((hs.sublist hq).subset ha) hP, hrest q hq a ha hP⟩
  here := fun q hq => (h.here q ((hs.isDir q).mp hq).1).sublist (hs.sublist hq)
  apart := fun q r hq hr hqr a ha b hb => h.apart q r ((hs.isDir q).mp hq).1
    ((hs.isDir r).mp hr).1 hqr a ((hs.sublist hq).subset ha) b ((hs.sublist hr).subset hb)

/-! ## Links with a property -/

/-- Every link has the property `Q`, which may speak of its directory. -/
def All (Q : ι → ε → Prop) (g : LinkGraph ι κ ε) : Prop :=
  ∀ p, g.isDir p → ∀ a ∈ g.links p, Q p a

theorem All.same {Q : ι → ε → Prop} (h : All Q g) (hs : Same g g') : All Q g' :=
  fun p hp a ha => by
    have hp' := (hs.isDir p).mp hp
    rw [hs.links p hp'] at ha
    exact h p hp' a ha

theorem All.add {Q : ι → ε → Prop} (h : All Q g) (hs : Add target g g' p x own) (hx : Q p x)
    (hown : ∀ a ∈ own, Q (target x) a) : All Q g' := fun q hq a ha => by
  rcases hs.link_cases hq ha with ⟨rfl, hao⟩ | ⟨rfl, rfl⟩ | ⟨hd, hao⟩
  · exact hown a hao
  · exact hx
  · exact h q hd a hao

theorem All.drop {Q : ι → ε → Prop} (h : All Q g) (hs : Drop target g g' p x) : All Q g' :=
  fun q hq a ha => h q ((hs.isDir q).mp hq).1 a ((hs.sublist hq).subset ha)

/-! ## Unique keys -/

/-- No directory holds two links with the same key. -/
def Keyed (key : ε → ν) (g : LinkGraph ι κ ε) : Prop :=
  ∀ p, g.isDir p → ((g.links p).map key).Nodup

theorem Keyed.same (h : Keyed key g) (hs : Same g g') : Keyed key g' := fun p hp => by
  have hp' := (hs.isDir p).mp hp
  rw [hs.links p hp']
  exact h p hp'

theorem Keyed.add (h : Keyed key g) (hs : Add target g g' p x own)
    (hx : ∀ a ∈ g.links p, key a ≠ key x) (hown : (own.map key).Nodup) : Keyed key g' := by
  intro q hq
  rcases hs.dir_cases hq with ⟨-, he⟩ | ⟨hd, -, ⟨rfl, A, B, h1, h2⟩ | ⟨-, he⟩⟩
  · rw [he]; exact hown
  · have hnd := h q hd
    have hperm : ((A ++ x :: B).map key).Perm (key x :: (A ++ B).map key) :=
      (List.perm_middle (a := x)).map key
    rw [h2, hperm.nodup_iff, List.nodup_cons]
    rw [h1] at hnd hx
    refine ⟨fun hm => ?_, hnd⟩
    obtain ⟨a, ha, he⟩ := List.mem_map.mp hm
    exact hx a ha he
  · rw [he]; exact h q hd

theorem Keyed.drop (h : Keyed key g) (hs : Drop target g g' p x) : Keyed key g' := fun q hq =>
  (h q ((hs.isDir q).mp hq).1).sublist ((hs.sublist hq).map key)

/-! ## No dangling links -/

/-- The links with `P` name allocated nodes of a kind that suits them. -/
def Agree (target : ε → ι) (P : ε → Prop) (R : ε → κ → Prop) (g : LinkGraph ι κ ε) : Prop :=
  ∀ p, g.isDir p → ∀ a ∈ g.links p, P a → g.used (target a) ∧ R a (g.kind (target a))

theorem Agree.same (h : Agree target P R g) (hs : Same g g') : Agree target P R g' :=
  fun p hp a ha hP => by
    have hp' := (hs.isDir p).mp hp
    rw [hs.links p hp'] at ha
    obtain ⟨h1, h2⟩ := h p hp' a ha hP
    exact ⟨(hs.used _).mpr h1, by rw [hs.kind]; exact h2⟩

theorem Agree.add (h : Agree target P R g) (hs : Add target g g' p x own)
    (hx : P x → R x (g'.kind (target x)))
    (hown : g'.isDir (target x) → ∀ a ∈ own, P a →
      g'.used (target a) ∧ R a (g'.kind (target a))) : Agree target P R g' :=
  fun q hq a ha hP => by
    rcases hs.link_cases hq ha with ⟨rfl, hao⟩ | ⟨-, rfl⟩ | ⟨hd, hao⟩
    · exact hown hq a hao hP
    · exact ⟨(hs.used _).mpr (Or.inr rfl), hx hP⟩
    · obtain ⟨h1, h2⟩ := h q hd a hao hP
      exact ⟨(hs.used _).mpr (Or.inl h1), by rw [hs.kind _ h1]; exact h2⟩

theorem Agree.drop (h : Agree target P R g) (hs : Drop target g g' p x)
    (hrest : ∀ q, g'.isDir q → ∀ a ∈ g'.links q, P a → target a ≠ target x) :
    Agree target P R g' := fun q hq a ha hP => by
  obtain ⟨h1, h2⟩ := h q ((hs.isDir q).mp hq).1 a ((hs.sublist hq).subset ha) hP
  have hne := hrest q hq a ha hP
  exact ⟨(hs.used _).mpr ⟨h1, hne⟩, by rw [hs.kind _ hne h1]; exact h2⟩

/-! ## Links back -/

/-- The links with `loop` lead from a directory to itself, those with `up` to a directory that
    has a proper link to it. The root, which no proper link names, leads up to itself. -/
structure Rooted (target : ε → ι) (loop up : ε → Prop) (root : ι) (g : LinkGraph ι κ ε) :
    Prop where
  rootDir : g.isDir root
  proper : ∀ p, g.isDir p → ∀ a ∈ g.links p, ¬ loop a → ¬ up a → target a ≠ root
  toLoop : ∀ p, g.isDir p → ∀ a ∈ g.links p, loop a → target a = p
  toUp : ∀ p, g.isDir p → ∀ a ∈ g.links p, up a → (p = root ∧ target a = root) ∨
    g.isDir (target a) ∧ ∃ b ∈ g.links (target a), ¬ loop b ∧ ¬ up b ∧ target b = p

variable {loop up : ε → Prop} {root : ι}

theorem Rooted.same (h : Rooted target loop up root g) (hs : Same g g') :
    Rooted target loop up root g' := by
  have hl : ∀ p, g'.isDir p → g.isDir p ∧ g'.links p = g.links p := fun p hp =>
    ⟨(hs.isDir p).mp hp, hs.links p ((hs.isDir p).mp hp)⟩
  refine ⟨(hs.isDir _).mpr h.rootDir, fun p hp a ha => ?_, fun p hp a ha => ?_,
    fun p hp a ha hu => ?_⟩ <;> obtain ⟨hp', he⟩ := hl p hp <;> rw [he] at ha
  · exact h.proper p hp' a ha
  · exact h.toLoop p hp' a ha
  · refine (h.toUp p hp' a ha hu).imp_right fun ⟨hd, hb⟩ => ⟨(hs.isDir _).mpr hd, ?_⟩
    rw [hs.links _ hd]
    exact hb

/-- A new proper link, whose node leads back to where it is linked from. -/
theorem Rooted.add (h : Rooted target loop up root g) (hu : DirsUsed g)
    (hs : Add target g g' p x own) (hp : g.isDir p) (hx : ¬ loop x ∧ ¬ up x)
    (hown : ∀ a ∈ own, (loop a ∧ ¬ up a ∧ target a = target x) ∨
      ¬ loop a ∧ up a ∧ target a = p) : Rooted target loop up root g' := by
  have hroot : g.used root := hu _ h.rootDir
  have hdir : ∀ q, g.isDir q → g'.isDir q := fun q hq =>
    (hs.isDir q (hs.ne_of_used (hu q hq))).mpr hq
  refine ⟨hdir _ h.rootDir, fun q hq a ha h1 h2 => ?_, fun q hq a ha h1 => ?_,
    fun q hq a ha h1 => ?_⟩
  · rcases hs.link_cases hq ha with ⟨-, ha⟩ | ⟨-, rfl⟩ | ⟨hd, ha⟩
    · exact absurd (hown a ha) (by tauto)
    · exact (hs.ne_of_used hroot).symm
    · exact h.proper q hd a ha h1 h2
  · rcases hs.link_cases hq ha with ⟨rfl, hao⟩ | ⟨-, rfl⟩ | ⟨hd, hao⟩
    · rcases hown a hao with ⟨-, -, he⟩ | ⟨h2, -, -⟩
      · exact he
      · exact absurd h1 h2
    · exact absurd h1 hx.1
    · exact h.toLoop q hd a hao h1
  · rcases hs.link_cases hq ha with ⟨rfl, hao⟩ | ⟨-, rfl⟩ | ⟨hd, hao⟩
    · rcases hown a hao with ⟨-, h2, -⟩ | ⟨-, -, he⟩
      · exact absurd h1 h2
      · exact Or.inr ⟨he ▸ hdir p hp, x, he ▸ hs.mem_new, hx.1, hx.2, rfl⟩
    · exact absurd h1 hx.2
    · refine (h.toUp q hd a hao h1).imp_right fun ⟨hd', b, hb, hb'⟩ => ⟨hdir _ hd', b, ?_, hb'⟩
      exact hs.mem hd' hb

/-- When the node of a proper link goes, and has no proper link to a directory, nothing names it
    any more. -/
theorem Rooted.rest (h : Rooted target loop up root g)
    (ho : Once target (fun a => ¬ loop a ∧ ¬ up a) g) (hs : Drop target g g' p x)
    (hp : g.isDir p) (hx : x ∈ g.links p) (hnx : ¬ loop x ∧ ¬ up x)
    (hleaf : g.isDir (target x) → ∀ b ∈ g.links (target x), ¬ loop b → ¬ up b →
      ¬ g.isDir (target b))
    (hq : g'.isDir q) (ha : a ∈ g'.links q) : target a ≠ target x := by
  obtain ⟨hd, hqx⟩ := (hs.isDir q).mp hq
  have ha' := (hs.sublist hq).subset ha
  by_cases hloop : loop a
  · rw [h.toLoop q hd a ha' hloop]; exact hqx
  by_cases hup : up a
  · rcases h.toUp q hd a ha' hup with ⟨-, he⟩ | ⟨hd', b, hb, h1, h2, hbq⟩
    · rw [he]; exact (h.proper p hp x hx hnx.1 hnx.2).symm
    · intro he
      rw [he] at hd' hb
      exact hleaf hd' b hb h1 h2 (hbq ▸ hd)
  · exact ho.rest hs hp hx hnx hq ha ⟨hloop, hup⟩

theorem Rooted.drop (h : Rooted target loop up root g) (hs : Drop target g g' p x)
    (hp : g.isDir p) (hx : x ∈ g.links p) (hnx : ¬ loop x ∧ ¬ up x)
    (hrest : ∀ q, g'.isDir q → ∀ a ∈ g'.links q, target a ≠ target x) :
    Rooted target loop up root g' := by
  refine ⟨(hs.isDir _).mpr ⟨h.rootDir, (h.proper p hp x hx hnx.1 hnx.2).symm⟩,
    fun q hq a ha => ?_, fun q hq a ha => ?_, fun q hq a ha hu => ?_⟩ <;>
    obtain ⟨hd, hqx⟩ := (hs.isDir q).mp hq <;> have ha' := (hs.sublist hq).subset ha
  · exact h.proper q hd a ha'
  · exact h.toLoop q hd a ha'
  · refine (h.toUp q hd a ha' hu).imp_right fun ⟨hd', b, hb, h1, h2, he⟩ => ?_
    have hd'' := (hs.isDir _).mpr ⟨hd', hrest q hq a ha⟩
    exact ⟨hd'', b, hs.mem hd'' hb (he ▸ hqx), h1, h2, he⟩

end LinkGraph

end LossOs.Lib
