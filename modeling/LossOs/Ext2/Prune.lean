/-
  Taking subtrees out.

  `Pruned` says what is left when the inodes of a set are given back with their blocks, and one
  directory loses entries, nothing else. A `delete` takes one inode out (`Tree.delete_first`).
  Sets that are taken out one after the other add up (`Pruned.trans`), and a directory that has been
  cleared can go itself (`Pruned.drop`).
-/
import LossOs.Ext2.Accounting
import LossOs.Ext2.Tree

namespace LossOs.Ext2

open LossOs.Lib

/-- The second inode lies below the first. -/
abbrev Under (d : Disk) : Nat → Nat → Prop := LinkGraph.Below Entry.inode Proper (graphOf d)

/-- From disk `d` to `d'` the inodes of `S` and their blocks were given back. Of the rest only
    directory `p` has changed, which keeps the entries `rest`. -/
structure Pruned (d d' : Disk) (p : Nat) (S : Nat → Prop) (rest : List Entry) : Prop where
  graph : LinkGraph.Prune (graphOf d) (graphOf d') p S rest
  slots : ∀ j, IsInode j → ¬ S j → slot d' j = slot d j
  blocks : ∀ b, IsData b →
    (blockUsed d' b = true ↔ blockUsed d b = true ∧ ∀ j, S j → b ∉ reach d j)
  kept : ∀ b, IsData b → b ∉ dirBlocks (slot d p) → (∀ j, S j → b ∉ reach d j) → d' b = d b

section Pruned

variable {d d' d'' : Disk} {p t : Nat} {S S' : Nat → Prop} {rest rest' : List Entry}

theorem Pruned.refl (d : Disk) (p : Nat) : Pruned d d p (fun _ => False) (entries d p) where
  graph := by
    have h := LinkGraph.Prune.refl (graphOf d) p
    rwa [graphOf_links] at h
  slots := fun _ _ _ => rfl
  blocks := fun b _ => ⟨fun h => ⟨h, fun _ hj => hj.elim⟩, fun h => h.1⟩
  kept := fun _ _ _ _ => rfl

theorem Pruned.congr (h : Pruned d d' p S rest) (hS : ∀ j, S j ↔ S' j) : Pruned d d' p S' rest := by
  obtain rfl : S = S' := funext fun j => propext (hS j)
  exact h

theorem Pruned.entries_self (h : Pruned d d' p S rest) : entries d' p = rest := by
  have := h.graph.links
  rwa [graphOf_links] at this

theorem Pruned.isDirectory_iff (h : Pruned d d' p S rest) {j : Nat} :
    IsDirectory d' j ↔ IsDirectory d j ∧ ¬ S j := h.graph.isDir j

theorem Pruned.entries_other (h : Pruned d d' p S rest) {j : Nat} (hj : IsDirectory d j)
    (hne : j ≠ p) (hS : ¬ S j) : entries d' j = entries d j := by
  have := h.graph.others j hj hne hS
  rwa [graphOf_links, graphOf_links] at this

/-- The blocks of an inode that is left. -/
theorem Pruned.reach_eq (h : Pruned d d' p S rest) (ho : Ownership d) (hp : IsDirectory d p)
    (hS : ∀ j, S j → IsInode j ∧ inodeUsed d j = true) {j : Nat} (hj : IsInode j)
    (hu : inodeUsed d j = true) (hne : j ≠ p) (hjS : ¬ S j) :
    reach d' j = reach d j ∧ ∀ b ∈ reach d j, d' b = d b := by
  have hkept : ∀ b ∈ reach d j, d' b = d b := by
    intro b hb
    refine h.kept b (ho.data j hj hu b hb).1 (fun hbp => ?_) fun i hi hbi => ?_
    · rw [← reach_of_dir hp.dir] at hbp
      exact ho.disjoint j p hj hp.isInode hu hp.used hne b hb hbp
    · obtain ⟨h1, h2⟩ := hS i hi
      exact ho.disjoint j i hj h1 hu h2 (fun he => hjS (he ▸ hi)) b hb hbi
  exact ⟨reach_congr (h.slots j hj hjS) hkept, hkept⟩

/-- What is taken out adds up. -/
theorem Pruned.trans (h : Pruned d d' p S rest) (h' : Pruned d' d'' p S' rest') (ho : Ownership d)
    (hp : IsDirectory d p) (hS : ∀ j, S j → IsInode j ∧ inodeUsed d j = true) (hpS : ¬ S p)
    (hS' : ∀ j, S' j → IsInode j ∧ inodeUsed d' j = true ∧ j ≠ p) :
    Pruned d d'' p (fun j => S j ∨ S' j) rest' := by
  have hreach : ∀ j, S' j → reach d' j = reach d j := by
    intro j hj
    obtain ⟨h1, h2, hne⟩ := hS' j hj
    obtain ⟨⟨-, hu⟩, hjS⟩ := (h.graph.used j).mp ⟨h1, h2⟩
    exact (h.reach_eq ho hp hS h1 hu hne hjS).1
  refine ⟨h.graph.trans h'.graph, fun j hj hjS => ?_, fun b hb => ?_, fun b hb hbp hbS => ?_⟩
  · rw [not_or] at hjS
    rw [h'.slots j hj hjS.2, h.slots j hj hjS.1]
  · rw [h'.blocks b hb, h.blocks b hb, and_assoc]
    refine and_congr_right fun _ => ⟨fun ⟨h1, h2⟩ j hj => ?_,
      fun h1 => ⟨fun j hj => h1 j (Or.inl hj),
      fun j hj => ?_⟩⟩
    · rcases hj with hj | hj
      · exact h1 j hj
      · rw [← hreach j hj]
        exact h2 j hj
    · rw [hreach j hj]
      exact h1 j (Or.inr hj)
  · rw [h'.kept b hb, h.kept b hb hbp fun j hj => hbS j (Or.inl hj)]
    · rw [h.slots p hp.isInode hpS]
      exact hbp
    · intro j hj
      rw [hreach j hj]
      exact hbS j (Or.inr hj)

/-- A directory `t` that has been cleared is taken out of directory `p`. -/
theorem Pruned.drop (h : Pruned d d' t S rest) (h' : Pruned d' d'' p (fun j => j = t) rest')
    (hp : IsDirectory d p) (ht : IsDirectory d t) (hpt : p ≠ t) (hpS : ¬ S p) (htS : ¬ S t) :
    Pruned d d'' p (fun j => S j ∨ j = t) rest' := by
  have hreach : reach d' t = reach d t := by
    rw [reach_of_dir ht.dir, reach_of_dir (h.isDirectory_iff.mpr ⟨ht, htS⟩).dir,
      h.slots t ht.isInode htS]
  refine ⟨⟨fun j => ?_, fun j => ?_, h'.graph.links, fun j hj hne hjS => ?_⟩, fun j hj hjS => ?_,
    fun b hb => ?_, fun b hb hbp hbS => ?_⟩
  · rw [h'.graph.used, h.graph.used]
    tauto
  · rw [h'.graph.isDir, h.graph.isDir]
    tauto
  · rw [not_or] at hjS
    rw [h'.graph.others j ((h.graph.isDir j).mpr ⟨hj, hjS.1⟩) hne hjS.2,
      h.graph.others j hj hjS.2 hjS.1]
  · rw [not_or] at hjS
    rw [h'.slots j hj hjS.2, h.slots j hj hjS.1]
  · rw [h'.blocks b hb, h.blocks b hb, and_assoc]
    refine and_congr_right fun _ => ⟨fun ⟨h1, h2⟩ j hj => ?_,
      fun h1 => ⟨fun j hj => h1 j (Or.inl hj),
      fun j hj => ?_⟩⟩
    · rcases hj with hj | rfl
      · exact h1 j hj
      · rw [← hreach]
        exact h2 _ rfl
    · rw [hj, hreach]
      exact h1 t (Or.inr rfl)
  · have hbt : b ∉ reach d t := hbS t (Or.inr rfl)
    rw [h'.kept b hb, h.kept b hb]
    · rwa [← reach_of_dir ht.dir]
    · exact fun j hj => hbS j (Or.inl hj)
    · rw [h.slots p hp.isInode hpS]
      exact hbp
    · rintro j rfl
      rw [hreach]
      exact hbt

end Pruned

/-! ## One `delete` -/

section Delete

variable {request : EXT2DriverRequest} {fs : Fs} {p : Nat} {e : Entry}

/-- An entry with a name of its own leads away from its directory, and not back. -/
theorem Tree.child_ne (ht : Tree fs) (hp : IsDirectory fs.disk p) (he : e ∈ entries fs.disk p)
    (hP : Proper e) : ¬ Under fs.disk e.inode p :=
  ht.ranked.not_below ⟨hp, e, by rwa [graphOf_links], hP, rfl⟩

/-- A directory that has been cleared is deleted with care. -/
theorem careful_dir (h896 : request.parentInode.toNat ≤ 896)
    (hfirst : firstNamed request fs.disk request.parentInode.toNat = some e) (hP : Proper e)
    (hblocks : iBlocks (slot fs.disk e.inode) ≤ 12) (hclear : proper fs.disk e.inode = []) :
    Careful (.delete request) fs := by
  refine ⟨⟨h896, fun _ hc => (by cases hc), fun r a hc _ ha _ _ => ?_⟩, fun _ hc => (by cases hc),
    fun r a hc _ ha _ _ => ?_⟩
  · obtain rfl := Call.delete.inj hc
    obtain rfl := Option.some.inj (hfirst.symm.trans ha)
    exact hblocks
  · obtain rfl := Call.delete.inj hc
    obtain rfl := Option.some.inj (hfirst.symm.trans ha)
    refine ⟨hP, fun x hx hPx => ?_⟩
    have hm := mem_proper.mpr ⟨hx, hPx⟩
    rw [hclear] at hm
    cases hm

/-- A careful `delete` of a file, or of a directory that passes for empty, takes its entry out. -/
theorem Tree.delete_first (ht : Tree fs) (hok : Careful (.delete request) fs)
    (hp : IsDirectory fs.disk request.parentInode.toNat)
    (hfirst : firstNamed request fs.disk request.parentInode.toNat = some e)
    (htwo : request.isDirectory = true → e.fileType = 2 ∧ isDirectoryEmpty e.inode fs = true)
    (hone : request.isDirectory = false → e.fileType = 1) :
    (delete request fs).1 = 0 ∧ Tree (delete request fs).2 ∧
      ∃ A B, entries fs.disk request.parentInode.toNat = A ++ e :: B ∧
        (∀ a ∈ A, a.name ≠ requestName request) ∧
        Pruned fs.disk (delete request fs).2.disk request.parentInode.toNat
          (fun j => j = e.inode) (A ++ B) := by
  have hc := ht.consistent
  have htree : Tree (delete request fs).2 := ht.run hok
  have h0 := delete_succeeds hc hp hfirst htwo hone
  refine ⟨h0, htree, ?_⟩
  obtain ⟨hm, -⟩ := firstNamed_mem hfirst
  obtain ⟨hi, hu, -⟩ := ht.sound.noDangling.entry _ hp e hm
  -- the blocks that are given back are those of the inode
  have hblocks : fileBlocks fs.disk (slot fs.disk e.inode) = reach fs.disk e.inode := by
    cases hd : isDir fs.disk e.inode with
    | false => exact ht.fileBlocks_eq hi hu hd
    | true =>
      have h2 := (ht.sound.noDangling.isDir_iff hp hm).mp ⟨hi, hu, hd⟩
      have hreq : request.isDirectory = true := by
        by_contra hreq
        rw [hone (Bool.not_eq_true _ ▸ hreq)] at h2
        cases h2
      rw [reach_of_dir hd, fileBlocks_of_le (hok.delete _ e rfl hreq hfirst h2 (htwo hreq).2)]
      rfl
  rcases ht.sound.delete_careful hok with ⟨hne, -⟩ | ⟨-, -, e', hfirst', hP, -, -, -, hdel⟩
  · exact absurd h0 hne
  obtain rfl : e = e' := Option.some.inj (hfirst.symm.trans hfirst')
  rcases delete_freed hc.ready.layout hp.isInode fun _ => hc.parentOk hp.isInode hp.dir with
    ⟨hne, -⟩ | ⟨-, -, b, e', hfirst', -, -, hfreed⟩
  · exact absurd h0 hne
  obtain rfl : e = e' := Option.some.inj (hfirst.symm.trans hfirst')
  have hpe : request.parentInode.toNat ≠ e.inode := fun he =>
    ht.child_ne hp hm hP (by rw [← he])
  have hreach := hc.owned.data e.inode hi hu
  rw [← hblocks] at hreach
  have hf := hfreed hi fun c hcb => (hreach c hcb).1
  obtain ⟨A, B, h1, h2, -, hA⟩ := hdel.parentEntries hp.isInode hpe
  obtain ⟨A', B', h1', hprune⟩ := (hdel.drop hc hp).prune hpe
  refine ⟨A, B, h1, hA, ⟨hprune.used, hprune.isDir, by rw [graphOf_links, h2], hprune.others⟩,
    fun j hj hne => hdel.others j hj hne, fun c hcd => ?_, fun c hcd hcp _ => hdel.kept c hcd hcp⟩
  rw [hf.blocks c hcd.1, hblocks, Bool.and_eq_true, Bool.not_eq_true', decide_eq_false_iff_not]
  exact and_congr_right fun _ => ⟨fun h j hj => hj ▸ h, fun h => h _ rfl⟩

end Delete

/-! ## Subtrees -/

/-- Entry `e` of directory `p` was taken out with all that lies below. -/
def SubtreeRemoved (d d' : Disk) (p : Nat) (e : Entry) : Prop :=
  ∃ A B, entries d p = A ++ e :: B ∧ (∀ a ∈ A, a.name ≠ e.name) ∧
    Pruned d d' p (Under d e.inode) (A ++ B)

/-- All that lies below directory `t` was taken out. -/
structure Cleared (d d' : Disk) (t : Nat) : Prop where
  pruned : Pruned d d' t (fun j => ∃ a ∈ proper d t, Under d a.inode j) (entries d' t)
  clear : proper d' t = []

section Subtrees

variable {fs fs' fs'' : Fs} {p t j : Nat} {a b e : Entry} {L : List Entry}

/-- An entry is one of a file or of a directory. -/
theorem Tree.fileType (ht : Tree fs) (hp : IsDirectory fs.disk p) (he : e ∈ entries fs.disk p) :
    e.fileType = 1 ∨ e.fileType = 2 := by
  obtain ⟨-, -, hk⟩ := ht.sound.noDangling.entry p hp e he
  rcases hk with ⟨h, -⟩ | ⟨h, -⟩
  · exact Or.inl h
  · exact Or.inr h

/-- What lies below an entry is in use. -/
theorem Tree.under_used (ht : Tree fs) (hp : IsDirectory fs.disk p) (he : e ∈ proper fs.disk p)
    (hj : Under fs.disk e.inode j) : IsInode j ∧ inodeUsed fs.disk j = true := by
  obtain ⟨hm, hP⟩ := mem_proper.mp he
  exact ht.sound.once.used_below (ht.sound.once.used p hp e (by rwa [graphOf_links]) hP) hj

/-- What lies below an entry of a directory lies below this, and is not it. -/
theorem Tree.under_child (ht : Tree fs) (hp : IsDirectory fs.disk p) (he : e ∈ proper fs.disk p)
    (hj : Under fs.disk e.inode j) : Under fs.disk p j ∧ j ≠ p := by
  obtain ⟨hm, hP⟩ := mem_proper.mp he
  refine ⟨Relation.ReflTransGen.head ⟨hp, e, by rwa [graphOf_links], hP, rfl⟩ hj, ?_⟩
  rintro rfl
  exact ht.child_ne hp hm hP hj

/-- What lies below two entries of a directory is disjoint, and the directory lies below none. -/
theorem Tree.under_apart (ht : Tree fs) (hp : IsDirectory fs.disk t)
    (hL : proper fs.disk t = a :: L) (hb : b ∈ L) (hj : Under fs.disk b.inode j) :
    ¬ Under fs.disk a.inode j ∧ j ≠ t := by
  have hmem : ∀ c ∈ a :: L, c ∈ entries fs.disk t ∧ Proper c := fun c hc =>
    mem_proper.mp (hL ▸ hc)
  obtain ⟨ha, hPa⟩ := hmem a List.mem_cons_self
  obtain ⟨hb', hPb⟩ := hmem b (List.mem_cons_of_mem _ hb)
  have hne : a.inode ≠ b.inode := by
    have hsub : (proper fs.disk t).Sublist ((graphOf fs.disk).links t) := by
      rw [graphOf_links]
      exact List.filter_sublist
    have hpair := (ht.sound.once.here t hp).sublist hsub
    rw [hL, List.pairwise_cons] at hpair
    exact hpair.1 b hb hPa hPb
  have hchild : ∀ c, c ∈ entries fs.disk t → Proper c →
      LinkGraph.Child Entry.inode Proper (graphOf fs.disk) t c.inode := fun c hc hP =>
    ⟨hp, c, by rwa [graphOf_links], hP, rfl⟩
  refine ⟨ht.sound.once.apart_below ht.ranked (hchild b hb' hPb) (hchild a ha hPa) hne.symm hj, ?_⟩
  rintro rfl
  exact ht.child_ne hp hb' hPb hj

/-- The entries behind the one that was taken out are left. -/
theorem SubtreeRemoved.rest {d d' : Disk} (h : SubtreeRemoved d d' t a)
    (hL : proper d t = a :: L) : proper d' t = L := by
  obtain ⟨A, B, h1, hA, hpr⟩ := h
  have hPa : Proper a := (mem_proper.mp (hL ▸ List.mem_cons_self)).2
  unfold proper at hL ⊢
  rw [h1, List.filter_append, List.filter_cons_of_pos (by simpa using hPa)] at hL
  rw [hpr.entries_self, List.filter_append]
  cases hf : A.filter fun e => decide (Proper e) with
  | nil =>
    rw [hf] at hL
    exact (List.cons.inj hL).2
  | cons x xs =>
    rw [hf] at hL
    obtain rfl := (List.cons.inj hL).1
    have hx : x ∈ A := (List.mem_filter.mp (hf ▸ List.mem_cons_self)).1
    exact absurd rfl (hA x hx)

/-- What lies below the other entries stays as it is. -/
theorem SubtreeRemoved.frame (h : SubtreeRemoved fs.disk fs'.disk t a) (ht : Tree fs)
    (hp : IsDirectory fs.disk t) (hL : proper fs.disk t = a :: L) (hb : b ∈ L) :
    ∀ y, Under fs.disk b.inode y → (IsDirectory fs'.disk y ↔ IsDirectory fs.disk y) ∧
      (IsDirectory fs.disk y → entries fs'.disk y = entries fs.disk y) ∧
      slot fs'.disk y = slot fs.disk y := by
  obtain ⟨A, B, -, -, hpr⟩ := h
  intro y hy
  obtain ⟨hnot, hne⟩ := ht.under_apart hp hL hb hy
  have hi := (ht.under_used hp (hL ▸ List.mem_cons_of_mem _ hb) hy).1
  exact ⟨hpr.isDirectory_iff.trans (and_iff_left hnot),
    fun hd => hpr.entries_other hd hne hnot, hpr.slots y hi hnot⟩

/-- The frame as the graph sees it. -/
theorem SubtreeRemoved.links (h : SubtreeRemoved fs.disk fs'.disk t a) (ht : Tree fs)
    (hp : IsDirectory fs.disk t) (hL : proper fs.disk t = a :: L) (hb : b ∈ L) :
    ∀ y, Under fs.disk b.inode y →
      ((graphOf fs'.disk).isDir y ↔ (graphOf fs.disk).isDir y) ∧
      ((graphOf fs.disk).isDir y → (graphOf fs'.disk).links y = (graphOf fs.disk).links y) := by
  intro y hy
  obtain ⟨h1, h2, -⟩ := h.frame ht hp hL hb y hy
  rw [graphOf_links, graphOf_links]
  exact ⟨h1, h2⟩

theorem Cleared.refl {d : Disk} (h : proper d t = []) : Cleared d d t := by
  refine ⟨(Pruned.refl d t).congr fun j => ?_, h⟩
  rw [h]
  simp

/-- One entry is taken out, and then the others. -/
theorem Cleared.cons (h : SubtreeRemoved fs.disk fs'.disk t a) (h' : Cleared fs'.disk fs''.disk t)
    (ht : Tree fs) (ht' : Tree fs') (hp : IsDirectory fs.disk t) (hL : proper fs.disk t = a :: L) :
    Cleared fs.disk fs''.disk t := by
  have hrest := h.rest hL
  have hlinks := fun b (hb : b ∈ L) => h.links ht hp hL hb
  have hmem : ∀ c ∈ a :: L, c ∈ proper fs.disk t := fun c hc => hL ▸ hc
  obtain ⟨A, B, -, -, hpr⟩ := h
  have hself : ¬ Under fs.disk a.inode t := by
    obtain ⟨ha, hPa⟩ := mem_proper.mp (hmem a List.mem_cons_self)
    exact ht.child_ne hp ha hPa
  have hp' := hpr.isDirectory_iff.mpr ⟨hp, hself⟩
  have hunder : ∀ b ∈ L, ∀ j, Under fs'.disk b.inode j ↔ Under fs.disk b.inode j := fun b hb j =>
    LinkGraph.below_congr (hlinks b hb)
  refine ⟨(hpr.trans h'.pruned ht.consistent.owned hp
    (fun j hj => ht.under_used hp (hmem a List.mem_cons_self) hj) hself ?_).congr fun j => ?_,
      h'.clear⟩
  · rintro j ⟨b, hb, hj⟩
    obtain ⟨h1, h2⟩ := ht'.under_used hp' hb hj
    refine ⟨h1, h2, ?_⟩
    rintro rfl
    obtain ⟨hb', hPb⟩ := mem_proper.mp hb
    exact ht'.child_ne hp' hb' hPb hj
  · rw [hrest, hL]
    simp only [List.mem_cons, exists_eq_or_imp]
    refine or_congr Iff.rfl (exists_congr fun b => and_congr_right fun hb => hunder b hb j)

/-- A directory that has been cleared goes itself. -/
theorem Cleared.removed {A B : List Entry} (h : Cleared fs.disk fs'.disk e.inode)
    (h' : Pruned fs'.disk fs''.disk p (fun j => j = e.inode) (A ++ B)) (ht : Tree fs)
    (hp : IsDirectory fs.disk p) (he : e ∈ proper fs.disk p) (hd : IsDirectory fs.disk e.inode)
    (heq : entries fs'.disk p = A ++ e :: B) (hA : ∀ a ∈ A, a.name ≠ e.name) :
    SubtreeRemoved fs.disk fs''.disk p e := by
  obtain ⟨hm, hP⟩ := mem_proper.mp he
  have hchild : ∀ a ∈ proper fs.disk e.inode, ∀ j, Under fs.disk a.inode j →
      Under fs.disk e.inode j ∧ j ≠ e.inode := fun a ha j hj => ht.under_child hd ha hj
  have hself := ht.child_ne hp hm hP
  have hpe : p ≠ e.inode := fun hpe => hself (by rw [← hpe])
  have hpS : ¬ ∃ a ∈ proper fs.disk e.inode, Under fs.disk a.inode p := by
    rintro ⟨a, ha, hj⟩
    exact hself (hchild a ha p hj).1
  have htS : ¬ ∃ a ∈ proper fs.disk e.inode, Under fs.disk a.inode e.inode := by
    rintro ⟨a, ha, hj⟩
    exact (hchild a ha _ hj).2 rfl
  rw [h.pruned.entries_other hp hpe hpS] at heq
  refine ⟨A, B, heq, hA, (h.pruned.drop h' hp hd hpe hpS htS).congr fun j => ?_⟩
  rw [show Under fs.disk e.inode j ↔ _ from LinkGraph.below_iff, or_comm]
  apply or_congr eq_comm
  rw [graphOf_links, and_iff_right (show (graphOf fs.disk).isDir e.inode from hd)]
  exact exists_congr fun a => by rw [mem_proper, and_assoc]

end Subtrees

/-! ## The emptiness test of a cleared directory -/

/-- A cleared directory has two records, so the test looks behind the block. -/
theorem Tree.isDirectoryEmpty_iff {fs : Fs} {p : Nat} (ht : Tree fs) (hp : IsDirectory fs.disk p)
    (hclear : proper fs.disk p = []) :
    isDirectoryEmpty p fs = true ↔ entryInode fs.stack 512 = 0 := by
  have hcount : firstCount fs.disk p = 2 := by
    obtain ⟨-, -, -, post, r, ys, hbs, hrs, hr0, hr⟩ := ht.first_block hp
    obtain ⟨b, post', r', ys', hbs', hrs', -, hlive⟩ := ht.shaped.dot p hp
    obtain ⟨up, -, heq⟩ := ht.entries_eq hp
    obtain ⟨rest, hfirst, -⟩ := ht.entries_first hp
    obtain ⟨rfl, -⟩ := List.cons.inj (hbs.symm.trans hbs')
    obtain ⟨-, rfl⟩ := List.cons.inj (hrs.symm.trans hrs')
    have hys : live (r :: ys) = (r :: ys).map Rec.entry := by
      unfold live
      rw [List.filter_eq_self.mpr fun y hy => by simpa using hlive y hy]
    rw [hrs, live_cons_of_ne (by have := hp.isInode.1; show p ≠ 0; omega), hys, heq,
      hclear] at hfirst
    have hlen := congrArg List.length hfirst
    unfold firstCount
    rw [show blockRecords _ = firstRecords fs.disk p from rfl, hrs]
    simp only [List.length_cons, List.length_append, List.length_map, List.length_nil] at hlen ⊢
    omega
  rw [ht.shaped.isDirectoryEmpty_eq hp, hcount, and_iff_right le_rfl]
  rfl

end LossOs.Ext2
