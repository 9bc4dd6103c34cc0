/-
  A copy of a subtree, and then its removal.

  `NothingLost` is what a move has to keep to: when the entry is gone, the entry of the new name
  leads to the same tree, and as long as it is there, nothing below it has changed. A copy under
  another name, followed by the removal of the original, is a move (`moved_of_removed`).
-/
import LossOs.Ext2.Graft
import LossOs.Ext2.Prune

namespace LossOs.Ext2

open LossOs.Lib

/-- The first entry of the name in directory `q` leads to the same tree as entry `e` did, and says
    the same of its type. -/
def Moved (fs fs' : Fs) (q : Nat) (e : Entry) (name : List UInt8) : Prop :=
  ∃ t, (entries fs'.disk q).find? (fun a => a.name == name) = some ⟨name, t, e.fileType⟩ ∧
    SameTree fs fs' e.inode t

/-- Entry `e` of directory `p` is only gone when it has moved to the name, and until then all that
    lies below is as it was. -/
structure NothingLost (fs fs' : Fs) (p : Nat) (e : Entry) (name : List UInt8) : Prop where
  gone : e ∉ entries fs'.disk p → Moved fs fs' p e name
  there : e ∈ entries fs'.disk p → ∀ y, Under fs.disk e.inode y → Intact fs.disk fs'.disk y

theorem nothingLost_withStack {fs fs' : Fs} {p : Nat} {e : Entry} {name : List UInt8} (s : Mem) :
    NothingLost (fs.withStack s) fs' p e name ↔ NothingLost fs fs' p e name := by
  constructor
  · rintro ⟨hgone, hthere⟩
    refine ⟨fun h => ?_, hthere⟩
    obtain ⟨t, hfirst, hsame⟩ := hgone h
    exact ⟨t, hfirst, (sameTree_withStack s).mp hsame⟩
  · rintro ⟨hgone, hthere⟩
    refine ⟨fun h => ?_, hthere⟩
    obtain ⟨t, hfirst, hsame⟩ := hgone h
    exact ⟨t, hfirst, (sameTree_withStack s).mpr hsame⟩

section Removal

variable {fs fs' fs'' : Fs} {p i t : Nat} {a e : Entry} {name : List UInt8} {S : Nat → Prop}
  {rest : List Entry}

/-- What does not lie below a removed inode is kept. -/
theorem Pruned.intact (h : Pruned fs.disk fs'.disk p S rest) (hc : Consistent fs)
    (hp : IsDirectory fs.disk p) (hS : ∀ j, S j → IsInode j ∧ inodeUsed fs.disk j = true) {y : Nat}
    (hy : IsInode y) (hu : inodeUsed fs.disk y = true) (hyp : y ≠ p) (hyS : ¬ S y) :
    Intact fs.disk fs'.disk y := by
  obtain ⟨-, hblocks⟩ := h.reach_eq hc.owned hp hS hy hu hyp hyS
  refine ⟨?_, h.slots y hy hyS, hblocks⟩
  have hused := (h.graph.used y).mpr ⟨⟨hy, hu⟩, hyS⟩
  rw [hu]
  exact hused.2

/-- With its inode an entry is gone. -/
theorem SubtreeRemoved.not_mem (h : SubtreeRemoved fs.disk fs'.disk p e) (ht' : Tree fs')
    (hp' : IsDirectory fs'.disk p) : e ∉ entries fs'.disk p := by
  intro hm
  obtain ⟨_, _, -, -, hpr⟩ := h
  obtain ⟨hi, hu, -⟩ := ht'.sound.noDangling.entry p hp' e hm
  exact ((hpr.graph.used e.inode).mp ⟨hi, hu⟩).2 Relation.ReflTransGen.refl

/-- The directory that an entry was removed from is still there. -/
theorem SubtreeRemoved.isDirectory (h : SubtreeRemoved fs.disk fs'.disk p e) (ht : Tree fs)
    (hp : IsDirectory fs.disk p) (he : e ∈ entries fs.disk p) (hP : Proper e) :
    IsDirectory fs'.disk p := by
  obtain ⟨_, _, -, -, hpr⟩ := h
  exact hpr.isDirectory_iff.mpr ⟨hp, ht.child_ne hp he hP⟩

/-- Entries of other names are still found. -/
theorem SubtreeRemoved.find (h : SubtreeRemoved fs.disk fs'.disk p e) (hne : name ≠ e.name) :
    (entries fs'.disk p).find? (fun a => a.name == name) =
      (entries fs.disk p).find? fun a => a.name == name := by
  obtain ⟨A, B, heq, -, hpr⟩ := h
  have hno : ¬ (e.name == name) = true := fun he => hne (beq_iff_eq.mp he).symm
  rw [hpr.entries_self, heq, List.find?_append, List.find?_append, List.find?_cons,
    eq_false_of_ne_true hno]

/-- Below another entry of the directory nothing changes. -/
theorem SubtreeRemoved.intact (h : SubtreeRemoved fs.disk fs'.disk p e) (ht : Tree fs)
    (hp : IsDirectory fs.disk p) (he : e ∈ proper fs.disk p) (ha : a ∈ proper fs.disk p)
    (hne : a.inode ≠ e.inode) {y : Nat} (hy : Under fs.disk a.inode y) :
    Intact fs.disk fs'.disk y := by
  obtain ⟨A, B, -, -, hpr⟩ := h
  have hchild : ∀ c ∈ proper fs.disk p,
      LinkGraph.Child Entry.inode Proper (graphOf fs.disk) p c.inode := fun c hc =>
    ⟨hp, c, by rw [graphOf_links]; exact (mem_proper.mp hc).1, (mem_proper.mp hc).2, rfl⟩
  obtain ⟨hi, hu⟩ := ht.under_used hp ha hy
  refine hpr.intact ht.consistent hp (fun j hj => ht.under_used hp he hj) hi hu ?_
    (ht.sound.once.apart_below ht.ranked (hchild a ha) (hchild e he) hne hy)
  exact (ht.under_child hp ha hy).2

/-- An entry that was added to a directory has a name of its own: the directory had its `.` and
    `..`. -/
theorem Tree.proper_of_added {A B : List Entry} (ht : Tree fs) (ht' : Tree fs')
    (hp : IsDirectory fs.disk p) (hp' : IsDirectory fs'.disk p)
    (hbefore : entries fs.disk p = A ++ B) (hafter : entries fs'.disk p = A ++ a :: B) :
    Proper a := by
  by_contra hP
  have h2 := ht.dots p hp
  have h2' := ht'.dots p hp'
  rw [hbefore, List.filter_append, List.length_append] at h2
  rw [hafter, List.filter_append, List.filter_cons_of_pos (by simpa using hP), List.length_append,
    List.length_cons] at h2'
  omega

/-- A copy under another name stays when the original is removed. -/
theorem moved_of_removed {A B : List Entry} (ht : Tree fs') (hp : IsDirectory fs'.disk p)
    (he : e ∈ entries fs'.disk p) (hP : Proper e) (hne : name ≠ e.name)
    (hcopy : entries fs'.disk p = A ++ ⟨name, t, e.fileType⟩ :: B) (hA : ∀ a ∈ A, a.name ≠ name)
    (hproper : Proper ⟨name, t, e.fileType⟩) (hother : t ≠ e.inode)
    (hsame : SameTree fs fs' e.inode t) (hrem : SubtreeRemoved fs'.disk fs''.disk p e) :
    Moved fs fs'' p e name := by
  have hm : (⟨name, t, e.fileType⟩ : Entry) ∈ proper fs'.disk p :=
    mem_proper.mpr ⟨by rw [hcopy]; simp, hproper⟩
  refine ⟨t, ?_, SameTree.congr hsame (fun y _ => Intact.refl fs.disk y) fun y hy =>
    hrem.intact ht hp (mem_proper.mpr ⟨he, hP⟩) hm hother hy⟩
  have hnone : A.find? (fun a => a.name == name) = none :=
    List.find?_eq_none.mpr fun a ha h => hA a ha (beq_iff_eq.mp h)
  rw [hrem.find hne, hcopy, List.find?_append, hnone, List.find?_cons, beq_self_eq_true]
  rfl

/-- While nothing is removed, nothing is lost. -/
theorem nothingLost_of_intact (h : e ∈ entries fs'.disk p)
    (hk : ∀ y, Under fs.disk e.inode y → Intact fs.disk fs'.disk y) : NothingLost fs fs' p e name :=
  ⟨fun hno => absurd h hno, fun _ => hk⟩

theorem Quiet.nothingLost (hq : Quiet fs fs') (ht : Tree fs) (hp : IsDirectory fs.disk p)
    (he : e ∈ entries fs.disk p) : NothingLost fs fs' p e name := by
  obtain ⟨hi, hu, -⟩ := ht.sound.noDangling.entry p hp e he
  refine nothingLost_of_intact ?_ fun y hy => ?_
  · rwa [(hq.intact ht.consistent hp.isInode hp.used).entries_eq hp]
  · obtain ⟨hy₁, hy₂⟩ := ht.sound.once.used_below ⟨hi, hu⟩ hy
    exact hq.intact ht.consistent hy₁ hy₂

/-- A new entry of the directory leaves each of the others, and what lies below it. -/
theorem Added.keeps {request : EXT2DriverRequest} (h : Added request fs fs' i) (ht : Tree fs)
    (hp : IsDirectory fs.disk request.parentInode.toNat)
    (he : e ∈ LossOs.Ext2.entries fs.disk request.parentInode.toNat) (hP : Proper e) :
    e ∈ LossOs.Ext2.entries fs'.disk request.parentInode.toNat ∧
      ∀ y, Under fs.disk e.inode y → Intact fs.disk fs'.disk y := by
  obtain ⟨A, B, hbefore, hafter, -⟩ := h.entries
  refine ⟨?_, fun y hy =>
    h.grafted.intact_under ht hp (mem_proper.mpr ⟨he, hP⟩) (ht.child_ne hp he hP) hy⟩
  rw [hbefore] at he
  rw [hafter]
  simp only [List.mem_append, List.mem_cons] at he ⊢
  exact he.imp id Or.inr

end Removal

end LossOs.Ext2
