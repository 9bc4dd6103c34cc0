/-
  What calls leave alone.

  A call changes the directory of its request and the inode that it makes or frees. So a directory
  and the files in it are `Spared` by every careful call that neither adds to the directory nor
  takes out of it, and does not free it (`Tree.spared`). What all links have in common, a call
  keeps when the links that it makes have it too (`Tree.all_write`, `Tree.all_delete`).
-/
import LossOs.Ext2.Graft

namespace LossOs.Ext2

open LossOs.Lib

/-- Directory `b` and the files in it hold what they held. -/
structure Spared (d d' : Disk) (b : Nat) : Prop where
  node : Intact d d' b
  files : ∀ e ∈ entries d b, e.fileType = 1 → Intact d d' e.inode

/-- Entry `e` is what the `delete` takes out. -/
structure Deletes (request : EXT2DriverRequest) (fs : Fs) (e : Entry) : Prop where
  parent : IsDirectory fs.disk request.parentInode.toNat
  first : firstNamed request fs.disk request.parentInode.toNat = some e
  empty : request.isDirectory = true → e.fileType = 2 ∧ isDirectoryEmpty e.inode fs = true
  file : request.isDirectory = false → e.fileType = 1

/-- The call neither adds an entry to directory `b` nor takes one out, and does not free it. -/
def Avoids (b : Nat) : Call → Fs → Prop
  | .write request, fs => request.parentInode.toNat = b → ¬ Creates request fs.disk
  | .delete request, fs => ∀ e, Deletes request fs e →
      request.parentInode.toNat ≠ b ∧ e.inode ≠ b

section Spared

variable {d d' d'' : Disk} {fs fs' : Fs} {request : EXT2DriverRequest} {b j p : Nat} {e : Entry}
  {Q : Nat → Entry → Prop}

theorem Spared.refl (d : Disk) (b : Nat) : Spared d d b :=
  ⟨Intact.refl _ _, fun _ _ _ => Intact.refl _ _⟩

theorem Spared.trans (h : Spared d d' b) (h' : Spared d' d'' b) (hb : IsDirectory d b) :
    Spared d d'' b := by
  refine ⟨h.node.trans h'.node, fun e he h1 => (h.files e he h1).trans (h'.files e ?_ h1)⟩
  rw [h.node.entries_eq hb]
  exact he

theorem Spared.isDirectory (h : Spared d d' b) (hb : IsDirectory d b) : IsDirectory d' b :=
  h.node.isDirectory_iff.mpr hb

/-- What is left when one inode is freed. -/
theorem Deleted.intact (h : Deleted request fs fs' p e) (hc : Consistent fs)
    (hp : IsDirectory fs.disk p) (hj : IsInode j) (hu : inodeUsed fs.disk j = true) (hjp : j ≠ p)
    (hje : j ≠ e.inode) : Intact fs.disk fs'.disk j := by
  refine ⟨?_, h.others j hj hje, h.reach_kept hc hp hj hu hjp⟩
  rw [h.inodes j hj, decide_eq_false hje, Bool.not_false, Bool.and_true]

/-- A file that is named by an entry. -/
theorem Tree.file_used (ht : Tree fs) (hp : IsDirectory fs.disk p) (he : e ∈ entries fs.disk p)
    (h1 : e.fileType = 1) :
    IsInode e.inode ∧ inodeUsed fs.disk e.inode = true ∧ ¬ IsDirectory fs.disk e.inode := by
  obtain ⟨hi, hu, -⟩ := ht.sound.noDangling.entry p hp e he
  refine ⟨hi, hu, fun hd => ?_⟩
  have := (ht.sound.noDangling.isDir_iff hp he).mp hd
  omega

/-- A careful `write` that adds no entry to the directory. -/
theorem Tree.write_spared (ht : Tree fs) (hb : IsDirectory fs.disk b)
    (hok : Careful (.write request) fs) (hno : Avoids b (.write request) fs) :
    Spared fs.disk (write request fs).2.disk b := by
  have hc := ht.consistent
  have h896 : request.parentInode.toNat ≤ 896 := hok.parent
  rcases write_call hc h896 (hok.write _ rfl) with ⟨-, hq⟩ | ⟨-, hp, hcr, i, ni, L, hnew⟩
  · refine ⟨hq.intact hc hb.isInode hb.used, fun e he h1 => ?_⟩
    obtain ⟨hi, hu, -⟩ := ht.file_used hb he h1
    exact hq.intact hc hi hu
  · have hg := hnew.grafted hc hp
    refine ⟨hg.kept b hb.isInode hb.used fun h => hno h.symm hcr, fun e he h1 => ?_⟩
    obtain ⟨hi, hu, hd⟩ := ht.file_used hb he h1
    exact hg.kept e.inode hi hu fun h => hd (h ▸ hp)

/-- A careful `delete` of another entry than one of the directory. -/
theorem Tree.delete_spared (ht : Tree fs) (hb : IsDirectory fs.disk b)
    (hok : Careful (.delete request) fs) (hno : Avoids b (.delete request) fs) :
    Spared fs.disk (delete request fs).2.disk b := by
  have hc := ht.consistent
  rcases ht.sound.delete_careful hok with ⟨-, hsame⟩ | ⟨-, hp, e, hfirst, hP, htwo, hone, -, hdel⟩
  · rw [hsame]
    exact Spared.refl fs.disk b
  obtain ⟨hpb, heb⟩ := hno e ⟨hp, hfirst, htwo, hone⟩
  have hm := (firstNamed_mem hfirst).1
  refine ⟨hdel.intact hc hp hb.isInode hb.used hpb.symm heb.symm, fun a ha h1 => ?_⟩
  obtain ⟨hi, hu, hd⟩ := ht.file_used hb ha h1
  -- the two entries name two inodes
  have hne : a.inode ≠ e.inode := ht.sound.once.apart b _ hb hp hpb.symm a
    (by rwa [graphOf_links]) e (by rwa [graphOf_links]) (ht.sound.proper_of_file hb ha h1) hP
  exact hdel.intact hc hp hi hu (fun h => hd (h ▸ hp)) hne

/-- A careful call that avoids the directory spares it. -/
theorem Tree.spared {c : Call} (ht : Tree fs) (hb : IsDirectory fs.disk b) (hok : Careful c fs)
    (hno : Avoids b c fs) : Spared fs.disk (c.run fs).2.disk b := by
  cases c with
  | write request =>
    rw [Call.run_write]
    exact ht.write_spared hb hok hno
  | delete request =>
    rw [Call.run_delete]
    exact ht.delete_spared hb hok hno

/-! ## What all links have in common -/

/-- A careful `write` keeps what the new entry has too, and the `.` and `..` of a new directory. -/
theorem Tree.all_write (ht : Tree fs) (hok : Careful (.write request) fs)
    (h : LinkGraph.All Q (graphOf fs.disk))
    (hnew : ∀ i, IsInode i → inodeUsed fs.disk i = false →
      Q request.parentInode.toNat (newEntry request i) ∧
        ∀ a ∈ dotEntries i request.parentInode.toNat, Q i a) :
    LinkGraph.All Q (graphOf (write request fs).2.disk) := by
  have hc := ht.consistent
  rcases ht.sound.write_careful hok with ⟨-, hq⟩ | ⟨-, hp, i, ni, L, hcreated, -⟩
  · exact h.same (hq.same hc)
  · obtain ⟨hx, hown⟩ := hnew i hcreated.isInode hcreated.fresh
    exact h.add (hcreated.add hc hp) hx hown

/-- A careful `delete` keeps it. -/
theorem Tree.all_delete (ht : Tree fs) (hok : Careful (.delete request) fs)
    (h : LinkGraph.All Q (graphOf fs.disk)) :
    LinkGraph.All Q (graphOf (delete request fs).2.disk) := by
  rcases ht.sound.delete_careful hok with ⟨-, hsame⟩ | ⟨-, hp, e, -, -, -, -, -, hdel⟩
  · rwa [hsame]
  · exact h.drop (hdel.drop ht.consistent hp)

end Spared

end LossOs.Ext2
