/-
  The directory tree.

  A state is a `Tree` when no entry dangles, the directories are shaped, each holds one `.` and one
  `..`, ranks grow from a directory to what it names, and the pointers of a file are a tree that
  `deallocate_node` visits as a whole. Careful calls keep this (`Tree.run`).
-/
import LossOs.Ext2.Complete
import LossOs.Ext2.Dangling
import LossOs.Ext2.Listing
import LossOs.Lib.Subtree

namespace LossOs.Ext2

open LossOs.Lib

instance : DecidablePred Proper := fun _ => inferInstanceAs (Decidable (_ ∧ _))

/-- The entries of directory `p` other than `.` and `..`. -/
def proper (d : Disk) (p : Nat) : List Entry := (entries d p).filter fun e => Proper e

/-- The pointers of inode `j` are a tree of `i_blocks` blocks at most. -/
def TreeFile (d : Disk) (j : Nat) : Prop :=
  ∃ t : FileTree, t.Holds d (slot d j) ∧ t.Shape (iBlocks (slot d j)) ∧ ∀ b ∈ t.blocks, b ≠ 0

structure Tree (fs : Fs) : Prop where
  sound : Sound fs
  shaped : Shaped fs
  dots : ∀ p, IsDirectory fs.disk p →
    ((entries fs.disk p).filter fun e => ¬ Proper e).length = 2
  ranked : (graphOf fs.disk).Ranked Entry.inode Proper
  file : ∀ j, IsInode j → inodeUsed fs.disk j = true → isDir fs.disk j = false →
    TreeFile fs.disk j

section Views

variable {fs : Fs} {d d' : Disk} {p j : Nat}

theorem Tree.consistent (h : Tree fs) : Consistent fs := h.sound.consistent

/-- The tree has a height. -/
theorem Tree.tall (h : Tree fs) :
    ∃ n, ∀ i, LinkGraph.Tall Entry.inode Proper (graphOf fs.disk) n i :=
  h.ranked.tall h.sound.once (Finset.range 897) fun j hj => by
    have := hj.1.2
    exact Finset.mem_range.mpr (by omega)

theorem Tree.withStack (h : Tree fs) (s : Mem) : Tree (fs.withStack s) :=
  ⟨h.sound.withStack s, h.shaped.withStack s, h.dots, h.ranked, h.file⟩

/-- A directory starts with its `.` and its `..`. -/
theorem Tree.entries_eq (h : Tree fs) (hp : IsDirectory fs.disk p) :
    ∃ up, up.name = [46, 46] ∧ entries fs.disk p = ⟨[46], p, 2⟩ :: up :: proper fs.disk p := by
  obtain ⟨b, post, r, ys, hbs, hrs, hr0, hr⟩ := h.sound.dots p hp
  have heq : entries fs.disk p =
      ⟨[46], p, 2⟩ :: r.entry :: (live ys ++ blockEntries fs.disk post) := by
    unfold entries
    rw [hbs, blockEntries_cons, hrs, live_cons_of_ne (by have := hp.isInode.1; show p ≠ 0; omega),
      live_cons_of_ne hr0]
    rfl
  have hdot : ¬ Proper ⟨[46], p, 2⟩ := fun hP => hP.1 rfl
  have hup : ¬ Proper r.entry := fun hP => hP.2 hr
  have hrest : (live ys ++ blockEntries fs.disk post).filter (fun e => ¬ Proper e) = [] := by
    have h2 := h.dots p hp
    rw [heq, List.filter_cons_of_pos (by simpa using hdot),
      List.filter_cons_of_pos (by simpa using hup)] at h2
    exact List.eq_nil_of_length_eq_zero (by simpa using h2)
  refine ⟨r.entry, hr, ?_⟩
  unfold proper
  rw [heq, List.filter_cons_of_neg (by simpa using hdot),
    List.filter_cons_of_neg (by simpa using hup),
    List.filter_eq_self.mpr]
  intro a ha
  by_contra hP
  have hm : a ∈ (live ys ++ blockEntries fs.disk post).filter (fun e => ¬ Proper e) :=
    List.mem_filter.mpr ⟨ha, by simpa using hP⟩
  rw [hrest] at hm
  cases hm

theorem mem_proper {e : Entry} : e ∈ proper d p ↔ e ∈ entries d p ∧ Proper e := by
  unfold proper
  rw [List.mem_filter, decide_eq_true_iff]

/-- Two proper entries that lead to the same inode are the same. -/
theorem Tree.entry_unique {a b : Entry} {p' : Nat} (ht : Tree fs) (hp : IsDirectory fs.disk p)
    (ha : a ∈ entries fs.disk p) (hP : Proper a) (hp' : IsDirectory fs.disk p')
    (hb : b ∈ entries fs.disk p') (hP' : Proper b) (he : a.inode = b.inode) : p = p' ∧ a = b :=
  ht.sound.once.link_unique hp ha hP hp' hb hP' he

/-- The blocks of a file are those that `deallocate_node` visits. -/
theorem Tree.fileBlocks_eq (h : Tree fs) (hj : IsInode j) (hu : inodeUsed fs.disk j = true)
    (hd : isDir fs.disk j = false) : fileBlocks fs.disk (slot fs.disk j) = reach fs.disk j := by
  obtain ⟨t, hh, hs, h0⟩ := h.file j hj hu hd
  rw [reach_of_not_dir hd, LossOs.Ext2.fileBlocks_eq hh hs h0, treeBlocks_eq hh h0]

/-- The tree of a file stays as long as its slot and its blocks do. -/
theorem TreeFile.congr (h : TreeFile d j) (hd : isDir d j = false) (hs : slot d' j = slot d j)
    (hb : ∀ b ∈ reach d j, d' b = d b) : TreeFile d' j := by
  obtain ⟨t, hh, hshape, h0⟩ := h
  rw [reach_of_not_dir hd, treeBlocks_eq hh h0] at hb
  refine ⟨t, hh.congr (fun _ _ => by rw [hs]) hb, by rw [hs]; exact hshape, h0⟩

end Views

section Steps

variable {request : EXT2DriverRequest} {fs fs' : Fs} {p i : Nat} {ni : Mem} {L X : List Nat}
  {e : Entry}

theorem Quiet.tree (h : Quiet fs fs') (ht : Tree fs) : Tree fs' := by
  have hc := ht.consistent
  refine ⟨h.sound ht.sound, h.shaped ht.shaped, fun p hp => ?_, ht.ranked.same (h.same hc),
    fun j hj hu hd => ?_⟩
  · have hp' := h.isDirectory_iff.mp hp
    rw [h.entries_eq hc hp']
    exact ht.dots p hp'
  · have hu' : inodeUsed fs.disk j = true := by rw [← h.inodes j hj]; exact hu
    have hd' : isDir fs.disk j = false := by
      have hsame : isDir fs'.disk j = isDir fs.disk j := isDir_congr (by rw [h.slots])
      rw [← hsame]
      exact hd
    refine (ht.file j hj hu' hd').congr hd' (h.slots j) fun b hb => ?_
    obtain ⟨h1, h2⟩ := hc.owned.data j hj hu' b hb
    exact h.kept b h1 h2

/-- Blocks of the other inodes stay. -/
theorem Created.reach_kept (h : Created request fs fs' p i ni L) (hc : Consistent fs)
    (hp : IsDirectory fs.disk p) {j : Nat} (hj : IsInode j) (hu : inodeUsed fs.disk j = true)
    (hjp : j ≠ p) : ∀ b ∈ reach fs.disk j, fs'.disk b = fs.disk b := by
  intro b hb
  obtain ⟨h1, h2⟩ := hc.owned.data j hj hu b hb
  apply h.kept b h1 h2
  intro hbp
  rw [← reach_of_dir hp.dir] at hbp
  exact hc.owned.disjoint j p hj hp.isInode hu hp.used hjp b hb hbp

theorem filter_insert_not_proper {A B : List Entry} (hP : Proper e) :
    (A ++ e :: B).filter (fun e => ¬ Proper e) = (A ++ B).filter fun e => ¬ Proper e := by
  rw [List.filter_append, List.filter_append, List.filter_cons_of_neg (by simpa using hP)]

/-- A file that `write` has built is a tree of pointers. -/
theorem Built.treeFile (h : Built request fs fs' i ni L X) (hslot : slot fs'.disk i = cutNode ni)
    (hreg : isDirRequest request = false) : TreeFile fs'.disk i := by
  obtain ⟨d₀, hmade, -⟩ := h.made
  have hused := h.blocks
  have hcut := cutNode_apply hslot
  cases hmade with
  | file t _ hat =>
    refine ⟨t, hat.holds.congr (fun j hj => iBlock_congr hcut (by omega)) fun _ _ => rfl, ?_,
      fun b hb => (hused b hb).1.ne_zero⟩
    rw [iBlocks_congr hcut, hat.count]
    exact hat.shape
  | dir b hdir => rw [hreg] at hdir; cases hdir
  | fallback hdir => rw [hreg] at hdir; cases hdir

theorem Created.tree (h : Created request fs fs' request.parentInode.toNat i ni L) (ht : Tree fs)
    (hp : IsDirectory fs.disk request.parentInode.toNat) (hs : Sound fs') (hsh : Shaped fs')
    (hname : Proper (newEntry request i)) (hfile : isDir fs'.disk i = false → TreeFile fs'.disk i) :
    Tree fs' := by
  have hc := ht.consistent
  have hadd := h.add hc hp
  refine ⟨hs, hsh, fun q hq => ?_, ht.ranked.add ht.sound.once (graphOf_dirsUsed _) hadd hp
    not_proper_dot, fun j hj hu hd => ?_⟩
  · by_cases hqi : q = i
    · subst hqi
      rw [h.newEntries (by have := hp.isInode.1; omega) hq]
      rfl
    · have hq' := (h.isDirectory_iff hqi).mp hq
      by_cases hqp : q = request.parentInode.toNat
      · subst hqp
        obtain ⟨A, B, h1, h2, -⟩ := h.parentEntries
        rw [h2, filter_insert_not_proper hname, ← h1]
        exact ht.dots _ hp
      · rw [h.otherEntries hc hp hq' hqp]
        exact ht.dots q hq'
  · by_cases hji : j = i
    · rw [hji] at hd ⊢
      exact hfile hd
    · have hu' : inodeUsed fs.disk j = true := by
        rw [h.inodes j hj] at hu
        simpa [hji] using hu
      have hjp : j ≠ request.parentInode.toNat := by
        rintro rfl
        rw [((h.isDirectory_iff hji).mpr hp).dir] at hd
        cases hd
      have hd' : isDir fs.disk j = false := by rw [← h.isDir_other hj hji]; exact hd
      exact (ht.file j hj hu' hd').congr hd' (h.others j hj hji hjp)
        (h.reach_kept hc hp hj hu' hjp)

/-- Blocks of the inodes other than the directory stay. -/
theorem Deleted.reach_kept (h : Deleted request fs fs' p e) (hc : Consistent fs)
    (hp : IsDirectory fs.disk p) {j : Nat} (hj : IsInode j) (hu : inodeUsed fs.disk j = true)
    (hjp : j ≠ p) : ∀ b ∈ reach fs.disk j, fs'.disk b = fs.disk b := by
  intro b hb
  apply h.kept b (hc.owned.data j hj hu b hb).1
  intro hbp
  rw [← reach_of_dir hp.dir] at hbp
  exact hc.owned.disjoint j p hj hp.isInode hu hp.used hjp b hb hbp

theorem Deleted.tree (h : Deleted request fs fs' p e) (ht : Tree fs) (hp : IsDirectory fs.disk p)
    (hs : Sound fs') (hsh : Shaped fs') (hP : Proper e) : Tree fs' := by
  have hc := ht.consistent
  refine ⟨hs, hsh, fun q hq => ?_, ht.ranked.drop (h.drop hc hp), fun j hj hu hd => ?_⟩
  · obtain ⟨hq', hne⟩ := h.isDirectory_iff.mp hq
    by_cases hqp : q = p
    · subst hqp
      obtain ⟨A, B, h1, h2, -⟩ := h.parentEntries hp.isInode hne
      rw [h2, ← filter_insert_not_proper hP, ← h1]
      exact ht.dots _ hp
    · rw [h.otherEntries hc hp hq' hqp hne]
      exact ht.dots q hq'
  · rw [h.inodes j hj, Bool.and_eq_true, Bool.not_eq_true', decide_eq_false_iff_not] at hu
    obtain ⟨hu', hne⟩ := hu
    have hslot := h.others j hj hne
    have hd' : isDir fs.disk j = false := by rw [← isDir_congr (by rw [hslot])]; exact hd
    have hjp : j ≠ p := by
      rintro rfl
      rw [hp.dir] at hd'
      cases hd'
    exact (ht.file j hj hu' hd').congr hd' hslot (h.reach_kept hc hp hj hu' hjp)

/-- Every call of which `Careful` holds keeps the tree. -/
theorem Tree.run {c : Call} (ht : Tree fs) (hok : Careful c fs) : Tree (c.run fs).2 := by
  have hs := ht.sound.run hok
  have hsh := ht.shaped.run hok.toWithin
  cases c with
  | write request =>
    rw [Call.run_write] at hs hsh ⊢
    rcases ht.sound.write_careful hok with ⟨-, hq⟩ | ⟨h0, hp, i, ni, L, hnew, hname, hkept⟩
    · exact hq.tree ht
    · apply hnew.tree ht hp hs hsh hname
      intro hfile
      rcases write_built (ht.consistent.hosts hp) with ⟨hne, -⟩ | ⟨-, -, j, nj, M, X, hj, hbuilt⟩
      · exact absurd h0 hne
      · obtain rfl : j = i := Option.some.inj (hj.symm.trans hnew.first)
        have hslot := hbuilt.kept fun hscan =>
          hkept ((scanParent_none_iff ht.consistent hp).mp hscan)
        obtain ⟨d₀, hmade, -⟩ := hbuilt.made
        exact hbuilt.treeFile hslot ((hmade.isDir_eq hslot).symm.trans hfile)
  | delete request =>
    rw [Call.run_delete] at hs hsh ⊢
    rcases ht.sound.delete_careful hok with ⟨-, he⟩ | ⟨-, hp, e, -, hP, -, -, -, hdel⟩
    · rw [he]
      exact ht
    · exact hdel.tree ht hp hs hsh hP

theorem Formatted.tree (h : Formatted fs) : Tree fs := by
  refine ⟨h.sound, h.shaped, fun p hp => ?_, ⟨fun _ => 0, fun p hp a ha hP => ?_⟩,
    fun j hj hu hd => ?_⟩
  · obtain rfl := h.isDirectory_iff.mp hp
    rw [h.rootEntries]
    rfl
  · obtain rfl := h.isDirectory_iff.mp hp
    rw [graphOf_links, h.rootEntries] at ha
    exact absurd hP (not_proper_dot a ha)
  · rw [h.inodes j hj, decide_eq_true_iff] at hu
    rw [hu, (h.isDirectory_iff.mpr rfl).dir] at hd
    cases hd

end Steps

/-! ## Listings -/

/-- The caller's buffer after the listing of directory `p`: its first block, what lies behind the
    read buffer, and what was there before. -/
def listed (fs : Fs) (buf : Mem) (p : Nat) : Mem :=
  blit buf 0 (fs.readBlocks (iBlock (slot fs.disk p) 0)) (iSize (slot fs.disk p))

/-- The records of the first block of directory `p`. -/
def firstRecords (d : Disk) (p : Nat) : List Rec := blockRecords (d (iBlock (slot d p) 0))

section Listings

variable {fs : Fs} {p : Nat}

/-- The first block of a directory starts with `.` and `..`. -/
theorem Tree.first_block (h : Tree fs) (hp : IsDirectory fs.disk p) :
    IsDirBlock (fs.disk (iBlock (slot fs.disk p) 0)) ∧ 0 < iBlocks (slot fs.disk p) ∧
      iBlock (slot fs.disk p) 0 ≠ 0 ∧ ∃ post r ys,
        dirBlocks (slot fs.disk p) = iBlock (slot fs.disk p) 0 :: post ∧
        firstRecords fs.disk p = ⟨0, p, 12, [46], 2⟩ :: r :: ys ∧ r.inode ≠ 0 ∧
        r.name = [46, 46] := by
  obtain ⟨b, post, r, ys, hbs, hrs, hr0, hr⟩ := h.sound.dots p hp
  obtain ⟨hpos, hb, hblock⟩ := h.consistent.first_block hp hbs
  rw [hb]
  refine ⟨hblock, hpos, ?_, post, r, ys, hbs, ?_, hr0, hr⟩
  · exact (h.consistent.dirBlock hp (by rw [hbs]; simp)).1.ne_zero
  · unfold firstRecords
    rw [hb]
    exact hrs

/-- The entries of the first block come first. -/
theorem Tree.entries_first (h : Tree fs) (hp : IsDirectory fs.disk p) :
    ∃ rest, entries fs.disk p = live (firstRecords fs.disk p) ++ rest ∧
      (iBlocks (slot fs.disk p) = 1 → rest = []) := by
  obtain ⟨-, -, -, post, r, ys, hbs, -⟩ := h.first_block hp
  refine ⟨blockEntries fs.disk post, ?_, fun h1 => ?_⟩
  · unfold entries
    rw [hbs, blockEntries_cons]
    rfl
  · have hlen := congrArg List.length (dirBlocks_of_full (h.consistent.dirFull p hp))
    unfold dirPtrs at hlen
    rw [hbs, List.length_map, List.length_range, h1, List.length_cons] at hlen
    rw [List.eq_nil_of_length_eq_zero (by omega : post.length = 0)]
    rfl

/-- What the shell gets when it lists a directory. -/
theorem Tree.readDirectory_eq (h : Tree fs) (hp : IsDirectory fs.disk p) (buf : Mem) :
    readDirectory (listRequest p buf) fs = (0, listed fs buf p) := by
  obtain ⟨-, hpos, hb0, -⟩ := h.first_block hp
  have hsize := h.shaped.size p hp
  have h15 := (h.consistent.dirOk p hp).size
  have hparent := listRequest_parent hp.isInode buf
  rw [LossOs.Ext2.readDirectory_eq h.consistent (by rw [hparent]; exact hp)
    (h.shaped.firstNamed_list hp buf) rfl hp.isInode, if_neg (by dsimp only; omega), if_neg hb0,
    if_neg]
  · rfl
  · dsimp only
    rw [hsize, show (listRequest p buf).bufferSize.toNat = 8192 from rfl]
    omega

/-- The first block is tiled in the caller's buffer too. -/
theorem Tree.listed_tiles (h : Tree fs) (hp : IsDirectory fs.disk p) (buf : Mem) :
    Tiles (listed fs buf p) 0 (firstRecords fs.disk p) 512 := by
  obtain ⟨hblock, hpos, -⟩ := h.first_block hp
  have hsize := h.shaped.size p hp
  apply hblock.tiles_read.congr
  intro o _ ho
  exact blit_of_mem (Nat.zero_le o) (by omega)

end Listings

/-! ## The first name of a fresh file system -/

section First

variable {request : EXT2DriverRequest} {fs : Fs}

/-- The first name of a fresh file system needs no care. -/
theorem Formatted.careful (h : Formatted fs) (hp : request.parentInode = 1)
    (h1 : requestName request ≠ [46]) (h2 : requestName request ≠ [46, 46]) :
    Careful (.write request) fs := by
  have hone : request.parentInode.toNat = 1 := by rw [hp]; rfl
  have hit := (h.stop h1 h2).firstHit
  refine ⟨h.within hp h1 h2, fun request' hc _ hmiss => ?_, fun _ _ hc => by cases hc⟩
  obtain rfl : request = request' := Call.write.inj hc
  rw [hone, hit] at hmiss
  cases hmiss

/-- It gets inode 2. -/
theorem Formatted.write_root (h : Formatted fs) (hp : request.parentInode = 1)
    (h1 : requestName request ≠ [46]) (h2 : requestName request ≠ [46, 46]) :
    Tree (write request fs).2 ∧ (write request fs).1 = 0 ∧
      slot (write request fs).2.disk 1 = slot fs.disk 1 ∧
      ∃ ni L, Created request fs (write request fs).2 1 2 ni L := by
  obtain ⟨hcode, ni, L, hfirst⟩ := h.write_first request hp h1 h2
  exact ⟨h.tree.run (h.careful hp h1 h2), hcode, hfirst.hole.slot_eq (by decide) (by decide),
    ni, L, hfirst.created⟩

end First

/-- `/bin`. -/
def binRequest : EXT2DriverRequest := rootRequest [98, 105, 110] [] true

/-- A fresh file system with `/bin` at inode 2. -/
def binFs : Fs := (write binRequest freshFs).2

theorem binFs_root : Tree binFs ∧ IsDirectory binFs.disk 1 ∧ IsDirectory binFs.disk 2 ∧
    ∃ A B, A ++ B = dotEntries 1 1 ∧ entries binFs.disk 1 = A ++ ⟨[98, 105, 110], 2, 2⟩ :: B := by
  have hf := isFresh_freshFs.formatted
  obtain ⟨ht, -, -, ni, L, hnew⟩ := @Formatted.write_root binRequest _ hf rfl (by decide)
    (by decide)
  have hentry : newEntry binRequest 2 = ⟨[98, 105, 110], 2, 2⟩ := by decide
  unfold binFs
  generalize (write binRequest freshFs).2 = fs at ht hnew ⊢
  obtain ⟨A, B, h1, h2, -⟩ := hnew.parentEntries
  rw [hentry] at h2
  have hroot := (hnew.isDirectory_iff (by decide)).mpr (hf.isDirectory_iff.mpr rfl)
  have hmem : ⟨[98, 105, 110], 2, 2⟩ ∈ entries fs.disk 1 := by
    rw [h2]
    exact List.mem_append_right _ List.mem_cons_self
  exact ⟨ht, hroot, (ht.sound.noDangling.isDir_iff hroot hmem).mpr rfl, A, B,
    h1.symm.trans hf.rootEntries, h2⟩

/-- Both directories have one block, and `/bin` is empty. -/
theorem binFs_blocks : iBlocks (slot binFs.disk 1) = 1 ∧ iBlocks (slot binFs.disk 2) = 1 ∧
    entries binFs.disk 2 = dotEntries 2 1 := by
  have hf := isFresh_freshFs.formatted
  obtain ⟨ht, -, hbin, -⟩ := binFs_root
  obtain ⟨-, -, hslot, ni, L, hnew⟩ := @Formatted.write_root binRequest _ hf rfl (by decide)
    (by decide)
  rw [← show binFs = (write binRequest freshFs).2 from rfl] at hslot hnew
  generalize binFs = fs at ht hbin hslot hnew ⊢
  refine ⟨by rw [hslot, hf.iBlocks_root], ?_, hnew.newEntries (by decide) hbin⟩
  obtain ⟨-, -, b, hb, -⟩ := hnew.newDir hbin
  have hlen := congrArg List.length (dirBlocks_of_full (ht.consistent.dirFull 2 hbin))
  unfold dirPtrs at hlen
  rw [hb, List.length_map, List.length_range] at hlen
  exact hlen.symm

/-- In every run of careful calls the state is a tree. -/
theorem tree_run {fs₀ fs : Fs} (h : IsFresh fs₀) (hrun : Run Careful fs₀ fs) : Tree fs :=
  hrun.invariant (fun _ s h => h.withStack s) (fun _ _ h => h.run) h.formatted.tree

end LossOs.Ext2
