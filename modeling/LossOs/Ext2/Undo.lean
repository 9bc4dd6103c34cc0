/-
  Deleting a file undoes writing it.

  `write` takes an inode and the blocks of a tree, which may have stayed incomplete; `delete` walks
  the tree by `i_blocks` and the nonzero pointers. On every shape that `write` leaves the walk meets
  exactly the blocks that were taken (`fileBlocks_eq`), so that bitmaps, counters, inode tables and
  the entry list are as before (`delete_undoes_write`).
-/
import LossOs.Ext2.Accounting
import LossOs.Ext2.RoundTrip
import LossOs.Ext2.Root

namespace LossOs.Ext2

open LossOs.Lib

/-- Free lists, inode tables and the entries of `p` are as before. -/
structure Restored (p : Nat) (fs fs' : Fs) : Prop where
  blockBitmaps : ∀ g < 8, fs'.disk (blockBitmapAt g) = fs.disk (blockBitmapAt g)
  inodeBitmaps : ∀ g < 8, fs'.disk (inodeBitmapAt g) = fs.disk (inodeBitmapAt g)
  groups : ∀ g < 8, fs'.bgdtCache g = fs.bgdtCache g
  super : fs'.superBlock = fs.superBlock
  inodeTables : ∀ j, IsInode j → fs'.disk (inodeBlockAt j) = fs.disk (inodeBlockAt j)
  entries : entries fs'.disk p = entries fs.disk p

section Bitmaps

variable {d d' : Disk}

/-- The block bitmap of a group is known by the blocks in use. -/
theorem blockBitmap_ext (h : ∀ b < 2048, blockUsed d' b = blockUsed d b) {g : Nat} (hg : g < 8)
    (ht : ∀ o, 32 ≤ o → (d' (blockBitmapAt g)).mem o = (d (blockBitmapAt g)).mem o) :
    d' (blockBitmapAt g) = d (blockBitmapAt g) := by
  refine Block.ext_bits (n := 32) (fun j hj => ?_) ht
  have := h (256 * g + j) (by omega)
  unfold blockUsed at this
  rwa [show (256 * g + j) / 256 = g by omega, show (256 * g + j) % 256 = j by omega] at this

/-- So is the inode bitmap by the inodes in use. -/
theorem inodeBitmap_ext (h : ∀ i, IsInode i → inodeUsed d' i = inodeUsed d i) {g : Nat}
    (hg : g < 8)
    (ht : ∀ o, 14 ≤ o → (d' (inodeBitmapAt g)).mem o = (d (inodeBitmapAt g)).mem o) :
    d' (inodeBitmapAt g) = d (inodeBitmapAt g) := by
  refine Block.ext_bits (n := 14) (fun j hj => ?_) ht
  have hj' : j < 112 := by omega
  obtain ⟨h1, h2, h3⟩ := inode_of_bit hg hj'
  have := h _ h1
  unfold inodeUsed at this
  rwa [h2, h3] at this

theorem freeBlocksOf_congr {g : Nat} (h : d' (blockBitmapAt g) = d (blockBitmapAt g)) :
    freeBlocksOf d' g = freeBlocksOf d g := by
  unfold freeBlocksOf
  rw [h]

theorem freeInodesOf_congr {g : Nat} (h : d' (inodeBitmapAt g) = d (inodeBitmapAt g)) :
    freeInodesOf d' g = freeInodesOf d g := by
  unfold freeInodesOf
  rw [h]

end Bitmaps

/-- A file inode that is taken with its blocks and given back with the same blocks leaves no
    trace outside the data blocks. -/
theorem Took.restored {fs fs₁ fs₂ : Fs} {i p : Nat} {L X Y : List Nat} {stack : Mem}
    (h : Took fs fs₁ i L X false) (hs : SameSlots fs.disk fs₁.disk i)
    (hz : ∀ o, slot fs.disk i o = 0) (hfile : isDir fs₁.disk i = false)
    (hf : Freed (fs₁.withStack stack) fs₂ i L Y) (hcnt : Counters fs)
    (he : LossOs.Ext2.entries fs₂.disk p = LossOs.Ext2.entries fs.disk p) : Restored p fs fs₂ := by
  have hblocks : ∀ b < 2048, blockUsed fs₂.disk b = blockUsed fs.disk b := by
    intro b hb
    rw [hf.blocks b hb, withStack_disk, h.blocks b hb]
    by_cases hbL : b ∈ L
    · simp [hbL, h.fresh b hbL]
    · simp [hbL]
  have hinodes : ∀ j, IsInode j → inodeUsed fs₂.disk j = inodeUsed fs.disk j := by
    intro j hj
    rw [hf.inodes j hj, withStack_disk, h.inodes j hj]
    by_cases hji : j = i
    · simp [hji, h.freshInode]
    · simp [hji]
  have hbb : ∀ g < 8, fs₂.disk (blockBitmapAt g) = fs.disk (blockBitmapAt g) := fun g hg =>
    blockBitmap_ext hblocks hg fun o ho => (hf.blockTail g hg o ho).trans (h.blockTail g hg o ho)
  have hib : ∀ g < 8, fs₂.disk (inodeBitmapAt g) = fs.disk (inodeBitmapAt g) := fun g hg =>
    inodeBitmap_ext hinodes hg fun o ho => (hf.inodeTail g hg o ho).trans (h.inodeTail g hg o ho)
  have hcnt₁ : Counters (fs₁.withStack stack) :=
    ⟨(h.counters hcnt).blocks, (h.counters hcnt).inodes⟩
  have hcnt₂ : Counters fs₂ := by
    refine hf.counters h.nodup (fun b hb => ⟨(h.data b hb).1, ?_⟩) ?_ hcnt₁
    · rw [withStack_disk, h.blocks b (h.data b hb).1]
      simp [hb]
    · rw [withStack_disk, h.inodes i h.isInode]
      simp
  refine ⟨hbb, hib, fun g hg => ?_, ?_, fun j hj => Block.ext_mem fun o _ => ?_, he⟩
  · have hb : (fs₂.bgdtCache g).bgFreeBlocksCount = (fs.bgdtCache g).bgFreeBlocksCount :=
      UInt16.toNat_inj.mp (by
        rw [hcnt₂.blocks g hg, hcnt.blocks g hg, freeBlocksOf_congr (hbb g hg)])
    have hi : (fs₂.bgdtCache g).bgFreeInodesCount = (fs.bgdtCache g).bgFreeInodesCount :=
      UInt16.toNat_inj.mp (by
        rw [hcnt₂.inodes g hg, hcnt.inodes g hg, freeInodesOf_congr (hib g hg)])
    have hd : (fs₂.bgdtCache g).bgUsedDirsCount = (fs.bgdtCache g).bgUsedDirsCount :=
      (hf.usedDirs hfile g).trans (h.usedDirs rfl g)
    rw [hf.desc g, show (fs₁.withStack stack).bgdtCache g = fs₁.bgdtCache g from rfl, h.desc g,
      hb, hi, hd]
  · rw [hf.super, show (fs₁.withStack stack).superBlock = fs₁.superBlock from rfl, h.super]
    simp
  · by_cases hin : inodeBlockAt j = inodeBlockAt i ∧ slotOffset i ≤ o ∧ o < slotOffset i + 70
    · obtain ⟨hji, h1, h2⟩ := hin
      have hbefore := hz (o - slotOffset i)
      have hafter := hf.slotSelf (o - slotOffset i)
      unfold slot at hbefore hafter
      rw [if_pos (by omega), Nat.add_sub_cancel' h1] at hbefore hafter
      rw [hji, hbefore, hafter]
    · rw [hf.slots j o hin, withStack_disk, hs j o hin]

/-- `delete` of a file removes the first entry of the name. -/
theorem delete_file {del : EXT2DriverRequest} {fs : Fs} (hl : Layout fs)
    (hp : IsInode del.parentInode.toNat) (hd : isDir fs.disk del.parentInode.toNat = true)
    (hok : DirOk fs.disk del.parentInode.toNat) {e : Entry}
    (hfirst : firstNamed del fs.disk del.parentInode.toNat = some e)
    (hreq : del.isDirectory = false) (htype : e.fileType = 1) :
    ∃ pre b post xs r ys, dirBlocks (slot fs.disk del.parentInode.toNat) = pre ++ b :: post ∧
      blockRecords (fs.disk b) = xs ++ r :: ys ∧ r.named del = true ∧
      (∀ q ∈ dirRecords fs.disk pre, q.2.named del = false) ∧
      (∀ q ∈ xs, q.named del = false) ∧ r.entry = e ∧
      delete del fs = (0, removeAt b xs r fs) := by
  rcases delete_cases del hl hp hd hok with
    ⟨-, hall⟩ | ⟨pre, b, post, xs, r, ys, hbs, hrs, hn, hpre, hxs, he⟩
  · obtain ⟨hm, hname⟩ := firstNamed_mem hfirst
    exact absurd hname (entries_name_ne hall e hm)
  · have hr := firstNamed_eq hbs hrs hn hpre hxs
    rw [hfirst, Option.some.injEq] at hr
    have hft : r.fileType = 1 := by
      rw [hr] at htype
      exact htype
    refine ⟨pre, b, post, xs, r, ys, hbs, hrs, hn, hpre, hxs, hr.symm, ?_⟩
    rw [he]
    unfold deleteAt
    rw [hreq, hft]
    rfl

/-- A file that `delete` finds is given back with the blocks that its inode reaches, and its
    record is taken out of the directory. -/
theorem delete_file_freed {del : EXT2DriverRequest} (fs : Fs) {p : Nat} (hl : Layout fs)
    (hpd : del.parentInode.toNat = p) (hp : IsInode p) (hd : isDir fs.disk p = true)
    (hok : DirOk fs.disk p) (hblk : ∀ c ∈ dirBlocks (slot fs.disk p), IsData c)
    (hnd : (dirBlocks (slot fs.disk p)).Nodup) {e : Entry}
    (hfirst : firstNamed del fs.disk p = some e) (hreq : del.isDirectory = false)
    (htype : e.fileType = 1) (hi : IsInode e.inode)
    (hdata : ∀ c ∈ fileBlocks fs.disk (slot fs.disk e.inode), IsData c) :
    ∃ fs' b, delete del fs = (0, fs') ∧
      Freed fs fs' e.inode (fileBlocks fs.disk (slot fs.disk e.inode)) [b] ∧
      Removed del e fs.disk fs'.disk (dirBlocks (slot fs.disk p)) := by
  subst hpd
  obtain ⟨pre, b, post, xs, r, ys, hbs, hrs, hn, hpre, hxs, rfl, hrun⟩ :=
    delete_file hl hp hd hok hfirst hreq htype
  have hb : b ∈ dirBlocks (slot fs.disk del.parentInode.toNat) := by rw [hbs]; simp
  have hbd := hblk b hb
  have hfreed := removeAt_freed hl hbd xs hi hdata
  refine ⟨_, b, hrun, hfreed, ?_⟩
  refine (removeAt_removed hbs hnd hrs hbd (hok.blocks b hb) hn hpre hxs fun c hc hne => ?_).1
  exact hfreed.data c (hblk c hc) (by simpa using hne)

/-- What a successful `write` of a regular file into a hole has made. -/
theorem write_hole_file (request : EXT2DriverRequest) {fs : Fs} {p b : Nat} {r : Rec}
    (hr : Ready fs) (hz : FreeSlots fs.disk) (hpp : request.parentInode.toNat = p)
    (hp : IsInode p) (hok : ParentOk fs.disk p) (hreg : isDirRequest request = false)
    (hhit : firstHit request fs.disk p = some (b, r)) (hcode : (write request fs).1 = 0) :
    ∃ i ni t, Hole request b r.off fs (write request fs).2 i ni (FileTree.blocks t) [] ∧
      FileAt request (write request fs).2.disk ni t := by
  subst hpp
  have hw := write_cases request hr hz hp fun _ => hok
  rw [hcode] at hw
  generalize (write request fs).2 = fs₁ at hw ⊢
  cases hw with
  | hole b' r' _ hhit' _ hhole =>
    rw [hhit, Option.some.injEq, Prod.mk.injEq] at hhit'
    obtain ⟨rfl, rfl⟩ := hhit'
    have hmade := hhole.made
    cases hmade with
    | file t _ hat => exact ⟨_, _, t, hhole, hat⟩
    | dir c hd => rw [hreg] at hd; cases hd
    | fallback hd => rw [hreg] at hd; cases hd
  | grow nb _ hhit' => rw [hhit] at hhit'; cases hhit'

section Written

variable {request del : EXT2DriverRequest} {fs fs₁ : Fs} {p b i : Nat} {r : Rec} {ni : Mem}
  {t : FileTree} {L pre post : List Nat} {xs ys : List Rec}

/-- `deallocate_node` will visit the blocks of the file. -/
theorem Hole.fileBlocks_eq {off : Nat} (h : Hole request b off fs fs₁ i ni t.blocks [])
    (hat : FileAt request fs₁.disk ni t) : fileBlocks fs₁.disk (slot fs₁.disk i) = t.blocks := by
  have hcut := cutNode_apply h.slotSelf
  refine LossOs.Ext2.fileBlocks_eq (hat.holds.congr (fun j hj => iBlock_congr hcut (by omega))
    fun _ _ => rfl) ?_ fun c hc => (h.took.data c hc).ne_zero
  rw [iBlocks_congr hcut, hat.count]
  exact hat.shape

/-- The records of the parent still tile its blocks. -/
theorem Hole.dirOk (h : Hole request b r.off fs fs₁ i ni L []) (hp : IsDirectory fs.disk p)
    (hok : ParentOk fs.disk p) (hs : Stop request fs.disk p b r pre post xs ys) :
    DirOk fs₁.disk p := by
  have hslot := h.slot_eq hp.isInode (h.ne_parent hp).symm
  refine ⟨by rw [hslot]; exact hok.size, fun c hc => ?_⟩
  rw [hslot] at hc
  obtain ⟨hd, hu⟩ := hok.data c hc
  by_cases hcb : c = b
  · exact ⟨_, hcb ▸ h.records hs (hok.blocks b hs.mem)⟩
  · rw [h.data_eq hd hu hcb]
    exact hok.blocks c hc

end Written

/-- The new entry is the first of its name. -/
theorem Inserted.firstNamed {request del : EXT2DriverRequest} {i p : Nat} {d d' : Disk}
    {bs : List Nat} (h : Inserted request i d d' bs (dirBlocks (slot d' p))) (hi : i ≠ 0)
    (hname : requestName del = requestName request) :
    firstNamed del d' p = some (newEntry request i) := by
  obtain ⟨A, B, -, hafter, hA⟩ := h.entries_eq hi
  unfold LossOs.Ext2.firstNamed entries
  rw [hafter]
  refine List.find?_eq_some_iff_append.mpr ⟨?_, A, B, rfl, fun a ha => ?_⟩
  · simp [newEntry, hname]
  · have := hA a ha
    rw [← hname] at this
    simpa using this

/-- Taken out again, it leaves the entries as they were. -/
theorem Inserted.removed {request del : EXT2DriverRequest} {i : Nat} {d d' d'' : Disk}
    {bs cs : List Nat} (h : Inserted request i d d' bs cs) (hi : i ≠ 0)
    (hname : requestName del = requestName request)
    (hrem : Removed del (newEntry request i) d' d'' cs) :
    blockEntries d'' cs = blockEntries d bs := by
  obtain ⟨A, B, hbefore, hafter, hA⟩ := h.entries_eq hi
  obtain ⟨A', B', h1, h2, -, hA'⟩ := hrem.entries_eq
  rw [hafter] at h1
  -- before the first entry of the name there is the same on both sides
  obtain ⟨rfl, -, rfl⟩ := split_unique (P := fun a => a.name == requestName request) h1
    (fun a ha => by simpa using hA a ha) (by simp [newEntry])
    (fun a ha => by rw [← hname]; simpa using hA' a ha) (by simp [newEntry])
  rw [h2, hbefore]

/-- A regular file that went into a hole of its parent, complete or not, is taken back by a
    `delete` of the name: free lists, inode tables and the entries of the parent are as before. -/
theorem delete_undoes_write (request del : EXT2DriverRequest) {fs : Fs} (hr : Ready fs)
    (hz : FreeSlots fs.disk) (hp : IsDirectory fs.disk request.parentInode.toNat)
    (hok : ParentOk fs.disk request.parentInode.toNat)
    (hnd : (dirBlocks (slot fs.disk request.parentInode.toNat)).Nodup)
    (hreg : isDirRequest request = false) {q : Nat × Rec}
    (hhit : firstHit request fs.disk request.parentInode.toNat = some q)
    (hn : q.2.named request = false) (hcode : (write request fs).1 = 0)
    (hparent : del.parentInode = request.parentInode)
    (hname : requestName del = requestName request) (hdel : del.isDirectory = false) (stack : Mem) :
    (delete del ((write request fs).2.withStack stack)).1 = 0 ∧
      Restored request.parentInode.toNat fs
        (delete del ((write request fs).2.withStack stack)).2 := by
  generalize hpp : request.parentInode.toNat = p at hp hok hnd hhit ⊢
  obtain ⟨b, r⟩ := q
  -- what `write` has done
  obtain ⟨i, ni, t, hhole, hat⟩ := write_hole_file request hr hz hpp hp.isInode hok hreg hhit hcode
  generalize (write request fs).2 = fs₁ at hhole hat ⊢
  obtain ⟨pre, post, xs, ys, hs⟩ := Stop.of_firstHit hhit hn
  have htook := hhole.took
  rw [hreg] at htook
  have hi := htook.isInode
  have hi0 : i ≠ 0 := by have := hi.1; omega
  have hip := hhole.ne_parent hp
  have hslotp : slot fs₁.disk p = slot fs.disk p := hhole.slot_eq hp.isInode hip.symm
  have hins := hhole.inserted hp hok hnd hs
  have hfile : isDir fs₁.disk i = false := (hhole.made.isDir_eq hhole.slotSelf).trans hreg
  have hvisit := hhole.fileBlocks_eq hat
  -- what `delete` does
  obtain ⟨fs₂, c, hrun, hfreed, hrem⟩ := delete_file_freed (fs₁.withStack stack)
    ((htook.layout hr.layout).withStack stack) (by rw [hparent, hpp]) hp.isInode
    ((isDir_congr (by rw [withStack_disk, hslotp])).trans hp.dir) (hhole.dirOk hp hok hs)
    (by rw [withStack_disk, hslotp]; exact fun c hc => (hok.data c hc).1)
    (by rw [withStack_disk, hslotp]; exact hnd) (hins.firstNamed hi0 hname) hdel
    (requestFileType_file hreg) hi (hvisit.symm ▸ htook.data)
  rw [withStack_disk] at hfreed hrem
  have hfreed : Freed (fs₁.withStack stack) fs₂ i t.blocks [c] := by
    rw [← hvisit]
    exact hfreed
  rw [hrun]
  refine ⟨rfl, htook.restored hhole.slots (hz i hi htook.freshInode) hfile hfreed hr.counters ?_⟩
  unfold entries
  rw [hfreed.slots.slot_eq hi hp.isInode hip.symm, withStack_disk]
  exact hins.removed hi0 hname hrem

/-- A file of one byte, written to a fresh file system and deleted. -/
theorem delete_undoes_write_fresh :
    Restored 1 freshFs (delete (rootRequest [97] [] false)
      ((write (rootRequest [97] [7] false) freshFs).2.withStack fun _ => 3)).2 := by
  have hf := isFresh_freshFs.formatted
  have hc := hf.consistent
  have hp : IsDirectory freshFs.disk 1 := hf.isDirectory_iff.mpr rfl
  have h1 : requestName (rootRequest [97] [7] false) = [97] := requestName_root (by decide)
  have h2 : requestName (rootRequest [97] [] false) = [97] := requestName_root (by decide)
  have hdot : requestName (rootRequest [97] [7] false) ≠ [46] ∧
      requestName (rootRequest [97] [7] false) ≠ [46, 46] := by
    rw [h1]
    decide
  exact (delete_undoes_write (rootRequest [97] [7] false) (rootRequest [97] [] false) hc.ready
    hc.freeSlot hp (hc.parentOk hp.isInode hp.dir) (by
      rw [show (rootRequest [97] [7] false).parentInode.toNat = 1 from rfl, hf.rootBlocks]
      decide) (by decide) (hf.stop hdot.1 hdot.2).firstHit
    (hf.stop hdot.1 hdot.2).unnamed (hf.write_first _ rfl hdot.1 hdot.2).1 rfl
    (h2.trans h1.symm) rfl fun _ => 3).2

end LossOs.Ext2
