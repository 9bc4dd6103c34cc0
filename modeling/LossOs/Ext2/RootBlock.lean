/-
  File systems whose root directory has one block.

  `RootBlock` lists the records of that block, the inodes in use, and a number of blocks that are
  free. Other than with `RootState` there may be further directories. A `write` into the root that
  finds room behind a record is careful and succeeds (`RootBlock.write`).
-/
import LossOs.Ext2.Graft
import LossOs.Ext2.UniqueNames

namespace LossOs.Ext2

open LossOs.Lib

/-- Block 21 of the root directory holds the records `rs`, the inodes in `used` are in use, and at
    least `room` blocks are free. -/
structure RootBlock (fs : Fs) (rs : List Rec) (used : List Nat) (room : Nat) : Prop where
  tree : Tree fs
  blocks : dirBlocks (slot fs.disk 1) = [21]
  records : blockRecords (fs.disk 21) = rs
  inodes : ∀ j, IsInode j → inodeUsed fs.disk j = decide (j ∈ used)
  room : room ≤ (freeFrom fs.disk 0).card

/-- The only block of directory `p` is `b`, which holds the records `rs`. -/
structure OneBlock (d : Disk) (p b : Nat) (rs : List Rec) : Prop where
  blocks : dirBlocks (slot d p) = [b]
  records : blockRecords (d b) = rs

section RootBlock

variable {fs fs' : Fs} {rs xs ys : List Rec} {r : Rec} {used : List Nat} {room i b p : Nat}
    {d : Disk}
  {request : EXT2DriverRequest}

theorem Formatted.rootBlock (h : Formatted fs) : RootBlock fs (dotRecords 1 1) [1] 234 where
  tree := h.tree
  blocks := h.rootBlocks
  records := h.rootRecords
  inodes := fun j hj => by
    rw [h.inodes j hj]
    simp only [List.mem_singleton]
  room := by
    have hsub : Finset.Ico 22 256 ⊆ freeFrom fs.disk 0 := by
      intro b hb
      obtain ⟨h1, h2⟩ := Finset.mem_Ico.mp hb
      rw [mem_freeFrom, h.blocks b (by omega)]
      exact ⟨by omega, by omega, decide_eq_false (by omega)⟩
    have hcard := Finset.card_le_card hsub
    rwa [Nat.card_Ico] at hcard

theorem RootBlock.withStack (h : RootBlock fs rs used room) (s : Mem) :
    RootBlock (fs.withStack s) rs used room :=
  ⟨h.tree.withStack s, h.blocks, h.records, h.inodes, h.room⟩

/-- The inodes in use are the first ones. -/
theorem mem_of_lt {n : Nat} {l : List Nat} (h : ∀ j < n, 0 < j → j ∈ l) :
    ∀ j, 0 < j → j < n → j ∈ l := fun j h0 hn => h j hn h0

theorem RootBlock.root (h : RootBlock fs rs used room) : IsDirectory fs.disk 1 :=
  h.tree.sound.noDangling.root

theorem OneBlock.entries_eq (h : OneBlock d p b rs) : entries d p = live rs := by
  unfold entries
  rw [h.blocks, blockEntries_cons, h.records]
  exact List.append_nil _

theorem OneBlock.iBlocks_eq (h : OneBlock fs.disk p b rs) (ht : Tree fs)
    (hp : IsDirectory fs.disk p) : iBlocks (slot fs.disk p) = 1 := by
  have hlen := congrArg List.length (dirBlocks_of_full (ht.consistent.dirFull p hp))
  unfold dirPtrs at hlen
  rw [h.blocks, List.length_map, List.length_range] at hlen
  exact hlen.symm

theorem RootBlock.oneBlock (h : RootBlock fs rs used room) : OneBlock fs.disk 1 21 rs :=
  ⟨h.blocks, h.records⟩

theorem RootBlock.entries_eq (h : RootBlock fs rs used room) : entries fs.disk 1 = live rs :=
  h.oneBlock.entries_eq

theorem RootBlock.iBlocks_eq (h : RootBlock fs rs used room) : iBlocks (slot fs.disk 1) = 1 :=
  h.oneBlock.iBlocks_eq h.tree h.root

theorem RootBlock.firstFreeInode_eq (h : RootBlock fs rs used room) (hi : IsInode i)
    (hnew : i ∉ used) (hfirst : ∀ j, 0 < j → j < i → j ∈ used) : firstFreeInode fs.disk = some i :=
  LossOs.Ext2.firstFreeInode_eq hi (by rw [h.inodes i hi, decide_eq_false hnew]) fun j hj hlt => by
    rw [h.inodes j hj, decide_eq_true (hfirst j hj.1 hlt)]

/-- The inodes in use when one was taken. -/
theorem Added.used_eq (h : Added request fs fs' i)
    (hu : ∀ j, IsInode j → inodeUsed fs.disk j = decide (j ∈ used)) :
    ∀ j, IsInode j → inodeUsed fs'.disk j = decide (j ∈ i :: used) := by
  intro j hj
  rw [Bool.eq_iff_iff, h.grafted.used j hj, hu j hj, decide_eq_true_iff, decide_eq_true_iff,
    List.mem_cons, or_comm]

/-- `write` takes no more blocks than are needed. -/
theorem Made.length_le {d₀ d : Disk} {ni : Mem} {L X : List Nat} (h : Made request i d₀ d ni L X)
    (hroom : needed request ≤ 2048) : L.length ≤ needed request := by
  cases h with
  | file t hreg hat =>
    unfold needed at hroom ⊢
    rw [hreg] at hroom ⊢
    obtain ⟨hle, hfull, hpart⟩ := hat.shape.length_blocks
    rw [@blockCount_exact request _ hroom le_rfl] at hle hfull hpart
    rcases hle.lt_or_eq with hlt | heq
    · exact (hpart hlt).le
    · exact (hfull heq).le
  | dir b hdir =>
    unfold needed
    rw [hdir]
    exact le_rfl
  | fallback hdir => exact Nat.zero_le _

/-- Room behind record `r` of the parent's only block suffices for a `write`. -/
theorem Tree.write_behind (request : EXT2DriverRequest) (xs : List Rec) (ht : Tree fs)
    (hp : IsDirectory fs.disk request.parentInode.toNat)
    (hb : OneBlock fs.disk request.parentInode.toNat b (xs ++ r :: ys))
    (hx : ∀ q ∈ xs, q.named request = false ∧ q.roomy request = false)
    (hr : r.named request = false ∧ r.roomy request = true)
    (hfree : firstFreeInode fs.disk = some i)
    (hroom : needed request ≤ (freeFrom fs.disk (inodeToBgd i)).card) :
    (Careful (.write request) fs ∧ Creates request fs.disk ∧ HasRoom request fs.disk) ∧
      (write request fs).1 = 0 ∧ Added request fs (write request fs).2 i ∧
      (isDirRequest request = false →
        iSize (slot (write request fs).2.disk i) = request.bufferSize.toNat ∧
          SameFile (write request fs).2 (write request fs).2 i i) ∧
      OneBlock (write request fs).2.disk request.parentInode.toNat b
        (xs ++ { r with recLen := r.size } ::
          newRec request i (r.off + r.size) (r.recLen - r.size) :: ys) ∧
      (freeFrom fs.disk 0).card ≤ (freeFrom (write request fs).2.disk 0).card + needed request := by
  have hc := ht.consistent
  have hs : Stop request fs.disk request.parentInode.toNat b r [] [] xs ys :=
    ⟨hb.blocks, hb.records, (roomy_iff.mp hr.2).1, (roomy_iff.mp hr.2).2, hr.1,
      by simp [dirRecords], hx⟩
  have hhit : firstHit request fs.disk request.parentInode.toNat = some (b, r) := hs.firstHit
  have hleft : needed request ≤ (roomFrom request fs.disk (inodeToBgd i)).card := by
    rwa [roomFrom_of_hit hhit]
  -- the call is careful
  have hok : Careful (.write request) fs := by
    refine ⟨⟨hp.isInode.2, fun request' hc' _ => ?_, fun _ _ hc' => by cases hc'⟩,
      fun request' hc' _ hmiss => ?_, fun _ _ hc' => by cases hc'⟩
    · obtain rfl : request = request' := Call.write.inj hc'
      refine ⟨fun hmiss => ?_, fun hdir j hj => ?_⟩
      · rw [hhit] at hmiss
        cases hmiss
      · obtain rfl : i = j := Option.some.inj (hfree.symm.trans hj)
        refine Finset.card_pos.mp (lt_of_lt_of_le ?_ hleft)
        unfold needed
        rw [hdir]
        exact Nat.one_pos
    · obtain rfl : request = request' := Call.write.inj hc'
      rw [hhit] at hmiss
      cases hmiss
  have hcreates : Creates request fs.disk :=
    ⟨by have := hp.isInode.1; omega, hp.dir, ⟨i, hfree⟩, Or.inl ⟨_, hhit, hr.1⟩⟩
  have hhas : HasRoom request fs.disk := fun j hj => by
    obtain rfl : i = j := Option.some.inj (hfree.symm.trans hj)
    exact hleft
  have h0 : (write request fs).1 = 0 := write_creates hc hp hcreates
  have hadd : Added request fs (write request fs).2 i := by
    rcases ht.write_added hok with ⟨hne, -⟩ | ⟨-, -, j, hj, -, hadd⟩
    · exact absurd h0 hne
    · obtain rfl : i = j := Option.some.inj (hfree.symm.trans hj)
      exact hadd
  refine ⟨⟨hok, hcreates, hhas⟩, h0, hadd, fun hreg => ?_, ?_⟩
  · refine hadd.whole hreg hc hp hfree (fun hmiss => ?_) hhas
    rw [hhit] at hmiss
    cases hmiss
  obtain ⟨-, ni, L, X, hh⟩ := write_hole request hc.ready hc.freeSlot hp.isInode hp.dir
    (hc.parentOk hp.isInode hp.dir) hhit hr.1 hfree
  generalize (write request fs).2 = fs' at hadd hh ⊢
  have hne := (hh.ne_parent hp).symm
  refine ⟨⟨?_, (hh.records hs (hc.dirBlock hp hs.mem).2.2).blockRecords_eq⟩, ?_⟩
  · rw [hh.slot_eq hp.isInode hne]
    exact hb.blocks
  · have hsub : freeFrom fs.disk 0 \ L.toFinset ⊆ freeFrom fs'.disk 0 := by
      intro c hcL
      obtain ⟨hcL, hL⟩ := Finset.mem_sdiff.mp hcL
      obtain ⟨h1, h2, h3⟩ := mem_freeFrom.mp hcL
      refine mem_freeFrom.mpr ⟨h1, h2, ?_⟩
      rw [hh.took.blocks c h1, h3, Bool.false_or]
      exact decide_eq_false fun hm => hL (List.mem_toFinset.mpr hm)
    have hlen := hh.made.length_le (hroom.trans (card_freeFrom_le _ _))
    have h1 := Finset.le_card_sdiff L.toFinset (freeFrom fs.disk 0)
    have h2 := Finset.card_le_card hsub
    have h3 := L.toFinset_card_le
    omega

/-- The same in the root directory. -/
theorem RootBlock.write (request : EXT2DriverRequest) (xs : List Rec) (i : Nat)
    (h : RootBlock fs (xs ++ r :: ys) used room) (hp : request.parentInode = 1)
    (hx : ∀ q ∈ xs, q.named request = false ∧ q.roomy request = false)
    (hr : r.named request = false ∧ r.roomy request = true) (hi : IsInode i) (hnew : i ∉ used)
    (hfirst : ∀ j, 0 < j → j < i → j ∈ used) (hg : inodeToBgd i = 0)
    (hroom : needed request ≤ room) :
    (Careful (.write request) fs ∧ Creates request fs.disk ∧ HasRoom request fs.disk) ∧
      (write request fs).1 = 0 ∧ Added request fs (LossOs.Ext2.write request fs).2 i ∧
      (isDirRequest request = false →
        iSize (slot (LossOs.Ext2.write request fs).2.disk i) = request.bufferSize.toNat ∧
          SameFile (LossOs.Ext2.write request fs).2 (LossOs.Ext2.write request fs).2 i i) ∧
      RootBlock (LossOs.Ext2.write request fs).2 (xs ++ { r with recLen := r.size } ::
        newRec request i (r.off + r.size) (r.recLen - r.size) :: ys) (i :: used)
        (room - needed request) := by
  have hone : request.parentInode.toNat = 1 := by rw [hp]; rfl
  have hle := hroom.trans h.room
  have hfree := h.firstFreeInode_eq hi hnew hfirst
  rw [← hg] at hle
  obtain ⟨hok, h0, hadd, hwhole, hb, hcard⟩ := h.tree.write_behind request xs
    (by rw [hone]; exact h.root) (by rw [hone]; exact h.oneBlock) hx hr hfree hle
  rw [hone] at hb
  refine ⟨hok, h0, hadd, hwhole, hadd.tree, hb.blocks, hb.records, hadd.used_eq h.inodes, ?_⟩
  have := h.room
  omega

end RootBlock

/-! ## Two files -/

/-- A file `a` of `n` zeros in the root directory. -/
def pageRequest (n : UInt32) : EXT2DriverRequest := { fileRequest 97 with bufferSize := n }

/-- A fresh file system with an empty file `x` at inode 2 and then the file `a`. -/
def pageFs (n : UInt32) : Fs := (write (pageRequest n) (write (fileRequest 120) freshFs).2).2

/-- The records of its root directory. -/
def pageRecords : List Rec :=
  [⟨0, 1, 12, [46], 2⟩, ⟨12, 1, 12, [46, 46], 2⟩, ⟨24, 2, 12, [120], 1⟩, ⟨36, 3, 476, [97], 1⟩]

theorem pageFs_root {n : UInt32} (hn : needed (pageRequest n) ≤ 17) :
    RootBlock (pageFs n) pageRecords [3, 2, 1] 217 ∧
    iSize (slot (pageFs n).disk 3) = n.toNat ∧ SameFile (pageFs n) (pageFs n) 3 3 := by
  obtain ⟨-, -, -, -, h₁⟩ := isFresh_freshFs.formatted.rootBlock.write (fileRequest 120)
    [⟨0, 1, 12, [46], 2⟩] 2 rfl (by decide) (by decide) (by decide) (by decide)
    (mem_of_lt (by decide)) (by decide) (by decide)
  unfold pageFs
  generalize (write (fileRequest 120) freshFs).2 = fs at h₁ ⊢
  replace h₁ : RootBlock fs ([⟨0, 1, 12, [46], 2⟩, ⟨12, 1, 12, [46, 46], 2⟩] ++
    [⟨24, 2, 488, [120], 1⟩]) [2, 1] 234 := h₁
  obtain ⟨-, -, -, hwhole, h₂⟩ := h₁.write (pageRequest n) _ 3 rfl
    (show ∀ q ∈ [⟨0, 1, 12, [46], 2⟩, ⟨12, 1, 12, [46, 46], 2⟩],
      Rec.named (fileRequest 97) q = false ∧ Rec.roomy (fileRequest 97) q = false by decide)
    (show Rec.named (fileRequest 97) ⟨24, 2, 488, [120], 1⟩ = false ∧
      Rec.roomy (fileRequest 97) ⟨24, 2, 488, [120], 1⟩ = true by decide)
    (by decide) (by decide) (mem_of_lt (by decide)) (by decide) (hn.trans (by decide))
  have hreg : isDirRequest (pageRequest n) = false := Bool.and_false _
  have hnew : newRec (pageRequest n) 3 36 476 = ⟨36, 3, 476, [97], 1⟩ := by
    unfold newRec
    rw [requestFileType_file hreg]
    rfl
  have hrecords : blockRecords ((write (pageRequest n) fs).2.disk 21) =
      [⟨0, 1, 12, [46], 2⟩, ⟨12, 1, 12, [46, 46], 2⟩] ++
        [⟨24, 2, 12, [120], 1⟩, newRec (pageRequest n) 3 36 476] := h₂.records
  rw [hnew] at hrecords
  obtain ⟨hsize, hsame⟩ := hwhole hreg
  exact ⟨⟨h₂.tree, h₂.blocks, hrecords, h₂.inodes, le_trans (by omega) h₂.room⟩, hsize, hsame⟩

/-! ## An empty directory -/

/-- Directory `i` has one block, and only `.` and `..` in it. -/
structure Hollow (d : Disk) (i : Nat) : Prop where
  dir : IsDirectory d i
  single : iBlocks (slot d i) = 1
  empty : proper d i = []

theorem Hollow.kept {d d' : Disk} {i : Nat} (h : Hollow d i) (hk : Intact d d' i) :
    Hollow d' i := by
  refine ⟨hk.isDirectory_iff.mpr h.dir, by rw [hk.node]; exact h.single, ?_⟩
  unfold proper
  rw [hk.entries_eq h.dir]
  exact h.empty

theorem Hollow.under {d : Disk} {i j : Nat} (h : Hollow d i) (hj : Under d i j) : j = i := by
  rcases LinkGraph.below_iff.mp hj with h' | ⟨-, a, ha, hP, -⟩
  · exact h'.symm
  · rw [graphOf_links] at ha
    have hm := mem_proper.mpr ⟨ha, hP⟩
    rw [h.empty] at hm
    cases hm

/-- A new directory is one. -/
theorem Added.hollow {request : EXT2DriverRequest} {fs : Fs} {i : Nat}
    (h : Added request fs (write request fs).2 i) (ht : Tree fs) (hok : Careful (.write request) fs)
    (hdir : isDirRequest request = true) : Hollow (write request fs).2.disk i := by
  obtain ⟨hd, hnone⟩ := h.dir hdir
  refine ⟨hd, ?_, hnone⟩
  rcases ht.sound.write_careful hok with ⟨-, hq⟩ | ⟨-, hp, j, ni, L, hnew, -⟩
  · have hu := (h.grafted.fresh i rfl).2
    rw [← hq.inodes i hd.isInode, hd.used] at hu
    cases hu
  · obtain rfl : i = j := by
      by_contra hne
      have hu := (h.grafted.fresh i rfl).2
      have hu' := hd.used
      rw [hnew.inodes i hd.isInode] at hu'
      simp [hu, hne] at hu'
    obtain ⟨-, -, b, hb, hrec⟩ := hnew.newDir hd
    exact (⟨hb, hrec⟩ : OneBlock (write request fs).2.disk i b _).iBlocks_eq h.tree hd

/-- A fresh file system with an empty file `x` at inode 2 and then an empty directory `d`. -/
def hollowFs : Fs := (write (rootRequest [100] [] true) (write (fileRequest 120) freshFs).2).2

/-- The records of its root directory. -/
def hollowRecords : List Rec :=
  [⟨0, 1, 12, [46], 2⟩, ⟨12, 1, 12, [46, 46], 2⟩, ⟨24, 2, 12, [120], 1⟩, ⟨36, 3, 476, [100], 2⟩]

theorem hollowFs_root : RootBlock hollowFs hollowRecords [3, 2, 1] 233 ∧
    Hollow hollowFs.disk 3 := by
  obtain ⟨-, -, -, -, h₁⟩ := isFresh_freshFs.formatted.rootBlock.write (fileRequest 120)
    [⟨0, 1, 12, [46], 2⟩] 2 rfl (by decide) (by decide) (by decide) (by decide)
    (mem_of_lt (by decide)) (by decide) (by decide)
  unfold hollowFs
  generalize (write (fileRequest 120) freshFs).2 = fs at h₁ ⊢
  obtain ⟨⟨hok, -⟩, -, hadd, -, h₂⟩ := h₁.write (rootRequest [100] [] true)
    [⟨0, 1, 12, [46], 2⟩, ⟨12, 1, 12, [46, 46], 2⟩] 3 rfl (by decide) (by decide) (by decide)
    (by decide) (mem_of_lt (by decide)) (by decide) (by decide)
  exact ⟨h₂, hadd.hollow h₁.tree hok rfl⟩

/-! ## A program in `/bin` -/

/-- `shell` of 512 bytes in `/bin`. -/
def shellRequest : EXT2DriverRequest :=
  { rootRequest [115, 104, 101, 108, 108] [] false with parentInode := 2, bufferSize := 512 }

/-- The file system that `write` leaves. -/
def written (request : EXT2DriverRequest) (fs : Fs) : Fs := (write request fs).2

theorem written_eq (request : EXT2DriverRequest) (fs : Fs) :
    written request fs = (write request fs).2 :=
  rfl

/-- A fresh file system with `/bin` and then `shell` in it. -/
def shellFs : Fs := written shellRequest binFs

theorem shellFs_eq : shellFs = (write shellRequest binFs).2 :=
  (show shellFs = written shellRequest binFs from rfl).trans (written_eq _ _)

theorem binFs_rootBlock : RootBlock binFs
    [⟨0, 1, 12, [46], 2⟩, ⟨12, 1, 12, [46, 46], 2⟩, ⟨24, 2, 488, [98, 105, 110], 2⟩] [2, 1] 233 ∧
    ∃ b, OneBlock binFs.disk 2 b (dotRecords 2 1) := by
  have hf := isFresh_freshFs.formatted
  obtain ⟨-, -, -, -, h⟩ := hf.rootBlock.write binRequest [⟨0, 1, 12, [46], 2⟩] 2 rfl (by decide)
    (by decide) (by decide) (by decide) (mem_of_lt (by decide)) (by decide) (by decide)
  obtain ⟨-, -, -, ni, L, hnew⟩ := @Formatted.write_root binRequest _ hf rfl (by decide) (by decide)
  obtain ⟨-, -, hbin, -⟩ := binFs_root
  rw [← show binFs = (write binRequest freshFs).2 from rfl] at h hnew
  generalize binFs = fs at h hnew hbin ⊢
  obtain ⟨-, -, b, hb, hrecords⟩ := hnew.newDir hbin
  exact ⟨h, b, hb, hrecords⟩

section Shell

variable {fs fs' : Fs} {b : Nat}

/-- `write` puts `shell` behind `..` of `/bin`. -/
theorem RootBlock.write_shell (h : RootBlock fs
      [⟨0, 1, 12, [46], 2⟩, ⟨12, 1, 12, [46, 46], 2⟩, ⟨24, 2, 488, [98, 105, 110], 2⟩] [2, 1] 233)
    (hbin : IsDirectory fs.disk 2) (hb : OneBlock fs.disk 2 b (dotRecords 2 1)) :
    Added shellRequest fs (LossOs.Ext2.write shellRequest fs).2 3 ∧
      OneBlock (LossOs.Ext2.write shellRequest fs).2.disk 2 b
        [⟨0, 2, 12, [46], 2⟩, ⟨12, 1, 12, [46, 46], 2⟩,
        ⟨24, 3, 488, [115, 104, 101, 108, 108], 1⟩] := by
  have hneeded : needed shellRequest ≤ 233 := by decide
  have hfree : firstFreeInode fs.disk = some 3 :=
    h.firstFreeInode_eq (by decide) (by decide) (mem_of_lt (by decide))
  obtain ⟨-, -, hadd, -, hb', -⟩ := h.tree.write_behind shellRequest [⟨0, 2, 12, [46], 2⟩] hbin hb
    (by decide) (by decide) hfree (hneeded.trans h.room)
  have hreg : isDirRequest shellRequest = false := Bool.and_false _
  have hnew : newRec shellRequest 3 24 488 = ⟨24, 3, 488, [115, 104, 101, 108, 108], 1⟩ := by
    unfold newRec
    rw [requestFileType_file hreg]
    rfl
  replace hb' : OneBlock (LossOs.Ext2.write shellRequest fs).2.disk 2 b
      ([⟨0, 2, 12, [46], 2⟩] ++ [⟨12, 1, 12, [46, 46], 2⟩, newRec shellRequest 3 24 488]) := hb'
  rw [hnew] at hb'
  exact ⟨hadd, hb'⟩

/-- The records of the root are as before. -/
theorem RootBlock.added {rs : List Rec} {used : List Nat} {room : Nat}
    (h : RootBlock fs rs used room) {request : EXT2DriverRequest} {i : Nat}
    (hadd : Added request fs fs' i) (hp : request.parentInode ≠ 1) :
    RootBlock fs' rs (i :: used) 0 := by
  have hk : Intact fs.disk fs'.disk 1 :=
    hadd.grafted.kept 1 h.root.isInode h.root.used fun h1 => hp (UInt32.toNat_inj.mp h1.symm)
  have h21 : 21 ∈ reach fs.disk 1 := by
    rw [reach_of_dir h.root.dir, h.blocks]
    exact List.mem_singleton_self 21
  refine ⟨hadd.tree, ?_, ?_, hadd.used_eq h.inodes, Nat.zero_le _⟩
  · rw [hk.node]
    exact h.blocks
  · rw [hk.blocks 21 h21]
    exact h.records

theorem Added.not_isDirectory (hbin : IsDirectory fs.disk 2) (hadd : Added shellRequest fs fs' 3)
    (hb : OneBlock fs'.disk 2 b [⟨0, 2, 12, [46], 2⟩, ⟨12, 1, 12, [46, 46], 2⟩,
      ⟨24, 3, 488, [115, 104, 101, 108, 108], 1⟩]) : ¬ IsDirectory fs'.disk 3 := by
  intro hd
  have hm : (⟨[115, 104, 101, 108, 108], 3, 1⟩ : Entry) ∈ LossOs.Ext2.entries fs'.disk 2 := by
    rw [show LossOs.Ext2.entries fs'.disk 2 = _ from hb.entries_eq]
    decide
  cases (hadd.tree.sound.noDangling.isDir_iff (hadd.grafted.isDirectory hbin) hm).mp hd

end Shell

theorem shellFs_root : RootBlock shellFs
    [⟨0, 1, 12, [46], 2⟩, ⟨12, 1, 12, [46, 46], 2⟩, ⟨24, 2, 488, [98, 105, 110], 2⟩] [3, 2, 1] 0 ∧
    IsDirectory shellFs.disk 2 ∧ ¬ IsDirectory shellFs.disk 3 ∧
    ∃ b, OneBlock shellFs.disk 2 b [⟨0, 2, 12, [46], 2⟩, ⟨12, 1, 12, [46, 46], 2⟩,
      ⟨24, 3, 488, [115, 104, 101, 108, 108], 1⟩] := by
  obtain ⟨h, b, hb⟩ := binFs_rootBlock
  obtain ⟨-, -, hbin, -⟩ := binFs_root
  obtain ⟨hadd, hb'⟩ := h.write_shell hbin hb
  rw [← shellFs_eq] at hadd hb'
  generalize shellFs = fs' at hadd hb' ⊢
  exact ⟨h.added hadd (by decide), hadd.grafted.isDirectory hbin, hadd.not_isDirectory hbin hb', b,
    hb'⟩

end LossOs.Ext2
