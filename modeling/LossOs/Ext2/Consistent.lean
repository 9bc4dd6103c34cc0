/-
  Consistent states of the file system.

  `reach d i` lists the blocks that can be reached from inode `i`. `Ownership` says that
  what an allocated inode reaches is data, in use, and reached from there only;
  `Consistent` adds counters, empty slots of free inodes and well-formed directories. On
  such a state `write`, `read` and `delete` take one look at the entry list of the parent
  (`write_eq`, `read_eq`, `delete_cases`).
-/
import LossOs.Ext2.Directory
import LossOs.Ext2.FileRead
import LossOs.Ext2.FileFree

namespace LossOs.Ext2

open LossOs.Lib

/-! ## Ownership -/

/-- The blocks that inode `i` reaches: those of a directory by its `i_blocks` pointers,
    those of anything else by its pointer tree. -/
def reach (d : Disk) (i : Nat) : List Nat :=
  if isDir d i then dirBlocks (slot d i) else treeBlocks d (slot d i)

/-- Every reachable block is a data block in use, and is reached from one place only. -/
structure Ownership (d : Disk) : Prop where
  data : ∀ i, IsInode i → inodeUsed d i = true → ∀ b ∈ reach d i,
    IsData b ∧ blockUsed d b = true
  nodup : ∀ i, IsInode i → inodeUsed d i = true → (reach d i).Nodup
  disjoint : ∀ i j, IsInode i → IsInode j → inodeUsed d i = true → inodeUsed d j = true →
    i ≠ j → ∀ b ∈ reach d i, b ∉ reach d j

theorem isDir_congr {d d' : Disk} {i : Nat} (h : iMode (slot d' i) = iMode (slot d i)) :
    isDir d' i = isDir d i := by
  unfold isDir; rw [h]

theorem isDir_zero {d : Disk} {i : Nat} (h : ∀ o, slot d i o = 0) : isDir d i = false := by
  unfold isDir iMode
  rw [rd16_eq_zero fun o _ _ => h o]
  rfl

theorem reach_of_dir {d : Disk} {i : Nat} (h : isDir d i = true) :
    reach d i = dirBlocks (slot d i) := by
  unfold reach
  rw [if_pos h]

theorem reach_of_not_dir {d : Disk} {i : Nat} (h : isDir d i = false) :
    reach d i = treeBlocks d (slot d i) := by
  unfold reach
  rw [h]
  exact if_neg (by decide)

/-- What a node reaches depends on its slot and on the blocks it reaches. -/
theorem reach_congr {d d' : Disk} {i : Nat} (hs : slot d' i = slot d i)
    (hd : ∀ b ∈ reach d i, d' b = d b) : reach d' i = reach d i := by
  have hdir : isDir d' i = isDir d i := isDir_congr (by rw [hs])
  cases h : isDir d i with
  | true => rw [reach_of_dir h, reach_of_dir (hdir.trans h), hs]
  | false =>
    rw [reach_of_not_dir h] at hd ⊢
    rw [reach_of_not_dir (hdir.trans h), hs]
    exact treeBlocks_congr (fun _ _ => rfl) hd

/-- A free slot reaches nothing. -/
theorem reach_zero {d : Disk} {i : Nat} (h : ∀ o, slot d i o = 0) : reach d i = [] := by
  rw [reach_of_not_dir (isDir_zero h)]
  exact treeBlocks_zero fun j _ => rd32_eq_zero fun o _ _ => h o

/-- Ownership survives when inodes get blocks that were free, each its own (`N`). -/
theorem Ownership.grow {d d' : Disk} (h : Ownership d) {L : List Nat} (N : Nat → List Nat)
    (hL : ∀ b ∈ L, IsData b ∧ blockUsed d b = false)
    (hused : ∀ b < 2048, blockUsed d' b = (blockUsed d b || decide (b ∈ L)))
    (hN : ∀ i, (N i).Nodup ∧ ∀ b ∈ N i, b ∈ L)
    (hNd : ∀ i j, i ≠ j → ∀ b ∈ N i, b ∉ N j)
    (hreach : ∀ i, IsInode i → inodeUsed d' i = true →
      (inodeUsed d i = true ∧ reach d' i = reach d i ++ N i) ∨ reach d' i = N i) :
    Ownership d' := by
  have hold : ∀ i, IsInode i → inodeUsed d i = true → ∀ b ∈ reach d i, ∀ j, b ∉ N j := by
    intro i hi hu b hb j hj
    have h1 := (h.data i hi hu b hb).2
    rw [(hL b ((hN j).2 b hj)).2] at h1
    cases h1
  have hmem : ∀ i, IsInode i → inodeUsed d' i = true → ∀ b ∈ reach d' i,
      (inodeUsed d i = true ∧ b ∈ reach d i) ∨ b ∈ N i := by
    intro i hi hu b hb
    rcases hreach i hi hu with ⟨hu', he⟩ | he
    · rw [he] at hb
      exact (List.mem_append.mp hb).imp (fun h => ⟨hu', h⟩) id
    · rw [he] at hb
      exact Or.inr hb
  refine ⟨fun i hi hu b hb => ?_, fun i hi hu => ?_, fun i j hi hj hui huj hne b hb hb' => ?_⟩
  · rcases hmem i hi hu b hb with ⟨hu', hb⟩ | hb
    · obtain ⟨h1, h2⟩ := h.data i hi hu' b hb
      refine ⟨h1, ?_⟩
      rw [hused b h1.1, h2]; rfl
    · obtain ⟨h1, h2⟩ := hL b ((hN i).2 b hb)
      refine ⟨h1, ?_⟩
      rw [hused b h1.1]
      simp [(hN i).2 b hb]
  · rcases hreach i hi hu with ⟨hu', he⟩ | he
    · rw [he]
      exact List.nodup_append.mpr ⟨h.nodup i hi hu', (hN i).1,
        fun a ha b hb hab => hold i hi hu' a ha i (hab ▸ hb)⟩
    · rw [he]; exact (hN i).1
  · rcases hmem i hi hui b hb with ⟨h1, h2⟩ | h2
    · rcases hmem j hj huj b hb' with ⟨h3, h4⟩ | h4
      · exact h.disjoint i j hi hj h1 h3 hne b h2 h4
      · exact hold i hi h1 b h2 j h4
    · rcases hmem j hj huj b hb' with ⟨h3, h4⟩ | h4
      · exact hold j hj h3 b h4 i h2
      · exact hNd i j hne b h2 h4

/-- Ownership survives when inodes go, and blocks that the others do not reach. -/
theorem Ownership.shrink {d d' : Disk} (h : Ownership d)
    (hsame : ∀ i, IsInode i → inodeUsed d' i = true →
      inodeUsed d i = true ∧ reach d' i = reach d i ∧ ∀ b ∈ reach d i, blockUsed d' b = true) :
    Ownership d' where
  data := fun i hi hu b hb => by
    obtain ⟨h1, h2, h3⟩ := hsame i hi hu
    rw [h2] at hb
    exact ⟨(h.data i hi h1 b hb).1, h3 b hb⟩
  nodup := fun i hi hu => by
    obtain ⟨h1, h2, -⟩ := hsame i hi hu
    rw [h2]; exact h.nodup i hi h1
  disjoint := fun i j hi hj hui huj hne b hb hb' => by
    obtain ⟨h1, h2, -⟩ := hsame i hi hui
    obtain ⟨h3, h4, -⟩ := hsame j hj huj
    rw [h2] at hb
    rw [h4] at hb'
    exact h.disjoint i j hi hj h1 h3 hne b hb hb'

/-! ## Consistent states -/

/-- An allocated directory. -/
structure IsDirectory (d : Disk) (p : Nat) : Prop where
  isInode : IsInode p
  used : inodeUsed d p = true
  dir : isDir d p = true

/-- A directory fits into the 15 pointers of its inode, and its blocks are tiled. -/
structure DirOk (d : Disk) (p : Nat) : Prop where
  size : iBlocks (slot d p) ≤ 15
  blocks : ∀ b ∈ dirBlocks (slot d p), IsDirBlock (d b)

/-- The slots of free inodes are zero. -/
abbrev FreeSlots (d : Disk) : Prop :=
  ∀ i, IsInode i → inodeUsed d i = false → ∀ o, slot d i o = 0

theorem FreeSlots.isDirectory {d : Disk} (h : FreeSlots d) {p : Nat} (hp : IsInode p)
    (hd : isDir d p = true) : IsDirectory d p := by
  refine ⟨hp, ?_, hd⟩
  by_contra hu
  rw [isDir_zero (h p hp (by simpa using hu))] at hd
  cases hd

structure Consistent (fs : Fs) : Prop where
  ready : Ready fs
  owned : Ownership fs.disk
  freeSlot : FreeSlots fs.disk
  dirOk : ∀ p, IsDirectory fs.disk p → DirOk fs.disk p
  dirFull : ∀ p, IsDirectory fs.disk p → ∀ b ∈ dirPtrs (slot fs.disk p), b ≠ 0

section Views

variable {fs : Fs} {p : Nat}

/-- The parent as `write`, `read` and `delete` load it. -/
theorem dirPtrs_view (hl : Layout fs) (hp : IsInode p) (h15 : iBlocks (slot fs.disk p) ≤ 15) :
    dirPtrs (view (fs.readBlocks (fs.inodeBlock p)) (slotOffset p)) =
      dirPtrs (slot fs.disk p) := by
  have hn : ∀ o < 70, view (fs.readBlocks (fs.inodeBlock p)) (slotOffset p) o =
      slot fs.disk p o := fun o ho => hl.node_apply hp ho
  unfold dirPtrs
  rw [iBlocks_congr hn]
  refine List.map_congr_left fun j hj => iBlock_congr hn ?_
  have := List.mem_range.mp hj
  omega

theorem iMode_view (hl : Layout fs) (hp : IsInode p) :
    iMode (view (fs.readBlocks (fs.inodeBlock p)) (slotOffset p)) = iMode (slot fs.disk p) :=
  iMode_congr fun _ ho => hl.node_apply hp ho

theorem isDir_eq_true {d : Disk} : isDir d p = true ↔ iMode (slot d p) &&& 0x4000 ≠ 0 := by
  simp [isDir]

theorem isDir_eq_false {d : Disk} : isDir d p = false ↔ iMode (slot d p) &&& 0x4000 = 0 := by
  simp [isDir]

end Views

/-- A directory in a consistent state is allocated. -/
theorem Consistent.isDirectory {fs : Fs} (hc : Consistent fs) {p : Nat} (hp : IsInode p)
    (hd : isDir fs.disk p = true) : IsDirectory fs.disk p := hc.freeSlot.isDirectory hp hd

/-! ## The three requests -/

/-- The record at which the pass of `write` over directory `p` stops. -/
def firstHit (request : EXT2DriverRequest) (d : Disk) (p : Nat) : Option (Nat × Rec) :=
  (dirRecords d (dirBlocks (slot d p))).find? fun q => q.2.named request || q.2.roomy request

section Requests

variable {request : EXT2DriverRequest} {fs : Fs}

theorem write_of_not_dir (hl : Layout fs) (hp : IsInode request.parentInode.toNat)
    (h : isDir fs.disk request.parentInode.toNat = false) : write request fs = (2, fs) := by
  unfold write
  dsimp only
  rw [if_neg (by have := hp.1; omega), iMode_view hl hp, if_pos (isDir_eq_false.mp h)]

theorem write_eq (hl : Layout fs) (hp : IsInode request.parentInode.toNat)
    (hd : isDir fs.disk request.parentInode.toNat = true)
    (hok : DirOk fs.disk request.parentInode.toNat) :
    write request fs = match firstHit request fs.disk request.parentInode.toNat with
      | some q => if q.2.named request then (1, fs) else writeHole request q.1 q.2.off fs
      | none =>
          writeGrow request (fs.readBlocks (inodeBlockAt request.parentInode.toNat)) fs := by
  unfold write
  dsimp only
  rw [if_neg (by have := hp.1; omega), iMode_view hl hp, if_neg (isDir_eq_true.mp hd),
    scanDir_eq (dirPtrs_view hl hp hok.size) hok.blocks, hl.inodeBlock_eq hp]
  unfold firstHit
  cases (dirRecords fs.disk (dirBlocks (slot fs.disk request.parentInode.toNat))).find? fun q =>
      q.2.named request || q.2.roomy request with
  | none => rfl
  | some q =>
    dsimp only [Option.map_some]
    unfold hitOf
    by_cases hn : q.2.named request = true
    · rw [if_pos hn, if_pos hn]
    · rw [if_neg hn, if_neg hn]

theorem delete_of_not_dir (hl : Layout fs) (hp : IsInode request.parentInode.toNat)
    (h : isDir fs.disk request.parentInode.toNat = false) : delete request fs = (-1, fs) := by
  unfold delete
  dsimp only
  rw [if_neg (by have := hp.1; omega), iMode_view hl hp, if_pos (isDir_eq_false.mp h)]

/-- What `delete` does with the record `r` of block `b`, the last record before it in the
    block being that of `xs`. -/
def deleteAt (request : EXT2DriverRequest) (b : Nat) (xs : List Rec) (r : Rec) (fs : Fs) :
    Int × Fs :=
  if request.isDirectory ∧ r.fileType ≠ 2 then (1, fs)
  else if request.isDirectory ∧ isDirectoryEmpty r.inode fs = false then (2, fs)
  else if ¬ request.isDirectory ∧ r.fileType ≠ 1 then (1, fs)
  else
    (0, syncMetadata ((deallocateNode r.inode fs).writeBlocks b
      (removeEntry (xs.getLast?.map Rec.off) r.off (fs.readBlocks b))))

/-- `delete` finds no live record of the name, or the first one. -/
theorem delete_cases (request : EXT2DriverRequest) (hl : Layout fs)
    (hp : IsInode request.parentInode.toNat)
    (hd : isDir fs.disk request.parentInode.toNat = true)
    (hok : DirOk fs.disk request.parentInode.toNat) :
    (delete request fs = (1, fs) ∧
      ∀ q ∈ dirRecords fs.disk (dirBlocks (slot fs.disk request.parentInode.toNat)),
        q.2.named request = false) ∨
    ∃ pre b post xs r ys,
      dirBlocks (slot fs.disk request.parentInode.toNat) = pre ++ b :: post ∧
      blockRecords (fs.disk b) = xs ++ r :: ys ∧ r.named request = true ∧
      (∀ q ∈ dirRecords fs.disk pre, q.2.named request = false) ∧
      (∀ q ∈ xs, q.named request = false) ∧
      delete request fs = deleteAt request b xs r fs := by
  unfold delete
  dsimp only
  rw [if_neg (by have := hp.1; omega), iMode_view hl hp, if_neg (isDir_eq_true.mp hd)]
  rcases findDir_cases request (dirPtrs_view hl hp hok.size) hok.blocks with
    ⟨he, hall⟩ | ⟨pre, b, post, xs, r, ys, hbs, hrs, hn, hpre, hxs, he⟩
  · left
    rw [he]
    exact ⟨rfl, hall⟩
  · right
    refine ⟨pre, b, post, xs, r, ys, hbs, hrs, hn, hpre, hxs, ?_⟩
    have hb := (hok.blocks b (by rw [hbs]; simp)).tiles_read
    have hrec := hb.recAt_eq r (by rw [hrs]; simp)
    have hin : entryInode (fs.readBlocks b) r.off = r.inode := congrArg Rec.inode hrec
    have hft : entryFileType (fs.readBlocks b) r.off = r.fileType := congrArg Rec.fileType hrec
    rw [he]
    dsimp only
    rw [hin, hft, if_neg (named_iff.mp hn).1]
    rfl

theorem read_of_not_dir (hl : Layout fs) (hp : IsInode request.parentInode.toNat)
    (h : isDir fs.disk request.parentInode.toNat = false) :
    read request fs = (-1, request.buf) := by
  unfold read
  dsimp only
  rw [if_neg (by have := hp.1; omega), iMode_view hl hp, if_pos (isDir_eq_false.mp h)]

/-- What `read` does with the entry that its search has found. -/
def readEntry (request : EXT2DriverRequest) (fs : Fs) : Option Entry → Int × Mem
  | none => (2, request.buf)
  | some e =>
      if e.fileType ≠ 1 then (1, request.buf)
      else
        let node := view (fs.readBlocks (fs.inodeBlock e.inode)) (slotOffset e.inode)
        if request.bufferSize.toNat < iSize node then (-1, request.buf)
        else (0, (copyFile fs node request.buf).out)

/-- `read` over a parent that has the block pointers `bs`. -/
theorem read_eq_blocks (hl : Layout fs) (hp : IsInode request.parentInode.toNat)
    (hd : isDir fs.disk request.parentInode.toNat = true) {bs : List Nat}
    (hptrs : dirPtrs (view (fs.readBlocks (fs.inodeBlock request.parentInode.toNat))
      (slotOffset request.parentInode.toNat)) = bs)
    (hfull : ∀ b ∈ bs, b ≠ 0) (hok : ∀ b ∈ bs, IsDirBlock (fs.disk b)) :
    read request fs = readEntry request fs ((blockEntries fs.disk bs).find?
      fun e => e.name == requestName request) := by
  unfold read
  dsimp only
  rw [if_neg (by have := hp.1; omega), iMode_view hl hp, if_neg (isDir_eq_true.mp hd)]
  generalize view (fs.readBlocks (fs.inodeBlock request.parentInode.toNat))
    (slotOffset request.parentInode.toNat) = parent at hptrs
  have hbs : dirBlocks parent = bs := by
    rw [dirBlocks_of_full (by rw [hptrs]; exact hfull), hptrs]
  rw [lookupDir_eq parent rfl (by rw [hptrs]; exact hfull) (by rw [hbs]; exact hok), hbs]
  cases (blockEntries fs.disk bs).find? fun e => e.name == requestName request with
  | none => rfl
  | some e => rfl

theorem read_eq (hl : Layout fs) (hp : IsInode request.parentInode.toNat)
    (hd : isDir fs.disk request.parentInode.toNat = true)
    (hok : DirOk fs.disk request.parentInode.toNat)
    (hfull : ∀ b ∈ dirPtrs (slot fs.disk request.parentInode.toNat), b ≠ 0) :
    read request fs = readEntry request fs ((entries fs.disk request.parentInode.toNat).find?
      fun e => e.name == requestName request) := by
  have hblocks := hok.blocks
  unfold entries
  rw [dirBlocks_of_full hfull] at hblocks ⊢
  exact read_eq_blocks hl hp hd (dirPtrs_view hl hp hok.size) hfull hblocks

end Requests

end LossOs.Ext2
