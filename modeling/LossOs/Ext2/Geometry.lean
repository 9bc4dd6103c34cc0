/-
  The geometry of the file system is never changed.

  No function of the driver changes where a cached descriptor points to: whatever the disk holds,
  after any call the bitmaps and inode tables are looked for where they were before
  (`write_geometry`, `delete_geometry`). So a layout that was loaded once stays (`Layout.call`).
-/
import LossOs.Ext2.Runs

namespace LossOs.Ext2

open LossOs.Lib

/-- Where the descriptors point to. -/
def Fs.geometry (fs : Fs) (g : Nat) : UInt32 × UInt32 × UInt32 :=
  ((fs.bgdtCache g).bgBlockBitmap, (fs.bgdtCache g).bgInodeBitmap, (fs.bgdtCache g).bgInodeTable)

section Stores

variable (fs : Fs)

@[simp] theorem writeBlocks_geometry (n : Nat) (buf : Mem) :
    (fs.writeBlocks n buf).geometry = fs.geometry := rfl

@[simp] theorem superBlock_geometry (sb : EXT2Superblock) :
    ({ fs with superBlock := sb } : Fs).geometry = fs.geometry := rfl

@[simp] theorem syncMetadata_geometry : (syncMetadata fs).geometry = fs.geometry := rfl

/-- A descriptor is only ever counted in. -/
theorem modifyDesc_geometry (bg : Nat) {f : EXT2BlockGroupDescriptor → EXT2BlockGroupDescriptor}
    (h : ∀ d, (f d).bgBlockBitmap = d.bgBlockBitmap ∧ (f d).bgInodeBitmap = d.bgInodeBitmap ∧
      (f d).bgInodeTable = d.bgInodeTable) : (fs.modifyDesc bg f).geometry = fs.geometry := by
  funext g
  unfold Fs.geometry
  by_cases hg : g = bg
  · subst hg
    obtain ⟨h1, h2, h3⟩ := h (fs.bgdtCache g)
    rw [modifyDesc_same, h1, h2, h3]
  · rw [modifyDesc_of_ne hg]

@[simp] theorem modifyDesc_blocks_geometry (bg : Nat)
    (c : EXT2BlockGroupDescriptor → UInt16) : (fs.modifyDesc bg fun d =>
      { d with bgFreeBlocksCount := c d }).geometry = fs.geometry :=
  modifyDesc_geometry fs bg fun _ => ⟨rfl, rfl, rfl⟩

@[simp] theorem modifyDesc_inodes_geometry (bg : Nat)
    (c : EXT2BlockGroupDescriptor → UInt16) : (fs.modifyDesc bg fun d =>
      { d with bgFreeInodesCount := c d }).geometry = fs.geometry :=
  modifyDesc_geometry fs bg fun _ => ⟨rfl, rfl, rfl⟩

@[simp] theorem modifyDesc_dirs_geometry (bg : Nat)
    (c : EXT2BlockGroupDescriptor → UInt16) : (fs.modifyDesc bg fun d =>
      { d with bgUsedDirsCount := c d }).geometry = fs.geometry :=
  modifyDesc_geometry fs bg fun _ => ⟨rfl, rfl, rfl⟩

end Stores

/-! ## `write` -/

section Write

variable {fs fs' : Fs}

@[simp] theorem takeBit_geometry (bg idx : Nat) (bmp : Mem) (fs : Fs) :
    (takeBit bg idx bmp fs).geometry = fs.geometry := by
  unfold takeBit
  dsimp only
  rw [superBlock_geometry, modifyDesc_blocks_geometry, writeBlocks_geometry]

@[simp] theorem takeInode_geometry (i idx : Nat) (bmp : Mem) (fs : Fs) :
    (takeInode i idx bmp fs).geometry = fs.geometry := by
  unfold takeInode
  dsimp only
  rw [syncMetadata_geometry, superBlock_geometry, modifyDesc_inodes_geometry, writeBlocks_geometry]

theorem searchBlock_geometry {pref b : Nat} (h : searchBlock pref fs = some (b, fs')) :
    fs'.geometry = fs.geometry := by
  obtain ⟨bg, -, hbg⟩ := List.exists_of_findSome?_eq_some h
  split at hbg
  · obtain ⟨idx, -, he⟩ := Option.map_eq_some_iff.mp hbg
    rw [← (Prod.mk.inj he).2, takeBit_geometry]
  · cases hbg

@[simp] theorem allocateNode_geometry (fs : Fs) : (allocateNode fs).2.geometry = fs.geometry := by
  unfold allocateNode
  generalize hs : List.findSome? _ _ = r
  cases r with
  | none => rfl
  | some r =>
    obtain ⟨bg, -, hbg⟩ := List.exists_of_findSome?_eq_some hs
    split at hbg
    · obtain ⟨idx, -, he⟩ := Option.map_eq_some_iff.mp hbg
      rw [Option.getD_some, ← he]
      exact takeInode_geometry ..
    · cases hbg

theorem allocDirect_geometry (data : Mem) (pref : Nat) : ∀ (k i : Nat) (node : Mem) (a : Nat)
    (fs : Fs), (allocDirect data pref k i node a fs).2.2.geometry = fs.geometry
  | 0, _, _, _, _ => rfl
  | k + 1, i, node, a, fs => by
    unfold allocDirect
    split
    · split
      · rfl
      · rename_i b fs₁ hs
        dsimp only
        rw [allocDirect_geometry data pref k, writeBlocks_geometry, searchBlock_geometry hs]
    · rfl

theorem allocPtrs_geometry (data node : Mem) (pref : Nat) : ∀ (k j : Nat) (ptrBuf : Mem) (a : Nat)
    (fs : Fs), (allocPtrs data node pref k j ptrBuf a fs).2.2.geometry = fs.geometry
  | 0, _, _, _, _ => rfl
  | k + 1, j, ptrBuf, a, fs => by
    unfold allocPtrs
    split
    · split
      · rfl
      · rename_i b fs₁ hs
        rw [allocPtrs_geometry data node pref k, writeBlocks_geometry, searchBlock_geometry hs]
    · rfl

theorem allocDouble_geometry (data node : Mem) (pref : Nat) : ∀ (k j : Nat) (dblBuf : Mem)
    (a : Nat) (fs : Fs), (allocDouble data node pref k j dblBuf a fs).2.2.geometry = fs.geometry
  | 0, _, _, _, _ => rfl
  | k + 1, j, dblBuf, a, fs => by
    unfold allocDouble
    split
    · split
      · rfl
      · rename_i b fs₁ hs
        dsimp only
        rw [allocDouble_geometry data node pref k, writeBlocks_geometry, allocPtrs_geometry,
          searchBlock_geometry hs]
    · rfl

theorem allocSingle_geometry (data : Mem) (pref : Nat) (node : Mem) (a : Nat) (fs : Fs) :
    (allocSingle data pref node a fs).2.2.geometry = fs.geometry := by
  unfold allocSingle
  split
  · split
    · rfl
    · rename_i b fs₁ hs
      dsimp only
      split
      · rw [writeBlocks_geometry, allocPtrs_geometry, searchBlock_geometry hs]
      · exact searchBlock_geometry hs
  · rfl

theorem allocDoubleIndirect_geometry (data : Mem) (pref : Nat) (node : Mem) (a : Nat) (fs : Fs) :
    (allocDoubleIndirect data pref node a fs).2.2.geometry = fs.geometry := by
  unfold allocDoubleIndirect
  split
  · split
    · rfl
    · rename_i b fs₁ hs
      dsimp only
      split
      · rw [writeBlocks_geometry, allocDouble_geometry, searchBlock_geometry hs]
      · exact searchBlock_geometry hs
  · rfl

@[simp] theorem allocateNodeBlocks_geometry (data node : Mem) (pref : Nat) (fs : Fs) :
    (allocateNodeBlocks data node pref fs).2.geometry = fs.geometry := by
  unfold allocateNodeBlocks
  dsimp only
  rw [syncMetadata_geometry, allocDoubleIndirect_geometry, allocSingle_geometry,
    allocDirect_geometry]

@[simp] theorem pickDirBlock_geometry (bgd : Nat) (fs : Fs) :
    (pickDirBlock bgd fs).2.geometry = fs.geometry := by
  unfold pickDirBlock
  split
  · split
    · rename_i r hs
      exact searchBlock_geometry hs
    · rfl
  · rfl

@[simp] theorem initDirectoryTable_geometry (node : Mem) (inode parentInode : Nat) (fs : Fs) :
    (initDirectoryTable node inode parentInode fs).2.geometry = fs.geometry := by
  unfold initDirectoryTable
  dsimp only
  split
  · simp
  · simp

@[simp] theorem createNode_geometry (request : EXT2DriverRequest) (newIno : Nat) (fs : Fs) :
    (createNode request newIno fs).geometry = fs.geometry := by
  unfold createNode syncNode buildNode
  dsimp only
  split <;> split <;> simp

@[simp] theorem writeHole_geometry (request : EXT2DriverRequest) (blk off : Nat) (fs : Fs) :
    (writeHole request blk off fs).2.geometry = fs.geometry := by
  unfold writeHole
  dsimp only
  split <;> simp

@[simp] theorem growGroup_geometry (bg : Nat) (fs : Fs) :
    (growGroup bg fs).2.geometry = fs.geometry := by
  unfold growGroup
  dsimp only
  split
  · rfl
  · split
    · simp
    · split <;> simp

@[simp] theorem growSearch_geometry (bgs : List Nat) (fs : Fs) :
    (growSearch bgs fs).2.geometry = fs.geometry := by
  induction bgs generalizing fs with
  | nil => rfl
  | cons bg bgs ih =>
    unfold growSearch
    split
    · dsimp only
      split
      · simp
      · rw [ih, growGroup_geometry]
    · exact ih fs

@[simp] theorem writeGrow_geometry (request : EXT2DriverRequest) (buf : Mem) (fs : Fs) :
    (writeGrow request buf fs).2.geometry = fs.geometry := by
  unfold writeGrow
  dsimp only
  split
  · simp
  · split <;> simp

theorem write_geometry (request : EXT2DriverRequest) (fs : Fs) :
    (write request fs).2.geometry = fs.geometry := by
  unfold write
  dsimp only
  split
  · rfl
  · split
    · rfl
    · split <;> simp

end Write

/-! ## `delete` -/

@[simp] theorem freeBlock_geometry (fs : Fs) (b : Nat) :
    (freeBlock fs b).geometry = fs.geometry := by
  unfold freeBlock
  dsimp only
  rw [superBlock_geometry, modifyDesc_blocks_geometry, writeBlocks_geometry]

@[simp] theorem freePtrs_geometry (ptrs : Nat → Nat) (n : Nat) (fs : Fs) :
    (freePtrs ptrs n fs).geometry = fs.geometry := by
  unfold freePtrs
  induction n with
  | zero => rfl
  | succ n ih =>
    rw [List.range_succ, List.foldl_append, List.foldl_cons, List.foldl_nil]
    split
    · rw [freeBlock_geometry, ih]
    · exact ih

theorem freeDouble_geometry (dblPtrs : Nat → Nat) : ∀ (k i total : Nat) (fs : Fs),
    (freeDouble dblPtrs k i total fs).geometry = fs.geometry
  | 0, _, _, _ => rfl
  | k + 1, i, total, fs => by
    unfold freeDouble
    split
    · split
      · dsimp only
        rw [freeDouble_geometry dblPtrs k, freeBlock_geometry, freePtrs_geometry]
      · exact freeDouble_geometry dblPtrs k _ _ fs
    · rfl

theorem freeSingle_geometry (node : Mem) (remain : Nat) (fs : Fs) :
    (freeSingle node remain fs).2.geometry = fs.geometry := by
  unfold freeSingle
  split
  · dsimp only
    rw [freeBlock_geometry, freePtrs_geometry]
  · rfl

theorem freeDoubleIndirect_geometry (node : Mem) (remain : Nat) (fs : Fs) :
    (freeDoubleIndirect node remain fs).geometry = fs.geometry := by
  unfold freeDoubleIndirect
  split
  · dsimp only
    rw [freeBlock_geometry, freeDouble_geometry]
  · rfl

@[simp] theorem freeNodeBlocks_geometry (node : Mem) (fs : Fs) :
    (freeNodeBlocks node fs).geometry = fs.geometry := by
  unfold freeNodeBlocks
  dsimp only
  rw [freeDoubleIndirect_geometry, freeSingle_geometry, freePtrs_geometry]

@[simp] theorem deallocateNode_geometry (inode : Nat) (fs : Fs) :
    (deallocateNode inode fs).geometry = fs.geometry := by
  unfold deallocateNode
  split
  · rfl
  · dsimp only
    rw [syncMetadata_geometry, superBlock_geometry, modifyDesc_inodes_geometry,
      writeBlocks_geometry, writeBlocks_geometry, freeNodeBlocks_geometry]
    split
    · exact modifyDesc_dirs_geometry fs _ _
    · rfl

theorem delete_geometry (request : EXT2DriverRequest) (fs : Fs) :
    (delete request fs).2.geometry = fs.geometry := by
  unfold delete
  dsimp only
  split
  · rfl
  · split
    · rfl
    · split
      · rfl
      · split_ifs <;> simp

/-- The layout depends on the geometry. -/
theorem Layout.of_geometry {fs fs' : Fs} (hl : Layout fs) (h : fs'.geometry = fs.geometry) :
    Layout fs' := by
  have hd : ∀ g, fs'.geometry g = fs.geometry g := fun g => congrFun h g
  unfold Fs.geometry at hd
  simp only [Prod.mk.injEq] at hd
  exact ⟨fun g h8 => by rw [(hd g).1]; exact hl.blockBitmap g h8,
    fun g h8 => by rw [(hd g).2.1]; exact hl.inodeBitmap g h8,
    fun g h8 => by rw [(hd g).2.2]; exact hl.inodeTable g h8⟩

/-- The layout stays, whatever is called. -/
theorem Layout.call {fs : Fs} (hl : Layout fs) (c : Call) : Layout (c.run fs).2 := by
  apply hl.of_geometry
  cases c with
  | write request => exact write_geometry request fs
  | delete request => exact delete_geometry request fs

end LossOs.Ext2
