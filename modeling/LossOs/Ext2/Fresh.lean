/-
  A freshly created file system.

  `initialize_filesystem_ext2` on a blank disk formats it (`create_ext2`) and loads the
  superblock and the descriptors. The result is consistent: inode 1 is a directory in block
  21 with `.` and `..`, every other inode is free, and exactly the metadata and block 21 are
  in use (`IsFresh.consistent`).
-/
import LossOs.Ext2.Insert

namespace LossOs.Ext2

open LossOs.Lib

/-- A driver before its first mount, with a disk that has neither the signature nor anything in
    the inode tables above group 0, which `create_ext2` does not clear. -/
structure Blank (fs : Fs) : Prop where
  empty : isEmptyStorage fs = true
  cache : (fs.bgdtCache 0).bgBlockBitmap = 0
  tables : ∀ i, IsInode i → inodeToBgd i ≠ 0 → ∀ o, slot fs.disk i o = 0

/-- A freshly created file system. -/
def IsFresh (fs : Fs) : Prop := ∃ fs₀, Blank fs₀ ∧ fs = initializeFilesystemExt2 fs₀

/-! ## Stores and loads -/

theorem EXT2Superblock.load_congr {m m' : Mem} (h : ∀ o < 44, m o = m' o) :
    EXT2Superblock.load m = EXT2Superblock.load m' := by
  have h32 : ∀ o, o + 4 ≤ 44 → rd32 m o = rd32 m' o := fun o ho =>
    rd32_congr fun p _ hp => h p (by omega)
  have h16 : rd16 m 40 = rd16 m' 40 := rd16_congr fun p _ hp => h p (by omega)
  unfold EXT2Superblock.load
  simp only [h32 0, h32 4, h32 8, h32 12, h32 16, h32 20, h32 24, h32 28, h32 32, h32 36, h16,
    h 42 (by decide), h 43 (by decide), Nat.reduceAdd, Nat.reduceLeDiff]

theorem EXT2Superblock.load_store (sb : EXT2Superblock) (m : Mem) :
    EXT2Superblock.load (sb.store m) = sb := by
  have h32 : ∀ v : UInt32, UInt32.ofNat (v.toNat % 4294967296) = v := fun v => by
    rw [Nat.mod_eq_of_lt v.toNat_lt]; exact UInt32.ofNat_toNat
  have h16 : ∀ v : UInt16, UInt16.ofNat (v.toNat % 65536) = v := fun v => by
    rw [Nat.mod_eq_of_lt v.toNat_lt]; exact UInt16.ofNat_toNat
  unfold EXT2Superblock.load EXT2Superblock.store
  simp (disch := omega) only [rd32_wr8, rd16_wr8, rd32_wr32_of_ne, rd32_wr16, rd32_wr32, rd16_wr16,
    wr8_same, wr8_of_ne, h32, h16]

theorem store_of_not_mem (d : EXT2BlockGroupDescriptor) {m : Mem} {o p : Nat}
    (h : p < o ∨ o + 32 ≤ p) : d.store m o p = m p := by
  unfold EXT2BlockGroupDescriptor.store
  rw [wr32_of_not_mem (by omega), wr32_of_not_mem (by omega), wr32_of_not_mem (by omega),
    wr16_of_not_mem (by omega), wr16_of_not_mem (by omega), wr16_of_not_mem (by omega),
    wr16_of_not_mem (by omega), wr32_of_not_mem (by omega), wr32_of_not_mem (by omega),
    wr32_of_not_mem (by omega)]

theorem load_congr {m m' : Mem} {o : Nat} (h : ∀ p, o ≤ p → p < o + 32 → m p = m' p) :
    EXT2BlockGroupDescriptor.load m o = EXT2BlockGroupDescriptor.load m' o := by
  have h32 : ∀ k, k + 4 ≤ 32 → rd32 m (o + k) = rd32 m' (o + k) := fun k hk =>
    rd32_congr fun p h1 h2 => h p (by omega) (by omega)
  have h16 : ∀ k, k + 2 ≤ 32 → rd16 m (o + k) = rd16 m' (o + k) := fun k hk =>
    rd16_congr fun p h1 h2 => h p (by omega) (by omega)
  unfold EXT2BlockGroupDescriptor.load
  rw [show rd32 m o = rd32 m' o from h32 0 (by decide), h32 4 (by decide), h32 8 (by decide),
    h16 12 (by decide), h16 14 (by decide), h16 16 (by decide), h16 18 (by decide),
    h32 20 (by decide), h32 24 (by decide), h32 28 (by decide)]

/-- What is stored is what is loaded. -/
theorem load_store (d : EXT2BlockGroupDescriptor) (m : Mem) (o : Nat) :
    EXT2BlockGroupDescriptor.load (d.store m o) o = d := by
  have h32 : ∀ v : UInt32, UInt32.ofNat (v.toNat % 4294967296) = v := fun v => by
    rw [Nat.mod_eq_of_lt v.toNat_lt]; exact UInt32.ofNat_toNat
  have h16 : ∀ v : UInt16, UInt16.ofNat (v.toNat % 65536) = v := fun v => by
    rw [Nat.mod_eq_of_lt v.toNat_lt]; exact UInt16.ofNat_toNat
  unfold EXT2BlockGroupDescriptor.load EXT2BlockGroupDescriptor.store
  simp (disch := omega) only [rd32_wr32_of_ne, rd32_wr16, rd16_wr32, rd16_wr16_of_ne, rd32_wr32,
    rd16_wr16, h32, h16]

/-- The descriptors in a table that is written one after the other. -/
theorem load_foldl_store (f : Nat → EXT2BlockGroupDescriptor) (m : Mem) {n g : Nat} (h : g < n) :
    EXT2BlockGroupDescriptor.load
      ((List.range n).foldl (fun buf i => (f i).store buf (32 * i)) m) (32 * g) = f g := by
  induction n with
  | zero => omega
  | succ n ih =>
    rw [List.range_succ, List.foldl_append, List.foldl_cons, List.foldl_nil]
    by_cases hg : g = n
    · rw [hg, load_store]
    · rw [load_congr fun p h1 h2 => store_of_not_mem _ (by omega)]
      exact ih (by omega)

/-! ## `create_ext2` -/

/-- The same block content written to several blocks. -/
theorem foldl_writeBlocks (L : List Nat) (buf : Mem) (fs : Fs) (n : Nat) :
    (L.foldl (fun fs blk => fs.writeBlocks blk buf) fs).disk n =
      if n ∈ L then blockOf buf else fs.disk n := by
  induction L generalizing fs with
  | nil => rfl
  | cons b L ih =>
    rw [List.foldl_cons, ih, writeBlocks_disk]
    by_cases hL : n ∈ L
    · simp [hL]
    · by_cases hn : n = b
      · subst hn; simp
      · simp [hL, hn]

/-- The bitmaps of the groups in `L`. -/
theorem foldl_groups (L : List Nat) (a b : Mem) (fs : Fs) (n : Nat) :
    (L.foldl (fun fs i => (fs.writeBlocks (i * 256 + 0) a).writeBlocks (i * 256 + 1) b)
      fs).disk n =
      if n % 256 = 0 ∧ n / 256 ∈ L then blockOf a
      else if n % 256 = 1 ∧ n / 256 ∈ L then blockOf b else fs.disk n := by
  induction L generalizing fs with
  | nil => simp
  | cons g L ih =>
    rw [List.foldl_cons, ih]
    by_cases hL : n / 256 ∈ L
    · simp only [hL, List.mem_cons, or_true, and_true]
      by_cases h0 : n % 256 = 0
      · rw [if_pos h0, if_pos h0]
      · by_cases h1 : n % 256 = 1
        · rw [if_neg h0, if_pos h1, if_neg h0, if_pos h1]
        · rw [if_neg h0, if_neg h1, if_neg h0, if_neg h1, writeBlocks_disk, writeBlocks_disk,
            Function.update_of_ne (by omega), Function.update_of_ne (by omega)]
    · rw [if_neg (by tauto), if_neg (by tauto), writeBlocks_disk, writeBlocks_disk]
      simp only [List.mem_cons, hL, or_false]
      by_cases hg : n / 256 = g
      · by_cases h0 : n % 256 = 0
        · rw [if_pos ⟨h0, hg⟩, Function.update_of_ne (by omega),
            show n = g * 256 + 0 by omega, Function.update_self]
        · rw [if_neg (by tauto)]
          by_cases h1 : n % 256 = 1
          · rw [if_pos ⟨h1, hg⟩, show n = g * 256 + 1 by omega, Function.update_self]
          · rw [if_neg (by tauto), Function.update_of_ne (by omega),
              Function.update_of_ne (by omega)]
      · rw [if_neg (by tauto), if_neg (by tauto), Function.update_of_ne (by omega),
          Function.update_of_ne (by omega)]

theorem bit_setBits (m : Mem) (n j : Nat) : bit (setBits m n) j = (decide (j < n) || bit m j) := by
  unfold setBits
  induction n with
  | zero => simp
  | succ n ih =>
    rw [List.range_succ, List.foldl_append, List.foldl_cons, List.foldl_nil, bit_setBit, ih]
    by_cases hj : j = n
    · simp [hj]
    · have : (j < n + 1) = (j < n) := by rw [eq_iff_iff]; omega
      simp [hj, this]

/-- The node of the root directory. -/
def rootNode (m : Mem) : Mem :=
  setIBlock (setIBlocks (setISize (setIMode m 0x4000) 512) 1) 0 21

/-- What `create_ext2` writes where, before the first mount. -/
theorem createExt2_disk {fs : Fs} (h : (fs.bgdtCache 0).bgBlockBitmap = 0) :
    ∃ sig sb desc z₀ z : Mem, (∀ o < 512, z₀ o = 0) ∧ (∀ o < 512, z o = 0) ∧
      EXT2Superblock.load sb = newSuperblock ∧
      (∀ g < 8, EXT2BlockGroupDescriptor.load desc (32 * g) = newDescriptor g) ∧
      ∀ n, (createExt2 fs).disk n =
        if n % 256 = 0 ∧ n / 256 ∈ List.range' 1 7 then blockOf (setBits z 18)
        else if n % 256 = 1 ∧ n / 256 ∈ List.range' 1 7 then blockOf z
        else if n = 4 then blockOf (setBits z 1)
        else if n = 3 then blockOf (setBits z 22)
        else if n ∈ List.range' 6 15 then blockOf z
        else if n = 5 then blockOf (blit z₀ 0 (rootNode z₀) 70)
        else if n = 21 then blockOf (dirTable 1 1 fs.zeroBuf)
        else if n = 2 then blockOf desc
        else if n = 1 then blockOf sb
        else if n = 0 then blockOf sig
        else fs.disk n := by
  generalize hd : (List.range 8).foldl (fun buf i => (newDescriptor i).store buf (32 * i))
    (fill (newSuperblock.store (fill (blit fs.zeroBuf 0 fsSignature 512) 0 0 512)) 0 0 256) = desc
  refine ⟨blit fs.zeroBuf 0 fsSignature 512,
    newSuperblock.store (fill (blit fs.zeroBuf 0 fsSignature 512) 0 0 512), desc,
    fill desc 0 0 512, fill (fill desc 0 0 512) 0 0 512,
    fun o ho => fill_of_mem (by omega) (by omega), fun o ho => fill_of_mem (by omega) (by omega),
    EXT2Superblock.load_store .., fun g hg => hd ▸ load_foldl_store newDescriptor _ hg, fun n => ?_⟩
  unfold createExt2 initDirectoryTable pickDirBlock
  simp only [writeBlocks_bgdtCache, h, ne_eq, not_true_eq_false, if_false, hd]
  rw [foldl_groups]
  simp only [writeBlocks_disk, foldl_writeBlocks, Function.update_apply]
  rfl

/-! ## The mounted state -/

/-- The disk that `initialize_filesystem_ext2` formats, and what it loads from it. -/
theorem mounted_new {fs : Fs} (hempty : isEmptyStorage fs = true)
    (hcache : (fs.bgdtCache 0).bgBlockBitmap = 0) :
    (initializeFilesystemExt2 fs).disk = (createExt2 fs).disk ∧
      (initializeFilesystemExt2 fs).superBlock = newSuperblock ∧
      ∀ g < 8, (initializeFilesystemExt2 fs).bgdtCache g = newDescriptor g := by
  obtain ⟨sig, sb, desc, z₀, z, -, -, hsb, hdesc, hdisk⟩ := createExt2_disk hcache
  unfold initializeFilesystemExt2
  rw [if_pos hempty]
  refine ⟨rfl, ?_, fun g hg => (if_pos hg).trans ?_⟩
  · rw [← hsb]
    apply EXT2Superblock.load_congr
    intro o ho
    rw [readBlocks_of_lt _ _ (by omega), hdisk 1]
    exact mem_blockOf (by omega)
  · rw [← hdesc g hg]
    apply load_congr
    intro p h1 h2
    rw [readBlocks_of_lt _ _ (by omega), hdisk 2]
    exact mem_blockOf (by omega)

/-- What `initialize_filesystem_ext2` leaves on a blank disk. -/
structure Formatted (fs : Fs) : Prop where
  desc : ∀ g < 8, fs.bgdtCache g = newDescriptor g
  blocks : ∀ b < 2048, blockUsed fs.disk b = decide (b < 22 ∨ 256 ≤ b ∧ b % 256 < 18)
  inodes : ∀ i, IsInode i → inodeUsed fs.disk i = decide (i = 1)
  root : ∃ m, slot fs.disk 1 = cutNode m ∧ DirAt 1 1 fs.disk m 21
  slots : ∀ i, IsInode i → i ≠ 1 → ∀ o, slot fs.disk i o = 0

theorem rootNode_fields {z : Mem} (hz : ∀ o < 512, z o = 0) : DirNode (rootNode z) 21 := by
  obtain ⟨h1, h2, h3, h4⟩ := header_fields z 0x4000 512 1
    (by decide) (by decide) (by decide)
  have hp : ∀ j, iBlock (rootNode z) j = if j = 0 then 21 else iBlock z j := fun j => by
    unfold rootNode
    rw [iBlock_setIBlock, h4]
  refine ⟨?_, ?_, ?_, ?_, fun j h0 hj => ?_⟩
  · rw [← h1]; exact iMode_congr_low fun o ho => setIBlock_of_lt ho
  · rw [← h2]; exact iSize_congr_low fun o ho => setIBlock_of_lt ho
  · rw [← h3]; exact iBlocks_congr_low fun o ho => setIBlock_of_lt ho
  · rw [hp]; rfl
  · rw [hp, if_neg (by omega)]
    exact rd32_eq_zero fun o _ _ => hz o (by omega)

theorem IsFresh.formatted {fs : Fs} (h : IsFresh fs) : Formatted fs := by
  obtain ⟨fs₀, hb, rfl⟩ := h
  obtain ⟨sig, sb, desc, z₀, z, hz₀, hz, -, -, hdisk⟩ := createExt2_disk hb.cache
  obtain ⟨heq, -, hcache⟩ := mounted_new hb.empty hb.cache
  generalize initializeFilesystemExt2 fs₀ = fs at heq hcache ⊢
  rw [← heq] at hdisk
  have hzb : ∀ j < 4096, bit z j = false := fun j hj => by
    unfold bit
    rw [hz _ (by omega)]
    exact Nat.zero_testBit _
  have hgrp : ∀ g, 0 < g → g < 8 → g ∈ List.range' 1 7 := fun g h1 h2 =>
    List.mem_range'_1.mpr (by omega)
  refine ⟨hcache, fun b hlt => ?_, fun i hi => ?_, ⟨rootNode z₀, ?_, ?_⟩,
    fun i hi hne o => ?_⟩
  · unfold blockUsed
    by_cases h0 : b / 256 = 0
    · rw [h0, show blockBitmapAt 0 = 3 from rfl, hdisk, if_neg (by decide), if_neg (by decide),
        if_neg (by decide), if_pos rfl, bit_blockOf (by omega), bit_setBits, hzb _ (by omega),
          Bool.or_false, decide_eq_decide]
      omega
    · have hb' : blockBitmapAt (b / 256) = 256 * (b / 256) := if_neg h0
      rw [hb', hdisk, if_pos ⟨by omega, hgrp _ (by omega) (by omega)⟩, bit_blockOf (by omega),
        bit_setBits, hzb _ (by omega), Bool.or_false, decide_eq_decide]
      omega
  · have hl := inodeToLocal_lt i
    have hg := inodeToBgd_lt hi
    have hie := inode_eq_of_bit hi
    unfold inodeUsed
    by_cases h0 : inodeToBgd i = 0
    · rw [h0, show inodeBitmapAt 0 = 4 from rfl, hdisk, if_neg (by decide), if_neg (by decide),
        if_pos rfl, bit_blockOf (by omega), bit_setBits,
        hzb _ (by omega), Bool.or_false, decide_eq_decide]
      omega
    · have hb' : inodeBitmapAt (inodeToBgd i) = 256 * inodeToBgd i + 1 := if_neg h0
      rw [hb', hdisk, if_neg (by omega), if_pos ⟨by omega, hgrp _ (by omega) (by omega)⟩,
        bit_blockOf (by omega), hzb _ (by omega), eq_comm, decide_eq_false_iff_not]
      omega
  · funext o
    unfold slot cutNode
    split
    · rw [show inodeBlockAt 1 = 5 from rfl, show slotOffset 1 = 0 from rfl, hdisk]
      rw [if_neg (by decide), if_neg (by decide), if_neg (by decide), if_neg (by decide),
        if_neg (by decide), if_pos rfl, mem_blockOf (by omega), Nat.zero_add,
        blit_of_mem (by omega) (by omega), Nat.sub_zero]
    · rfl
  · refine ⟨rootNode_fields hz₀, ?_⟩
    rw [hdisk 21, if_neg (by decide), if_neg (by decide), if_neg (by decide), if_neg (by decide),
      if_neg (by decide), if_neg (by decide), if_pos rfl]
    exact (dirTable_tiles (by decide) (by decide)).congr fun o _ ho => mem_blockOf ho
  · by_cases h0 : inodeToBgd i = 0
    · have hl := inodeToLocal_lt i
      have hie := inode_eq_of_bit hi
      have hoff := slotOffset_le i
      unfold slot
      split
      · have hblk : inodeBlockAt i = 5 + inodeToLocal i / 7 := by
          unfold inodeBlockAt inodeTableAt
          rw [if_pos h0]
        rw [hblk, hdisk, if_neg (by simp; omega), if_neg (by simp; omega), if_neg (by omega),
          if_neg (by omega)]
        by_cases h5 : inodeToLocal i / 7 = 0
        · rw [if_neg (by simp [List.mem_range'_1]; omega), if_pos (by omega),
            mem_blockOf (by omega), blit_of_not_mem, hz₀ _ (by omega)]
          unfold slotOffset
          omega
        · rw [if_pos (List.mem_range'_1.mpr (by omega)), mem_blockOf (by omega), hz _ (by omega)]
      · rfl
    · have hg := inodeToBgd_lt hi
      have hm := inodeBlockAt_mem i
      have ht : inodeTableAt (inodeToBgd i) = 256 * inodeToBgd i + 2 := if_neg h0
      rw [← hb.tables i hi h0 o]
      refine congrFun (slot_congr ?_) o
      rw [hdisk, if_neg (by omega), if_neg (by omega), if_neg (by omega), if_neg (by omega),
        if_neg (by simp [List.mem_range'_1]; omega), if_neg (by omega), if_neg (by omega),
        if_neg (by omega), if_neg (by omega), if_neg (by omega)]

section Formatted

variable {fs : Fs}

theorem Formatted.layout (h : Formatted fs) : Layout fs := by
  refine ⟨fun g hg => ?_, fun g hg => ?_, fun g hg => ?_⟩ <;> rw [h.desc g hg]
  · interval_cases g <;> rfl
  · interval_cases g <;> rfl
  · interval_cases g <;> rfl

theorem Formatted.counters (h : Formatted fs) : Counters fs := by
  have hbit : ∀ g < 8, ∀ j < 256, bit (fs.disk (blockBitmapAt g)).mem j =
      decide (j < if g = 0 then 22 else 18) := by
    intro g hg j hj
    have := h.blocks (256 * g + j) (by omega)
    unfold blockUsed at this
    rw [show (256 * g + j) / 256 = g by omega, show (256 * g + j) % 256 = j by omega] at this
    rw [this, decide_eq_decide]
    split <;> omega
  have hino : ∀ g < 8, ∀ j < 112, bit (fs.disk (inodeBitmapAt g)).mem j =
      decide (j < if g = 0 then 1 else 0) := by
    intro g hg j hj
    obtain ⟨h1, h2, h3⟩ := inode_of_bit hg hj
    have := h.inodes _ h1
    unfold inodeUsed at this
    rw [h2, h3] at this
    rw [this, decide_eq_decide]
    split <;> omega
  refine ⟨fun g hg => ?_, fun g hg => ?_⟩ <;> rw [h.desc g hg]
  · unfold freeBlocksOf
    rw [clearCount_initial (hbit g hg)]
    interval_cases g <;> rfl
  · unfold freeInodesOf
    rw [clearCount_initial (hino g hg)]
    interval_cases g <;> rfl

theorem Formatted.ready (h : Formatted fs) : Ready fs := by
  refine ⟨h.layout, h.counters, fun b hb => ?_⟩
  rw [h.blocks b hb.1, decide_eq_true_iff]
  have := hb.2
  omega

theorem Formatted.isDirectory_iff (h : Formatted fs) {p : Nat} :
    IsDirectory fs.disk p ↔ p = 1 := by
  constructor
  · intro hp
    have := hp.used
    rw [h.inodes p hp.isInode] at this
    simpa using this
  · rintro rfl
    obtain ⟨m, hm, hd⟩ := h.root
    refine ⟨by decide, by rw [h.inodes 1 (by decide)]; rfl, ?_⟩
    unfold isDir
    rw [hm, iMode_congr fun o ho => cutNode_of_lt ho, hd.mode]
    rfl

theorem Formatted.iBlocks_root (h : Formatted fs) : iBlocks (slot fs.disk 1) = 1 := by
  obtain ⟨m, hm, hd⟩ := h.root
  exact (iBlocks_congr fun o ho => by rw [hm, cutNode_of_lt ho]).trans hd.count

/-- The root directory has the single block 21. -/
theorem Formatted.rootPtrs (h : Formatted fs) : dirPtrs (slot fs.disk 1) = [21] := by
  obtain ⟨m, hm, hd⟩ := h.root
  have hn : ∀ o < 70, slot fs.disk 1 o = m o := fun o ho => by rw [hm, cutNode_of_lt ho]
  unfold dirPtrs
  rw [h.iBlocks_root]
  show [iBlock (slot fs.disk 1) 0] = [21]
  rw [iBlock_congr hn (by decide), hd.first]

theorem Formatted.rootBlocks (h : Formatted fs) : dirBlocks (slot fs.disk 1) = [21] := by
  rw [dirBlocks_eq, h.rootPtrs]
  rfl

theorem Formatted.rootRecords (h : Formatted fs) :
    blockRecords (fs.disk 21) = [⟨0, 1, 12, [46], 2⟩, ⟨12, 1, 500, [46, 46], 2⟩] := by
  obtain ⟨m, -, hd⟩ := h.root
  exact hd.table.blockRecords_eq

/-- A freshly created file system is consistent. -/
theorem Formatted.consistent (h : Formatted fs) : Consistent fs := by
  have hone : ∀ i, IsInode i → inodeUsed fs.disk i = true → i = 1 := by
    intro i hi hu
    rw [h.inodes i hi] at hu
    simpa using hu
  have hreach : reach fs.disk 1 = [21] := by
    unfold reach
    rw [if_pos (h.isDirectory_iff.mpr rfl).dir, h.rootBlocks]
  refine ⟨h.ready, ⟨fun i hi hu b hb => ?_, fun i hi hu => ?_, fun i j hi hj hu hju hne => ?_⟩,
    fun i hi hu => ?_, fun p hp => ?_, fun p hp => ?_⟩
  · rw [hone i hi hu, hreach, List.mem_singleton] at hb
    rw [hb]
    exact ⟨by decide, by rw [h.blocks 21 (by decide)]; rfl⟩
  · rw [hone i hi hu, hreach]
    exact List.nodup_singleton _
  · exact absurd ((hone i hi hu).trans (hone j hj hju).symm) hne
  · apply h.slots i hi
    rintro rfl
    rw [h.inodes 1 hi] at hu
    cases hu
  · obtain rfl := h.isDirectory_iff.mp hp
    obtain ⟨m, hm, hd⟩ := h.root
    refine ⟨by rw [h.iBlocks_root]; decide, fun b hb => ?_⟩
    · rw [h.rootBlocks, List.mem_singleton] at hb
      rw [hb]
      exact ⟨_, hd.table⟩
  · obtain rfl := h.isDirectory_iff.mp hp
    rw [h.rootPtrs]
    simp

theorem Formatted.rootEntries (h : Formatted fs) :
    entries fs.disk 1 = [⟨[46], 1, 2⟩, ⟨[46, 46], 1, 2⟩] := by
  unfold entries
  rw [h.rootBlocks, blockEntries_cons, h.rootRecords]
  rfl

theorem dot_not_roomy {request : EXT2DriverRequest} {off i ft : Nat} :
    Rec.roomy request ⟨off, i, 12, [46], ft⟩ = false := by
  rw [← Bool.not_eq_true, roomy_iff, getEntryRecordLen_eq]
  simp only [Rec.size, List.length_singleton]
  omega

/-- In a fresh file system every new name goes behind `..` of the root directory. -/
theorem Formatted.stop (h : Formatted fs) {request : EXT2DriverRequest}
    (h1 : requestName request ≠ [46]) (h2 : requestName request ≠ [46, 46]) :
    Stop request fs.disk 1 21 ⟨12, 1, 500, [46, 46], 2⟩ [] [] [⟨0, 1, 12, [46], 2⟩] [] where
  blocks := h.rootBlocks
  recs := h.rootRecords
  isLive := by decide
  room := by
    have hlt := request.nameLen.toNat_lt
    rw [getEntryRecordLen_eq]
    simp only [Rec.size, List.length_cons, List.length_nil]
    omega
  unnamed := by
    rw [← Bool.not_eq_true, named_iff]
    exact fun hc => h2 hc.2.symm
  before := by simp [dirRecords]
  beforeHere := by
    rw [List.forall_mem_singleton]
    refine ⟨?_, dot_not_roomy⟩
    rw [← Bool.not_eq_true, named_iff]
    exact fun hc => h1 hc.2.symm

theorem Stop.firstHit {request : EXT2DriverRequest} {d : Disk} {p b : Nat} {r : Rec}
    {pre post : List Nat} {xs ys : List Rec} (h : Stop request d p b r pre post xs ys) :
    firstHit request d p = some (b, r) := by
  have hrec : dirRecords d (dirBlocks (slot d p)) = dirRecords d pre ++
      (xs.map (fun r => (b, r)) ++ (b, r) :: (ys.map (fun r => (b, r)) ++ dirRecords d post)) := by
    rw [h.blocks, dirRecords_append]
    unfold dirRecords
    rw [List.flatMap_cons, h.recs, List.map_append, List.map_cons]
    simp only [List.append_assoc, List.cons_append]
  unfold LossOs.Ext2.firstHit
  rw [hrec, List.find?_append, List.find?_eq_none.mpr, List.find?_append, List.find?_eq_none.mpr,
    List.find?_cons_of_pos]
  · rfl
  · rw [Bool.or_eq_true, roomy_iff]
    exact Or.inr ⟨h.isLive, h.room⟩
  · intro q hq
    obtain ⟨r', hr', rfl⟩ := List.mem_map.mp hq
    obtain ⟨h1, h2⟩ := h.beforeHere r' hr'
    simp [h1, h2]
  · intro q hq
    obtain ⟨h1, h2⟩ := h.before q hq
    simp [h1, h2]

theorem Formatted.firstFreeInode (h : Formatted fs) : firstFreeInode fs.disk = some 2 := by
  apply firstFreeInode_eq (by decide) (by rw [h.inodes 2 (by decide)]; rfl)
  intro j hj hlt
  rw [h.inodes j hj, decide_eq_true_iff]
  have := hj.1
  omega

/-- The inode that is free first finds a free block. -/
theorem Formatted.free_mem (h : Formatted fs) : 22 ∈ freeFrom fs.disk (inodeToBgd 2) := by
  rw [mem_freeFrom, h.blocks 22 (by decide)]
  decide

theorem Formatted.card_pos (h : Formatted fs) : 1 ≤ (freeFrom fs.disk (inodeToBgd 2)).card :=
  Finset.card_pos.mpr ⟨22, h.free_mem⟩

end Formatted

/-! ## The first entry -/

/-- A file without data has no blocks. -/
theorem Made.blocks_nil {request : EXT2DriverRequest} {i : Nat} {d₀ d : Disk} {ni : Mem}
    {L X : List Nat} (h : Made request i d₀ d ni L X) (hreg : isDirRequest request = false)
    (h0 : blockCount request = 0) : L = [] := by
  cases h with
  | file t _ hat =>
    have hs := hat.shape
    rw [h0] at hs
    have hdir : t.direct = [] := List.length_eq_zero_iff.mp (by have := hs.direct; omega)
    have hsingle : t.single = none := by
      cases h : t.single with
      | none => rfl
      | some p => have := (hs.single p h).1; omega
    have hdouble : t.double = none := by
      cases h : t.double with
      | none => rfl
      | some q => have := (hs.double q h).1; omega
    unfold FileTree.blocks
    rw [hdir, hsingle, hdouble]
    rfl
  | dir b hdir => rw [hreg] at hdir; cases hdir
  | fallback => rfl

/-- The state after the first `write` to a fresh file system: inode 2, with its record behind
    `..`. -/
structure FirstEntry (request : EXT2DriverRequest) (fs fs' : Fs) (ni : Mem) (L : List Nat) :
    Prop where
  hole : Hole request 21 12 fs fs' 2 ni L []
  created : Created request fs fs' 1 2 ni L
  records : blockRecords (fs'.disk 21) =
    [⟨0, 1, 12, [46], 2⟩, ⟨12, 1, 12, [46, 46], 2⟩, newRec request 2 24 488]
  blocks : dirBlocks (slot fs'.disk 1) = [21]

theorem Formatted.write_first {fs : Fs} (h : Formatted fs) (request : EXT2DriverRequest)
    (hp : request.parentInode = 1) (h1 : requestName request ≠ [46])
    (h2 : requestName request ≠ [46, 46]) :
    (write request fs).1 = 0 ∧ ∃ ni L, FirstEntry request fs (write request fs).2 ni L := by
  have hone : request.parentInode.toNat = 1 := by rw [hp]; rfl
  have hc := h.consistent
  have hroot := h.isDirectory_iff.mpr rfl
  have hs := h.stop h1 h2
  have hw := write_hole request hc.ready hc.freeSlot (by rw [hone]; exact hroot.isInode)
    (by rw [hone]; exact hroot.dir) (by rw [hone]; exact hc.parentOk hroot.isInode hroot.dir)
    (by rw [hone]; exact hs.firstHit) hs.unnamed h.firstFreeInode
  obtain ⟨hcode, ni, L, X, hh⟩ := hw
  refine ⟨hcode, ni, L, ?_⟩
  generalize (write request fs).2 = fs' at hh ⊢
  have hX : X = [] := hh.room_iff.mpr fun _ => ⟨22, h.free_mem⟩
  subst hX
  refine ⟨hh, hh.created hc hroot hs,
    (hh.records hs (hc.dirBlock hroot hs.mem).2.2).blockRecords_eq,
    ?_⟩
  rw [hh.slot_eq (by decide) (by decide)]
  exact h.rootBlocks

section FirstEntry

variable {request : EXT2DriverRequest} {fs fs' : Fs} {ni : Mem} {L : List Nat}

/-- The root is still the only directory. -/
theorem FirstEntry.isDirectory_iff (h : FirstEntry request fs fs' ni L) (hf : Formatted fs)
    (hreg : isDirRequest request = false) {p : Nat} : IsDirectory fs'.disk p ↔ p = 1 := by
  constructor
  · intro hp
    have hne : p ≠ 2 := by
      rintro rfl
      have := h.hole.made.isDir_eq h.hole.slotSelf
      rw [hp.dir, hreg] at this
      cases this
    exact hf.isDirectory_iff.mp ((h.created.isDirectory_iff hne).mp hp)
  · rintro rfl
    exact (h.created.isDirectory_iff (by decide)).mpr (hf.isDirectory_iff.mpr rfl)

theorem FirstEntry.iBlocks_root (h : FirstEntry request fs fs' ni L) (hf : Formatted fs) :
    iBlocks (slot fs'.disk 1) = 1 := by
  rw [h.hole.slot_eq (by decide) (by decide), hf.iBlocks_root]

end FirstEntry

/-! ## A disk image of zeros -/

/-- The driver before its first mount, with the image that the makefile creates. -/
def blankFs : Fs where
  disk := fun _ _ => 0
  superBlock := ⟨0, 0, 0, 0, 0, 0, 0, 0, 0, 0, 0, 0, 0⟩
  bgdtCache := fun _ => ⟨0, 0, 0, 0, 0, 0, 0, 0, 0, 0⟩
  stack := fun _ => 0

def freshFs : Fs := initializeFilesystemExt2 blankFs

theorem blank_blankFs : Blank blankFs where
  empty := by decide
  cache := rfl
  tables := fun i _ _ o => by
    unfold slot Block.mem
    split
    · split <;> rfl
    · rfl

theorem isFresh_freshFs : IsFresh freshFs := ⟨blankFs, blank_blankFs, rfl⟩

/-- A request for `name` in the root directory. -/
def rootRequest (name data : List UInt8) (isDirectory : Bool) : EXT2DriverRequest where
  buf := fun k => data.getD k 0
  name := fun k => name.getD k 0
  nameLen := UInt8.ofNat name.length
  parentInode := 1
  bufferSize := UInt32.ofNat data.length
  isDirectory := isDirectory

theorem requestName_root {name data : List UInt8} {isDirectory : Bool} (h : name.length < 256) :
    requestName (rootRequest name data isDirectory) = name := by
  have hlen : (UInt8.ofNat name.length).toNat = name.length := UInt8.toNat_ofNat_of_lt' h
  unfold requestName rootRequest bytes
  dsimp only
  rw [hlen]
  apply List.ext_getElem (by simp)
  intro k _ h2
  rw [List.getElem_map, List.getElem_range, Nat.zero_add, List.getD_eq_getElem _ _ h2]

end LossOs.Ext2
