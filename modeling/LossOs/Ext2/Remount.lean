/-
  The cached superblock and descriptors agree with the disk.

  `Remounts fs`: mounting the disk of `fs` again would load what the driver holds. Every call
  that returns 0 ends with `sync_metadata`, and every call that fails has changed nothing, but
  for the `write` that takes a block for its parent and then finds no inode. Runs without it keep
  the cache and the disk together, from any disk with the layout of `create_ext2`
  (`remount_noop`).
-/
import LossOs.Ext2.Failure
import LossOs.Ext2.Geometry

namespace LossOs.Ext2

open LossOs.Lib

/-- What `initialize_filesystem_ext2` loads from blocks 1 and 2 is what the driver holds. -/
structure Remounts (fs : Fs) : Prop where
  super : EXT2Superblock.load (fs.readBlocks 1) = fs.superBlock
  groups : ∀ g < 8, EXT2BlockGroupDescriptor.load (fs.readBlocks 2) (32 * g) = fs.bgdtCache g

/-! ## `sync_metadata` -/

/-- After `sync_metadata` the disk holds what the driver holds. -/
theorem remounts_sync (fs : Fs) : Remounts (syncMetadata fs) := by
  constructor
  · refine (EXT2Superblock.load_congr fun o ho => ?_).trans
      (EXT2Superblock.load_store fs.superBlock fs.stack)
    rw [readBlocks_of_lt _ _ (by omega)]
    unfold syncMetadata
    dsimp only
    rw [writeBlocks_disk, Function.update_of_ne (by decide), writeBlocks_disk,
      Function.update_self, mem_blockOf (by omega)]
  · intro g hg
    refine (load_congr fun o _ ho => ?_).trans
      (load_foldl_store fs.bgdtCache (fs.superBlock.store fs.stack) hg)
    rw [readBlocks_of_lt _ _ (by omega)]
    unfold syncMetadata
    dsimp only
    rw [writeBlocks_disk, Function.update_self, mem_blockOf (by omega)]
    rfl

/-- A mounted file system has just been loaded. -/
theorem remounts_boot (fs : Fs) : Remounts (initializeFilesystemExt2 fs) := by
  unfold initializeFilesystemExt2
  dsimp only
  constructor
  · rfl
  · exact fun g hg => (if_pos hg).symm

theorem Remounts.withStack {fs : Fs} (h : Remounts fs) (s : Mem) : Remounts (fs.withStack s) := by
  constructor
  · rw [show (fs.withStack s).superBlock = fs.superBlock from rfl, ← h.super]
    apply EXT2Superblock.load_congr
    intro o ho
    rw [readBlocks_of_lt _ _ (by omega), readBlocks_of_lt _ _ (by omega), withStack_disk]
  · intro g hg
    rw [show (fs.withStack s).bgdtCache = fs.bgdtCache from rfl, ← h.groups g hg]
    apply load_congr
    intro o _ ho
    rw [readBlocks_of_lt _ _ (by omega), readBlocks_of_lt _ _ (by omega), withStack_disk]

/-! ## Calls that return 0 -/

section Success

variable {request : EXT2DriverRequest} {fs : Fs}

theorem writeHole_sync {blk off : Nat} (h : (writeHole request blk off fs).1 = 0) :
    Remounts (writeHole request blk off fs).2 := by
  unfold writeHole at h ⊢
  dsimp only at h ⊢
  split at h
  · cases h
  · rename_i h0
    rw [if_neg h0]
    exact remounts_sync _

theorem writeGrow_sync {buf : Mem} (h : (writeGrow request buf fs).1 = 0) :
    Remounts (writeGrow request buf fs).2 := by
  unfold writeGrow at h ⊢
  dsimp only at h ⊢
  split at h
  · cases h
  · rename_i h0
    rw [if_neg h0]
    split at h
    · cases h
    · rename_i h1
      rw [if_neg h1]
      exact remounts_sync _

/-- A `write` that returns 0 ends with `sync_metadata`. -/
theorem write_sync (h : (write request fs).1 = 0) : Remounts (write request fs).2 := by
  unfold write at h ⊢
  dsimp only at h ⊢
  split at h
  · cases h
  · rename_i h0
    rw [if_neg h0]
    split at h
    · cases h
    · rename_i h1
      rw [if_neg h1]
      split at h
      · exact writeHole_sync h
      · cases h
      · exact writeGrow_sync h

/-- So does a `delete`. -/
theorem delete_sync (h : (delete request fs).1 = 0) : Remounts (delete request fs).2 := by
  unfold delete at h ⊢
  dsimp only at h ⊢
  split at h
  · cases h
  · rename_i h0
    rw [if_neg h0]
    split at h
    · cases h
    · rename_i h1
      rw [if_neg h1]
      generalize findDir request _ fs = r at h ⊢
      cases r with
      | none => cases h
      | some r =>
        dsimp only at h ⊢
        split_ifs at h ⊢ <;> first | exact remounts_sync _ | cases h

end Success

/-! ## The searches of the growth path, on any bitmaps -/

/-- The block search from group `pref` on can mark block `b`. -/
structure BlockLeft (fs : Fs) (pref b : Nat) : Prop where
  lt : b < 2048
  ge : 256 * pref ≤ b
  count : (fs.bgdtCache (b / 256)).bgFreeBlocksCount ≠ 0
  free : blockUsed fs.disk b = false

/-- `allocate_node` can mark inode `i`. -/
structure InodeLeft (fs : Fs) (i : Nat) : Prop where
  isInode : IsInode i
  count : (fs.bgdtCache (inodeToBgd i)).bgFreeInodesCount ≠ 0
  free : inodeUsed fs.disk i = false

/-- A search in the block bitmaps changes these and their counters. -/
structure Marked (fs fs' : Fs) : Prop where
  counts : ∀ g, (fs'.bgdtCache g).bgFreeInodesCount = (fs.bgdtCache g).bgFreeInodesCount
  frame : ∀ n, (∀ g, n ≠ blockBitmapAt g) → fs'.disk n = fs.disk n

theorem Marked.refl (fs : Fs) : Marked fs fs := ⟨fun _ => rfl, fun _ _ => rfl⟩

theorem Marked.trans {fs₁ fs₂ fs₃ : Fs} (h : Marked fs₁ fs₂) (h' : Marked fs₂ fs₃) :
    Marked fs₁ fs₃ :=
  ⟨fun g => (h'.counts g).trans (h.counts g), fun n hn => (h'.frame n hn).trans (h.frame n hn)⟩

theorem Marked.left {fs fs' : Fs} {i : Nat} (h : Marked fs fs') (hi : InodeLeft fs i) :
    InodeLeft fs' i where
  isInode := hi.isInode
  count := by rw [h.counts]; exact hi.count
  free := by
    have := hi.free
    unfold inodeUsed at this ⊢
    rwa [h.frame _ fun g => (blockBitmapAt_ne_inodeBitmapAt g _).symm]

section Searches

variable {fs : Fs} {bg : Nat}

/-- Marking a block changes the bitmap and the counter of its group only. -/
theorem takeBit_other (hl : Layout fs) (hbg : bg < 8) (idx : Nat) (bmp : Mem) :
    Marked fs (takeBit bg idx bmp fs) ∧ ∀ g, g ≠ bg →
      (takeBit bg idx bmp fs).bgdtCache g = fs.bgdtCache g ∧
      (takeBit bg idx bmp fs).disk (blockBitmapAt g) = fs.disk (blockBitmapAt g) := by
  have hdesc : ∀ g, (takeBit bg idx bmp fs).bgdtCache g = if g = bg then
      { fs.bgdtCache bg with bgFreeBlocksCount := (fs.bgdtCache bg).bgFreeBlocksCount - 1 }
      else fs.bgdtCache g := fun g => by
    unfold takeBit
    dsimp only
    by_cases hg : g = bg
    · rw [if_pos hg, hg, modifyDesc_same]
      rfl
    · rw [if_neg hg, modifyDesc_of_ne hg]
      rfl
  have hdisk : (takeBit bg idx bmp fs).disk =
      Function.update fs.disk (blockBitmapAt bg) (blockOf (setBit bmp idx)) := by
    rw [← hl.blockBitmap bg hbg]
    rfl
  refine ⟨⟨fun g => ?_, fun n hn => ?_⟩, fun g hg => ⟨?_, ?_⟩⟩
  · rw [hdesc]
    split
    · rename_i h
      rw [h]
    · rfl
  · rw [hdisk, Function.update_of_ne (hn bg)]
  · rw [hdesc, if_neg hg]
  · rw [hdisk, Function.update_of_ne fun h => hg (blockBitmapAt_inj h)]

theorem growGroup_other (hl : Layout fs) (hbg : bg < 8) :
    Marked fs (growGroup bg fs).2 ∧ ∀ g, g ≠ bg →
      (growGroup bg fs).2.bgdtCache g = fs.bgdtCache g ∧
      (growGroup bg fs).2.disk (blockBitmapAt g) = fs.disk (blockBitmapAt g) := by
  unfold growGroup
  dsimp only
  generalize fs.readBlocks (fs.bgdtCache bg).bgBlockBitmap.toNat = bmp
  split
  · exact ⟨Marked.refl fs, fun _ _ => ⟨rfl, rfl⟩⟩
  · rename_i idx _
    obtain ⟨h1, h2⟩ := takeBit_other hl hbg idx bmp
    split
    · exact ⟨h1, h2⟩
    · split
      · exact ⟨h1, h2⟩
      · rename_i j _
        obtain ⟨h3, h4⟩ := takeBit_other (hl.of_geometry (takeBit_geometry bg idx bmp fs)) hbg j
          (setBit bmp idx)
        exact ⟨h1.trans h3, fun g hg => ⟨(h4 g hg).1.trans (h2 g hg).1,
          (h4 g hg).2.trans (h2 g hg).2⟩⟩

theorem growSearch_marked {bgs : List Nat} (h8 : ∀ bg ∈ bgs, bg < 8) :
    ∀ {fs : Fs}, Layout fs → Marked fs (growSearch bgs fs).2 := by
  induction bgs with
  | nil => exact fun {fs} _ => Marked.refl fs
  | cons bg bgs ih =>
    intro fs hl
    have hbg := h8 bg (by simp)
    have hrest : ∀ g ∈ bgs, g < 8 := fun g hg => h8 g (List.mem_cons_of_mem _ hg)
    unfold growSearch
    split
    · have h1 := (growGroup_other hl hbg).1
      dsimp only
      split
      · exact h1
      · exact h1.trans (ih hrest (hl.of_geometry (growGroup_geometry bg fs)))
    · exact ih hrest hl

/-- A group with nothing to mark is passed over. -/
theorem growGroup_of_full (hl : Layout fs) (hbg : bg < 8)
    (h : ∀ idx < 256, bit (fs.disk (blockBitmapAt bg)).mem idx = true) :
    growGroup bg fs = (0, fs) := by
  unfold growGroup
  dsimp only
  cases hf : firstClear (fs.readBlocks (fs.bgdtCache bg).bgBlockBitmap.toNat) 256 with
  | none => rfl
  | some idx =>
    obtain ⟨h256, -, hclear, -⟩ := firstClear_eq_some hf
    rw [hl.blockBitmap bg hbg, bit_readBlocks (by omega), h idx h256] at hclear
    cases hclear

/-- A group with a clear bit yields a block, unless the bit is that of block 0 and no bit behind
    its byte is clear. -/
theorem growGroup_of_left (hl : Layout fs) (hbg : bg < 8) {idx : Nat} (hidx : idx < 256)
    (hfree : bit (fs.disk (blockBitmapAt bg)).mem idx = false)
    (h0 : bg = 0 → bit (fs.disk (blockBitmapAt 0)).mem 0 = false → 8 ≤ idx) :
    (growGroup bg fs).1 ≠ 0 := by
  unfold growGroup
  dsimp only
  rw [hl.blockBitmap bg hbg]
  cases hf : firstClear (fs.readBlocks (blockBitmapAt bg)) 256 with
  | none =>
    have := firstClear_eq_none hf idx hidx (by omega)
    rw [bit_readBlocks (by omega), hfree] at this
    cases this
  | some k =>
    obtain ⟨-, -, hclear, -⟩ := firstClear_eq_some hf
    dsimp only
    by_cases hk : bg * 256 + k = 0
    · obtain ⟨rfl, rfl⟩ : bg = 0 ∧ k = 0 := by omega
      rw [bit_readBlocks (by omega)] at hclear
      rw [if_neg (by omega)]
      cases hg : firstClearFrom 1 (setBit (fs.readBlocks (blockBitmapAt 0)) 0) 256 with
      | none =>
        have h8 := h0 rfl hclear
        have := firstClearFrom_eq_none hg idx hidx (by omega) (by omega)
        rw [bit_setBit, bit_readBlocks (by omega), hfree] at this
        simp at this
        omega
      | some j =>
        have := firstClearFrom_ge hg
        dsimp only
        omega
    · rw [if_pos hk]
      exact hk

end Searches

/-- The block search fails and changes nothing when there is no block to mark. -/
theorem growSearch_of_none {bgs : List Nat} {fs : Fs} (hl : Layout fs) (h8 : ∀ bg ∈ bgs, bg < 8)
    (h : ∀ bg ∈ bgs, (fs.bgdtCache bg).bgFreeBlocksCount ≠ 0 →
      ∀ idx < 256, bit (fs.disk (blockBitmapAt bg)).mem idx = true) :
    growSearch bgs fs = (0, fs) := by
  induction bgs with
  | nil => rfl
  | cons bg bgs ih =>
    have ih := ih (fun g hg => h8 g (List.mem_cons_of_mem _ hg))
      fun g hg => h g (List.mem_cons_of_mem _ hg)
    unfold growSearch
    split
    · rename_i hcnt
      simp only [growGroup_of_full hl (h8 bg (by simp)) (h bg (by simp) hcnt), ih, ite_self]
    · exact ih

/-- It succeeds when there is one, and not just block 0 with the rest of its byte. -/
theorem growSearch_of_left {bgs : List Nat} (h8 : ∀ bg ∈ bgs, bg < 8) :
    ∀ {fs : Fs}, Layout fs → (∃ bg ∈ bgs, (fs.bgdtCache bg).bgFreeBlocksCount ≠ 0 ∧
      ∃ idx < 256, bit (fs.disk (blockBitmapAt bg)).mem idx = false ∧
        (bg = 0 → bit (fs.disk (blockBitmapAt 0)).mem 0 = false → 8 ≤ idx)) →
      (growSearch bgs fs).1 ≠ 0 := by
  induction bgs with
  | nil =>
    rintro fs - ⟨bg, hbg, -⟩
    cases hbg
  | cons bg bgs ih =>
    intro fs hl ⟨g, hg, hcnt, idx, hidx, hfree, h0⟩
    have hbg := h8 bg (by simp)
    have hrest : ∀ g ∈ bgs, g < 8 := fun g hg => h8 g (List.mem_cons_of_mem _ hg)
    unfold growSearch
    by_cases hgb : g = bg
    · subst hgb
      rw [if_pos hcnt]
      have hne := growGroup_of_left hl hbg hidx hfree h0
      dsimp only
      rw [if_pos hne]
      exact hne
    · have hgm : g ∈ bgs := (List.mem_cons.mp hg).resolve_left hgb
      split
      · dsimp only
        split
        · rename_i hne
          exact hne
        · -- what was marked without a result lies in another group
          have hsame := (growGroup_other hl hbg).2 g hgb
          refine ih hrest (hl.of_geometry (growGroup_geometry bg fs))
            ⟨g, hgm, by rw [hsame.1]; exact hcnt, idx, hidx, by rw [hsame.2]; exact hfree,
              fun hg0 hz => h0 hg0 ?_⟩
          rw [hg0] at hsame
          rwa [hsame.2] at hz
      · exact ih hrest hl ⟨g, hgm, hcnt, idx, hidx, hfree, h0⟩

/-- `allocate_node` finds an inode when there is one to mark. -/
theorem allocateNode_of_left {fs : Fs} {i : Nat} (hl : Layout fs) (h : InodeLeft fs i) :
    (allocateNode fs).1 ≠ 0 := by
  have hg := inodeToBgd_lt h.isInode
  have hfree := h.free
  unfold allocateNode
  cases hs : List.findSome? _ (List.range 8) with
  | some r =>
    obtain ⟨bg, -, hbg⟩ := List.exists_of_findSome?_eq_some hs
    split at hbg
    · obtain ⟨idx, -, he⟩ := Option.map_eq_some_iff.mp hbg
      rw [Option.getD_some, ← he]
      exact Nat.succ_ne_zero _
    · cases hbg
  | none =>
    have hn := List.findSome?_eq_none_iff.mp hs (inodeToBgd i) (List.mem_range.mpr hg)
    have hpos : (fs.bgdtCache (inodeToBgd i)).bgFreeInodesCount > 0 := by
      rw [gt_iff_lt, UInt16.lt_iff_toNat_lt]
      have : (fs.bgdtCache (inodeToBgd i)).bgFreeInodesCount.toNat ≠ 0 := fun hc =>
        h.count (UInt16.toNat_inj.mp hc)
      show 0 < _
      omega
    rw [if_pos hpos, Option.map_eq_none_iff, hl.inodeBitmap _ hg] at hn
    have := firstClear_eq_none hn _ (inodeToLocal_lt i) (by have := inodeToLocal_lt i; omega)
    rw [bit_readBlocks (by have := inodeToLocal_lt i; omega)] at this
    unfold inodeUsed at hfree
    rw [hfree] at this
    cases this

/-- When `allocate_node` finds none it changes nothing. -/
theorem allocateNode_failed {fs : Fs} (h : (allocateNode fs).1 = 0) : (allocateNode fs).2 = fs := by
  unfold allocateNode at h ⊢
  cases hs : List.findSome? _ (List.range 8) with
  | none => rfl
  | some r =>
    obtain ⟨bg, -, hbg⟩ := List.exists_of_findSome?_eq_some hs
    rw [hs, Option.getD_some] at h
    split at hbg
    · obtain ⟨idx, -, he⟩ := Option.map_eq_some_iff.mp hbg
      rw [← he] at h
      cases h
    · cases hbg

/-- When it finds one it ends with `sync_metadata`. -/
theorem allocateNode_sync {fs : Fs} (h : (allocateNode fs).1 ≠ 0) :
    Remounts (allocateNode fs).2 := by
  unfold allocateNode at h ⊢
  cases hs : List.findSome? _ (List.range 8) with
  | none =>
    rw [hs] at h
    exact absurd rfl h
  | some r =>
    obtain ⟨bg, -, hbg⟩ := List.exists_of_findSome?_eq_some hs
    split at hbg
    · obtain ⟨idx, -, he⟩ := Option.map_eq_some_iff.mp hbg
      rw [Option.getD_some, ← he]
      exact remounts_sync _
    · cases hbg

/-! ## Runs -/

/-- The call does not stop half way: a `write` that has to grow its parent, and finds a block to
    mark, finds one that it can use, and an inode. (A clear bit of block 0 is marked, and the scan
    goes on with the next byte.) -/
structure Flushes (c : Call) (fs : Fs) : Prop where
  parent : IsInode c.request.parentInode.toNat
  grow : ∀ request, c = .write request → isDir fs.disk request.parentInode.toNat = true →
    scanParent request fs = none →
    (∃ b, BlockLeft fs (inodeToBgd request.parentInode.toNat) b) →
      (∃ b, BlockLeft fs (inodeToBgd request.parentInode.toNat) b ∧
        (BlockLeft fs (inodeToBgd request.parentInode.toNat) 0 → 8 ≤ b)) ∧ ∃ i, InodeLeft fs i

section Runs

variable {request : EXT2DriverRequest} {fs fs₀ : Fs}

/-- The growth path of a `write` that does not stop half way. -/
theorem writeGrow_remounts (hl : Layout fs) (h : Remounts fs) (hok : Flushes (.write request) fs)
    (hd : isDir fs.disk request.parentInode.toNat = true) (hscan : scanParent request fs = none)
    (buf : Mem) : Remounts (writeGrow request buf fs).2 := by
  have hgrow := hok.grow request rfl hd hscan
  generalize hp : inodeToBgd request.parentInode.toNat = pref at hgrow
  have h8 : ∀ bg ∈ List.range' pref (8 - pref), bg < 8 := fun bg hbg => by
    have := List.mem_range'_1.mp hbg
    omega
  by_cases hleft : ∃ b, BlockLeft fs pref b
  · obtain ⟨⟨b, hb, hb0⟩, i, hi⟩ := hgrow hleft
    apply writeGrow_sync
    have hfree := hb.free
    unfold blockUsed at hfree
    have h1 : (growSearch (List.range' pref (8 - pref)) fs).1 ≠ 0 := by
      refine growSearch_of_left h8 hl ⟨b / 256, List.mem_range'_1.mpr ?_, hb.count, b % 256,
        Nat.mod_lt _ (by decide), hfree, fun hg hz => ?_⟩
      · have h2 := hb.ge
        have h3 := hb.lt
        omega
      · have hcount := hb.count
        have hge := hb.ge
        rw [hg] at hcount
        have := hb0 ⟨by decide, by omega, hcount, hz⟩
        omega
    have h2 : (allocateNode (growSearch (List.range' pref (8 - pref)) fs).2).1 ≠ 0 :=
      allocateNode_of_left (hl.of_geometry (growSearch_geometry _ _))
        ((growSearch_marked h8 hl).left hi)
    unfold writeGrow
    dsimp only
    rw [hp, if_neg h1, if_neg h2]
  · have hs : growSearch (List.range' pref (8 - pref)) fs = (0, fs) := by
      apply growSearch_of_none hl h8
      intro bg hbg hcnt idx hidx
      by_contra hc
      have := List.mem_range'_1.mp hbg
      refine hleft ⟨256 * bg + idx, by omega, by omega, ?_, ?_⟩
      · rwa [show (256 * bg + idx) / 256 = bg by omega]
      · unfold blockUsed
        rw [show (256 * bg + idx) / 256 = bg by omega, show (256 * bg + idx) % 256 = idx by omega]
        simpa using hc
    unfold writeGrow
    dsimp only
    rw [hp]
    simp only [hs, if_true]
    exact h

/-- A call that does not stop half way leaves the cache and the disk together. -/
theorem Remounts.call {c : Call} (hl : Layout fs) (h : Remounts fs) (hok : Flushes c fs) :
    Remounts (c.run fs).2 := by
  cases c with
  | delete request =>
    by_cases h0 : (delete request fs).1 = 0
    · exact delete_sync h0
    · rw [Call.run_delete, delete_failed h0]
      exact h
  | write request =>
    rw [Call.run_write]
    have hp : IsInode request.parentInode.toNat := hok.parent
    cases hd : isDir fs.disk request.parentInode.toNat with
    | false =>
      rw [write_of_not_dir hl hp hd]
      exact h
    | true =>
      rw [write_of_dir hl hp hd]
      cases hs : scanParent request fs with
      | none => exact writeGrow_remounts hl h hok hd hs _
      | some q =>
        obtain ⟨b, sc⟩ := q
        cases sc with
        | done => exact h
        | duplicate => exact h
        | hole off =>
          dsimp only
          by_cases h0 : (writeHole request b off fs).1 = 0
          · exact writeHole_sync h0
          · have hz : (allocateNode fs).1 = 0 := by
              by_contra hne
              apply h0
              unfold writeHole
              dsimp only
              rw [if_neg hne]
            unfold writeHole
            dsimp only
            rw [if_pos hz, allocateNode_failed hz]
            exact h

/-- In every state that is reached from a mounted file system without a `write` that stops half
    way, mounting again would load what the driver holds. -/
theorem remount_noop (hl : Layout fs₀) (h : Remounts fs₀) (hrun : Run Flushes fs₀ fs) :
    Remounts fs := by
  have hinv : Layout fs ∧ Remounts fs := hrun.invariant
    (I := fun fs => Layout fs ∧ Remounts fs) (fun _ s ⟨hl, h⟩ => ⟨hl.withStack s, h.withStack s⟩)
    (fun c _ ⟨hl, h⟩ hok => ⟨hl.call c, h.call hl hok⟩) ⟨hl, h⟩
  exact hinv.2

end Runs

/-! ## A file system without inodes -/

theorem remounts_takeInodes {fs : Fs} (h : Remounts fs) (n : Nat) : Remounts (takeInodes n fs) := by
  induction n with
  | zero => exact h
  | succ n ih =>
    unfold takeInodes
    by_cases h0 : (allocateNode (takeInodes n fs)).1 = 0
    · rw [allocateNode_failed h0]
      exact ih
    · exact allocateNode_sync h0

/-- A `write` that stops half way has lowered a counter of the superblock in memory only. -/
theorem HalfGrows.not_remounts {request : EXT2DriverRequest} {fs : Fs}
    (h : HalfGrows request fs) (hr : Ready fs) (hp : IsInode request.parentInode.toNat)
    (hm : Remounts fs) : ¬ Remounts (write request fs).2 := by
  obtain ⟨nb, fs₀, hs, hgrab, he⟩ := h.fails hr hp
  have hmark : Marked fs fs₀ := by
    have hrange : ∀ bg ∈ List.range' (inodeToBgd request.parentInode.toNat)
        (8 - inodeToBgd request.parentInode.toNat), bg < 8 :=
      fun bg hbg => by have := List.mem_range'_1.mp hbg; omega
    have := growSearch_marked hrange hr.layout
    rwa [hs] at this
  rw [he]
  intro hm'
  have hsuper : fs₀.superBlock = fs.superBlock := by
    rw [← hm'.super, ← hm.super]
    apply EXT2Superblock.load_congr
    intro o ho
    rw [readBlocks_of_lt _ _ (by omega), readBlocks_of_lt _ _ (by omega),
      hmark.frame 1 fun g => ((bitmapAt_ne g).1.1).symm]
  rw [hgrab.super] at hsuper
  have hcount := congrArg EXT2Superblock.sFreeBlocksCount hsuper
  have hnat := congrArg UInt32.toNat hcount
  have hlt := fs.superBlock.sFreeBlocksCount.toNat_lt
  dsimp only [List.length_singleton] at hnat
  rw [UInt32.toNat_sub, show (UInt32.ofNat 1).toNat = 1 from rfl] at hnat
  omega

/-- After the second long name the superblock in memory counts one block less than the disk. -/
theorem not_remounts_fullFs : Layout fullFs ∧ Remounts fullFs ∧
    IsInode (longName 98).parentInode.toNat ∧ ¬ Remounts (write (longName 98) fullFs).2 := by
  have hcode := (isFresh_freshFs.formatted.write_first (longName 97) rfl
    (by rw [requestName_longName]; decide) (by rw [requestName_longName]; decide)).1
  have hm : Remounts fullFs := remounts_takeInodes (write_sync hcode) 896
  have h := fullFs_halfGrows
  generalize fullFs = fs at h hm ⊢
  obtain ⟨hc, hg⟩ := h
  exact ⟨hc.ready.layout, hm, by decide, hg.not_remounts hc.ready (by decide) hm⟩

/-- From a fresh file system, with one call. -/
theorem remount_noop_fresh : Remounts (write (rootRequest [97] [] false) freshFs).2 := by
  have hf := isFresh_freshFs.formatted
  refine remount_noop hf.layout (remounts_boot _)
    ((Run.refl freshFs).write ⟨by decide, fun request he _ _ _ => ?_⟩)
  cases he
  refine ⟨⟨22, ⟨by decide, by decide, ?_, ?_⟩, fun _ => by decide⟩, 2, ⟨by decide, ?_, ?_⟩⟩
  · rw [hf.desc _ (by decide)]
    decide
  · rw [hf.blocks 22 (by decide)]
    rfl
  · rw [hf.desc _ (by decide)]
    decide
  · rw [hf.inodes 2 (by decide)]
    rfl

end LossOs.Ext2
