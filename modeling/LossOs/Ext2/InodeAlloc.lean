/-
  `allocate_node` as an allocator of numbers.

  The loops over groups, bytes and bits hand out the least number whose bit is clear, since
  `inode_to_bgd` and `inode_to_local` are the inverse of the number they build
  (`inode_of_bit`). A `deallocate_node` straight afterwards takes it back: with a slot of zeros
  it has no block to free, and all that is left is the bit and the two counters
  (`allocateNode_least`).
-/
import LossOs.Ext2.FileFree
import LossOs.Ext2.Stored
import LossOs.Ext2.Fresh

namespace LossOs.Ext2

open LossOs.Lib

/-- The free-inode counter of each group equals the clear bits of its inode bitmap. -/
def InodeCounters (fs : Fs) : Prop :=
  ∀ g < 8, (fs.bgdtCache g).bgFreeInodesCount.toNat = freeInodesOf fs.disk g

/-- `fs'` is `fs` after inode `n`, the least free one, has been handed out: its bit is set, the
    two counters are lower by one, and only the flushed superblock and descriptors differ
    besides. -/
structure HandsOut (fs fs' : Fs) (n : Nat) : Prop where
  isInode : IsInode n
  free : inodeUsed fs.disk n = false
  least : ∀ j, IsInode j → j < n → inodeUsed fs.disk j = true
  bits : ∀ j < 4096, bit (fs'.disk (inodeBitmapAt (inodeToBgd n))).mem j =
    (bit (fs.disk (inodeBitmapAt (inodeToBgd n))).mem j || decide (j = inodeToLocal n))
  blocks : ∀ b, b ≠ inodeBitmapAt (inodeToBgd n) → b ≠ 1 → b ≠ 2 → fs'.disk b = fs.disk b
  group : fs'.bgdtCache (inodeToBgd n) = { fs.bgdtCache (inodeToBgd n) with
    bgFreeInodesCount := (fs.bgdtCache (inodeToBgd n)).bgFreeInodesCount - 1 }
  counter : (fs'.bgdtCache (inodeToBgd n)).bgFreeInodesCount.toNat + 1 =
    (fs.bgdtCache (inodeToBgd n)).bgFreeInodesCount.toNat
  groups : ∀ g, g ≠ inodeToBgd n → fs'.bgdtCache g = fs.bgdtCache g
  super : fs'.superBlock = { fs.superBlock with
    sFreeInodesCount := fs.superBlock.sFreeInodesCount - 1 }

/-- `fs'` has the bitmaps, tables, data and counters of `fs`; what the flush wrote to the blocks 1
    and 2 aside. -/
structure AsBefore (fs fs' : Fs) : Prop where
  blocks : ∀ b, b ≠ 1 → b ≠ 2 → fs'.disk b = fs.disk b
  groups : fs'.bgdtCache = fs.bgdtCache
  super : fs'.superBlock = fs.superBlock

section Take

variable {fs : Fs} {g idx : Nat}

theorem takeInode_handsOut (hl : Layout fs) (hcnt : InodeCounters fs) (hg : g < 8)
    (hi : idx < 112) (hf : bit (fs.disk (inodeBitmapAt g)).mem idx = false)
    (hlow : ∀ j, IsInode j → j < g * 112 + idx + 1 → inodeUsed fs.disk j = true) :
    HandsOut fs (takeInode g idx (fs.readBlocks (fs.bgdtCache g).bgInodeBitmap.toNat) fs)
      (g * 112 + idx + 1) := by
  obtain ⟨hino, hbgd, hloc⟩ := inode_of_bit hg hi
  have hgrab := takeInode_grab hl hg hi hf hlow
  have hcache := takeInode_bgdtCache fs g idx
  have hpos : 0 < freeInodesOf fs.disk g := clearCount_pos hi hf
  refine ⟨hino, hgrab.fresh, hlow, fun j hj => ?_, hgrab.frame, ?_, ?_, fun g' h => ?_,
    hgrab.super⟩
  · rw [hbgd, hloc, takeInode_disk hl hg idx _ (bitmapAt_ne g).2.1 (bitmapAt_ne g).2.2,
      Function.update_self, bit_blockOf hj, bit_setBit, hl.inodeBitmap g hg, bit_readBlocks hj,
      Bool.or_comm]
  · rw [hbgd, hcache, if_pos rfl]
  · rw [hbgd, hcache, if_pos rfl]
    dsimp only
    have := hcnt g hg
    rw [UInt16.toNat_pred (by omega)]
    omega
  · rw [hbgd] at h
    rw [hcache, if_neg h]

end Take

/-! ## Taking it back -/

section Drop

variable {fs fs₁ : Fs} {n : Nat}

/-- An inode with a slot of zeros has no blocks, and is no directory. -/
theorem deallocateNode_zero (hl : Layout fs) (hi : IsInode n) (hz : ∀ o, slot fs.disk n o = 0) :
    deallocateNode n fs = dropInode n (fs.readBlocks (fs.inodeBlock n)) fs := by
  have hn0 : n ≠ 0 := by have := hi.1; omega
  have hnode : ∀ o < 70, view (fs.readBlocks (fs.inodeBlock n)) (slotOffset n) o =
      (fun _ => 0 : Mem) o := fun o ho => (hl.node_apply hi ho).trans (hz o)
  rw [deallocateNode_eq hn0]
  generalize view (fs.readBlocks (fs.inodeBlock n)) (slotOffset n) = node at hnode
  have hmode : iMode node = 0 := iMode_congr hnode
  have hblocks : iBlocks node = 0 := iBlocks_congr hnode
  have hdir : dropDir (inodeToBgd n) node fs = fs := by
    unfold dropDir
    rw [hmode, if_neg fun h => h.1 rfl]
  rw [hdir]
  unfold freeNodeBlocks freeSingle freeDoubleIndirect
  rw [hblocks]
  rfl

/-- Clearing the bit that was set and raising the counters that were lowered. -/
theorem HandsOut.dropped (h : HandsOut fs fs₁ n) (hl : Layout fs) (hz : ∀ o, slot fs.disk n o = 0)
    (stack : Mem) : AsBefore fs (deallocateNode n (fs₁.withStack stack)) := by
  have hi := h.isInode
  have hg := inodeToBgd_lt hi
  have hly : Layout (fs₁.withStack stack) := by
    have hsame : ∀ g, (fs₁.bgdtCache g).bgBlockBitmap = (fs.bgdtCache g).bgBlockBitmap ∧
        (fs₁.bgdtCache g).bgInodeBitmap = (fs.bgdtCache g).bgInodeBitmap ∧
        (fs₁.bgdtCache g).bgInodeTable = (fs.bgdtCache g).bgInodeTable := fun g => by
      by_cases hgn : g = inodeToBgd n
      · rw [hgn, h.group]
        exact ⟨rfl, rfl, rfl⟩
      · rw [h.groups g hgn]
        exact ⟨rfl, rfl, rfl⟩
    refine ⟨fun g hg => ?_, fun g hg => ?_, fun g hg => ?_⟩
    · exact (congrArg _ (hsame g).1).trans (hl.blockBitmap g hg)
    · exact (congrArg _ (hsame g).2.1).trans (hl.inodeBitmap g hg)
    · exact (congrArg _ (hsame g).2.2).trans (hl.inodeTable g hg)
  have htab : fs₁.disk (inodeBlockAt n) = fs.disk (inodeBlockAt n) :=
    h.blocks _ (inodeBitmapAt_ne_inodeBlockAt _ n).symm (inodeBlockAt_ne n).1 (inodeBlockAt_ne n).2
  rw [deallocateNode_zero hly hi fun o => by
    rw [withStack_disk, slot_congr htab]
    exact hz o]
  refine ⟨fun b h1 h2 => ?_, funext fun g => ?_, ?_⟩
  · rw [dropInode_disk hly hi (fun o _ => by rw [hly.inodeBlock_eq hi]) h1 h2, withStack_disk]
    by_cases hb : b = inodeBitmapAt (inodeToBgd n)
    · -- the bit was clear before it was set
      rw [hb, Function.update_self]
      refine Block.ext_bits (n := 512) (fun j hj => ?_) fun o ho => ?_
      · rw [bit_blockOf hj, bit_clearBit, bit_readBlocks hj, withStack_disk, h.bits j hj]
        by_cases hjn : j = inodeToLocal n
        · have hfree := h.free
          unfold inodeUsed at hfree
          rw [hjn, hfree]
          simp
        · simp [hjn]
      · unfold Block.mem
        rw [dif_neg (by omega), dif_neg (by omega)]
    · rw [Function.update_of_ne hb]
      by_cases ht : b = inodeBlockAt n
      · -- zeros over a slot of zeros
        rw [ht, Function.update_self]
        apply Block.ext_mem
        intro o ho
        rw [mem_blockOf ho]
        by_cases hin : slotOffset n ≤ o ∧ o < slotOffset n + 70
        · have hzo := hz (o - slotOffset n)
          unfold slot at hzo
          rw [if_pos (by omega), Nat.add_sub_cancel' hin.1] at hzo
          rw [blit_of_mem hin.1 hin.2, hzo]
        · rw [blit_of_not_mem (by omega), readBlocks_of_lt _ _ ho, withStack_disk, htab]
      · rw [Function.update_of_ne ht, h.blocks b hb h1 h2]
  · rw [dropInode_bgdtCache]
    by_cases hgn : g = inodeToBgd n
    · rw [if_pos hgn, hgn, show (fs₁.withStack stack).bgdtCache = fs₁.bgdtCache from rfl, h.group]
      simp
    · rw [if_neg hgn]
      exact h.groups g hgn
  · show { fs₁.superBlock with sFreeInodesCount := fs₁.superBlock.sFreeInodesCount + 1 } =
      fs.superBlock
    rw [h.super]
    simp

end Drop

/-- `allocate_node` returns 0, and then changes nothing, exactly when all inodes are in use; else
    it hands out the least free one, and `deallocate_node` straight afterwards takes it back when
    its slot is zero. -/
theorem allocateNode_least {fs : Fs} (hl : Layout fs) (hcnt : InodeCounters fs) :
    ((allocateNode fs).1 = 0 ↔ ∀ j, IsInode j → inodeUsed fs.disk j = true) ∧
    (allocateNode fs = (0, fs) ↔ ∀ j, IsInode j → inodeUsed fs.disk j = true) ∧
    ((∃ j, IsInode j ∧ inodeUsed fs.disk j = false) →
      HandsOut fs (allocateNode fs).2 (allocateNode fs).1 ∧
      ((∀ o, slot fs.disk (allocateNode fs).1 o = 0) → ∀ stack,
        AsBefore fs (deallocateNode (allocateNode fs).1
          ((allocateNode fs).2.withStack stack)))) := by
  rcases allocateNode_cases hl hcnt with ⟨he, hall⟩ | ⟨g, idx, hg, hi, hclear, hlow, he⟩
  · rw [he]
    refine ⟨iff_of_true rfl hall, iff_of_true rfl hall, ?_⟩
    rintro ⟨j, hj, hfree⟩
    rw [hall j hj] at hfree
    cases hfree
  · have hout := takeInode_handsOut hl hcnt hg hi hclear hlow
    have hnot : ¬ ∀ j, IsInode j → inodeUsed fs.disk j = true := fun hall => by
      have hfree := hout.free
      rw [hall _ hout.isInode] at hfree
      cases hfree
    rw [he]
    refine ⟨iff_of_false (Nat.succ_ne_zero _) hnot,
      iff_of_false (fun hc => Nat.succ_ne_zero _ (congrArg Prod.fst hc)) hnot, fun _ =>
      ⟨hout, fun hz stack => hout.dropped hl hz stack⟩⟩

/-- On a fresh file system inode 2 is handed out and taken back. -/
theorem allocateNode_least_fresh : (allocateNode freshFs).1 = 2 ∧
    HandsOut freshFs (allocateNode freshFs).2 2 ∧
    AsBefore freshFs (deallocateNode 2 ((allocateNode freshFs).2.withStack fun _ => 3)) := by
  have hf := isFresh_freshFs.formatted
  have h2 : inodeUsed freshFs.disk 2 = false := by
    rw [hf.inodes 2 (by decide)]
    rfl
  obtain ⟨hout, hback⟩ := (allocateNode_least hf.layout hf.counters.inodes).2.2 ⟨2, by decide, h2⟩
  have hn : (allocateNode freshFs).1 = 2 := by
    have hfree := hout.free
    rw [hf.inodes _ hout.isInode, decide_eq_false_iff_not] at hfree
    have hpos := hout.isInode.1
    by_contra hne
    have := hout.least 2 (by decide) (by omega)
    rw [h2] at this
    cases this
  rw [hn] at hout hback
  exact ⟨hn, hout, hback (hf.slots 2 (by decide) (by decide)) _⟩

end LossOs.Ext2
