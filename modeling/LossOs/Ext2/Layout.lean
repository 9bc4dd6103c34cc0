/-
  Where the file system keeps things, and what a disk says when it is read there.

  `create_ext2` fixes the layout once: `blockBitmapAt`, `inodeBitmapAt`, `inodeTableAt`.
  Read through it, a disk is four maps: the used bits of blocks (`blockUsed`), the used bits
  of inodes (`inodeUsed`), the 70-byte slots of inodes (`slot`), and the data blocks
  themselves. The maps live in disjoint blocks, so a write to one block changes one map
  (`blockUsed_update`, `inodeUsed_update`, `slot_update`).

  `Ready` is what the allocation code needs: cached descriptors that point to these blocks,
  counters equal to the clear bits, and metadata that is never free.
-/
import LossOs.Ext2.Driver

namespace LossOs.Ext2

open LossOs.Lib

/-! ## Addresses -/

def blockBitmapAt (g : Nat) : Nat := if g = 0 then 3 else 256 * g

def inodeBitmapAt (g : Nat) : Nat := if g = 0 then 4 else 256 * g + 1

def inodeTableAt (g : Nat) : Nat := if g = 0 then 5 else 256 * g + 2

/-- The inode-table block of inode `i`. -/
def inodeBlockAt (i : Nat) : Nat := inodeTableAt (inodeToBgd i) + inodeToLocal i / 7

/-- Inode numbers that exist: 8 groups of 112. -/
def IsInode (i : Nat) : Prop := 1 ≤ i ∧ i ≤ 896

/-- Boot block, superblock, descriptors, bitmaps and inode tables. -/
def IsMeta (b : Nat) : Prop := b < 2048 ∧ (b < 21 ∨ 256 ≤ b ∧ b % 256 < 18)

/-- Blocks of a group that hold data. -/
def IsData (b : Nat) : Prop := b < 2048 ∧ 21 ≤ b ∧ (256 ≤ b → 18 ≤ b % 256)

instance (i : Nat) : Decidable (IsInode i) := inferInstanceAs (Decidable (_ ∧ _))
instance (b : Nat) : Decidable (IsMeta b) := inferInstanceAs (Decidable (_ ∧ _))
instance (b : Nat) : Decidable (IsData b) := inferInstanceAs (Decidable (_ ∧ _))

theorem isMeta_or_isData {b : Nat} (h : b < 2048) : IsMeta b ∨ IsData b := by
  unfold IsMeta IsData; omega

theorem IsData.not_isMeta {b : Nat} (h : IsData b) : ¬ IsMeta b := by
  unfold IsData at h; unfold IsMeta; omega

theorem IsData.ne_zero {b : Nat} (h : IsData b) : b ≠ 0 := by
  unfold IsData at h; omega

theorem IsData.ne_blockBitmapAt {b : Nat} (h : IsData b) (g : Nat) : b ≠ blockBitmapAt g := by
  unfold IsData at h; unfold blockBitmapAt
  split <;> omega

theorem IsData.ne_inodeBitmapAt {b : Nat} (h : IsData b) (g : Nat) : b ≠ inodeBitmapAt g := by
  unfold IsData at h; unfold inodeBitmapAt
  split <;> omega

theorem inodeToBgd_lt {i : Nat} (h : IsInode i) : inodeToBgd i < 8 := by
  unfold IsInode at h; unfold inodeToBgd
  split <;> omega

theorem inodeToLocal_lt (i : Nat) : inodeToLocal i < 112 := by
  unfold inodeToLocal
  split <;> omega

theorem slotOffset_le (i : Nat) : slotOffset i ≤ 420 := by
  unfold slotOffset; omega

/-- The inode tables lie between the bitmaps and the data of their group. -/
theorem inodeBlockAt_mem (i : Nat) :
    inodeTableAt (inodeToBgd i) ≤ inodeBlockAt i ∧
      inodeBlockAt i < inodeTableAt (inodeToBgd i) + 16 := by
  have := inodeToLocal_lt i
  unfold inodeBlockAt; omega

theorem IsData.ne_inodeBlockAt {b : Nat} (h : IsData b) (i : Nat) :
    b ≠ inodeBlockAt i := by
  have hm := inodeBlockAt_mem i
  unfold IsData at h
  unfold inodeTableAt at hm
  split at hm <;> omega

theorem blockBitmapAt_ne_inodeBitmapAt (g g' : Nat) : blockBitmapAt g ≠ inodeBitmapAt g' := by
  unfold blockBitmapAt inodeBitmapAt
  split <;> split <;> omega

theorem blockBitmapAt_inj {g g' : Nat} (h : blockBitmapAt g = blockBitmapAt g') : g = g' := by
  unfold blockBitmapAt at h
  split at h <;> split at h <;> omega

theorem inodeBitmapAt_inj {g g' : Nat} (h : inodeBitmapAt g = inodeBitmapAt g') : g = g' := by
  unfold inodeBitmapAt at h
  split at h <;> split at h <;> omega

theorem blockBitmapAt_ne_inodeBlockAt (g i : Nat) :
    blockBitmapAt g ≠ inodeBlockAt i := by
  have hm := inodeBlockAt_mem i
  unfold inodeTableAt at hm
  unfold blockBitmapAt
  split at hm <;> split <;> omega

theorem inodeBitmapAt_ne_inodeBlockAt (g i : Nat) :
    inodeBitmapAt g ≠ inodeBlockAt i := by
  have hm := inodeBlockAt_mem i
  unfold inodeTableAt at hm
  unfold inodeBitmapAt
  split at hm <;> split <;> omega

/-- An inode is found by its table block and its slot in it. -/
theorem inode_ext {i j : Nat} (hi : IsInode i) (hj : IsInode j)
    (hb : inodeBlockAt i = inodeBlockAt j) (hs : slotOffset i = slotOffset j) : i = j := by
  have hli := inodeToLocal_lt i
  have hlj := inodeToLocal_lt j
  have hg : inodeToBgd i = inodeToBgd j := by
    unfold inodeBlockAt inodeTableAt at hb
    split at hb <;> split at hb <;> omega
  have hl : inodeToLocal i = inodeToLocal j := by
    unfold inodeBlockAt at hb
    rw [hg] at hb
    unfold slotOffset at hs
    omega
  unfold IsInode at hi hj
  unfold inodeToBgd at hg
  unfold inodeToLocal at hl
  rw [if_neg (by omega), if_neg (by omega)] at hg hl
  omega

/-! ## Blocks as memories -/

theorem Block.mem_of_lt (b : Block) {o : Nat} (h : o < 512) : b.mem o = b ⟨o, h⟩ := dif_pos h

@[simp] theorem blockOf_mem (b : Block) : blockOf b.mem = b := by
  funext o
  exact Block.mem_of_lt b o.isLt

theorem mem_blockOf {buf : Mem} {o : Nat} (h : o < 512) : (blockOf buf).mem o = buf o :=
  Block.mem_of_lt _ h

theorem Block.ext_mem {b b' : Block} (h : ∀ o < 512, b.mem o = b'.mem o) : b = b' := by
  funext o
  have := h o o.isLt
  rwa [Block.mem_of_lt, Block.mem_of_lt] at this

/-- A block is known by the bits of its first `n` bytes and by its other bytes. -/
theorem Block.ext_bits {b b' : Block} {n : Nat} (h : ∀ i < 8 * n, bit b.mem i = bit b'.mem i)
    (h' : ∀ o, n ≤ o → b.mem o = b'.mem o) : b = b' := by
  apply Block.ext_mem
  intro o _
  by_cases ho : o < n
  · exact eq_of_bit_eq h o ho
  · exact h' o (by omega)

theorem blockOf_congr {m m' : Mem} (h : ∀ o < 512, m o = m' o) : blockOf m = blockOf m' :=
  funext fun o => h o o.isLt

theorem readBlocks_of_lt (fs : Fs) (n : Nat) {o : Nat} (h : o < 512) :
    fs.readBlocks n o = (fs.disk n).mem o := by
  unfold Fs.readBlocks Block.mem
  rw [dif_pos h, dif_pos h]

@[simp] theorem writeBlocks_disk (fs : Fs) (n : Nat) (buf : Mem) :
    (fs.writeBlocks n buf).disk = Function.update fs.disk n (blockOf buf) := rfl

@[simp] theorem writeBlocks_bgdtCache (fs : Fs) (n : Nat) (buf : Mem) :
    (fs.writeBlocks n buf).bgdtCache = fs.bgdtCache := rfl

@[simp] theorem writeBlocks_superBlock (fs : Fs) (n : Nat) (buf : Mem) :
    (fs.writeBlocks n buf).superBlock = fs.superBlock := rfl

@[simp] theorem writeBlocks_stack (fs : Fs) (n : Nat) (buf : Mem) :
    (fs.writeBlocks n buf).stack = fs.stack := rfl

@[simp] theorem modifyDesc_disk (fs : Fs) (g : Nat) (f) : (fs.modifyDesc g f).disk = fs.disk :=
  rfl

@[simp] theorem modifyDesc_superBlock (fs : Fs) (g : Nat) (f) :
    (fs.modifyDesc g f).superBlock = fs.superBlock := rfl

@[simp] theorem modifyDesc_stack (fs : Fs) (g : Nat) (f) :
    (fs.modifyDesc g f).stack = fs.stack := rfl

theorem modifyDesc_same (fs : Fs) (g : Nat) (f) :
    (fs.modifyDesc g f).bgdtCache g = f (fs.bgdtCache g) := Function.update_self ..

theorem modifyDesc_of_ne {fs : Fs} {g g' : Nat} {f} (h : g' ≠ g) :
    (fs.modifyDesc g f).bgdtCache g' = fs.bgdtCache g' := Function.update_of_ne h ..

theorem zeroBuf_apply {fs : Fs} {o : Nat} (h : o < 512) : fs.zeroBuf o = 0 :=
  fill_of_mem (Nat.zero_le _) (by omega)

/-! ## The maps of a disk -/

/-- The bit of block `b` in its group's bitmap. -/
def blockUsed (d : Disk) (b : Nat) : Bool := bit (d (blockBitmapAt (b / 256))).mem (b % 256)

/-- The bit of inode `i` in its group's bitmap. -/
def inodeUsed (d : Disk) (i : Nat) : Bool :=
  bit (d (inodeBitmapAt (inodeToBgd i))).mem (inodeToLocal i)

/-- The 70 bytes of inode `i`. -/
def slot (d : Disk) (i : Nat) : Mem := fun o =>
  if o < 70 then (d (inodeBlockAt i)).mem (slotOffset i + o) else 0

/-- The first 70 bytes of a node, as `sync_node` copies them. -/
def cutNode (node : Mem) : Mem := fun o => if o < 70 then node o else 0

/-- Clear bits of the block bitmap of group `g`. -/
def freeBlocksOf (d : Disk) (g : Nat) : Nat := clearCount (d (blockBitmapAt g)).mem 256

/-- Clear bits of the inode bitmap of group `g`. -/
def freeInodesOf (d : Disk) (g : Nat) : Nat := clearCount (d (inodeBitmapAt g)).mem 112

/-- Is the slot of `i` that of a directory? -/
def isDir (d : Disk) (i : Nat) : Bool := iMode (slot d i) &&& 0x4000 != 0

theorem slot_congr {d d' : Disk} {i : Nat} (h : d (inodeBlockAt i) = d' (inodeBlockAt i)) :
    slot d i = slot d' i := by
  unfold slot; rw [h]

theorem blockUsed_update {d : Disk} {n : Nat} {c : Block} (h : ∀ g, n ≠ blockBitmapAt g)
    (b : Nat) : blockUsed (Function.update d n c) b = blockUsed d b := by
  unfold blockUsed
  rw [Function.update_of_ne (h _).symm]

theorem inodeUsed_update {d : Disk} {n : Nat} {c : Block} (h : ∀ g, n ≠ inodeBitmapAt g)
    (i : Nat) : inodeUsed (Function.update d n c) i = inodeUsed d i := by
  unfold inodeUsed
  rw [Function.update_of_ne (h _).symm]

theorem slot_update {d : Disk} {n i : Nat} {c : Block} (h : n ≠ inodeBlockAt i) :
    slot (Function.update d n c) i = slot d i :=
  slot_congr (Function.update_of_ne h.symm ..)

theorem freeBlocksOf_update {d : Disk} {n : Nat} {c : Block} (h : ∀ g, n ≠ blockBitmapAt g)
    (g : Nat) : freeBlocksOf (Function.update d n c) g = freeBlocksOf d g := by
  unfold freeBlocksOf
  rw [Function.update_of_ne (h _).symm]

theorem freeInodesOf_update {d : Disk} {n : Nat} {c : Block} (h : ∀ g, n ≠ inodeBitmapAt g)
    (g : Nat) : freeInodesOf (Function.update d n c) g = freeInodesOf d g := by
  unfold freeInodesOf
  rw [Function.update_of_ne (h _).symm]

/-! ## Nodes, as the code sees them and as the disk holds them -/

/-- The fields of a node lie in its 70 bytes. -/
theorem iMode_congr {m m' : Mem} (h : ∀ o < 70, m o = m' o) : iMode m = iMode m' :=
  rd16_congr fun o _ ho => h o (by omega)

theorem iSize_congr {m m' : Mem} (h : ∀ o < 70, m o = m' o) : iSize m = iSize m' :=
  rd32_congr fun o _ ho => h o (by omega)

theorem iBlocks_congr {m m' : Mem} (h : ∀ o < 70, m o = m' o) : iBlocks m = iBlocks m' :=
  rd32_congr fun o _ ho => h o (by omega)

theorem iBlock_congr {m m' : Mem} {k : Nat} (h : ∀ o < 70, m o = m' o) (hk : k < 15) :
    iBlock m k = iBlock m' k :=
  rd32_congr fun o _ ho => h o (by omega)

theorem cutNode_of_lt {node : Mem} {o : Nat} (h : o < 70) : cutNode node o = node o := if_pos h

/-! ## Changing one slot -/

/-- The inode tables of `d'` are those of `d`, up to the slot of `i`. -/
def SameSlots (d d' : Disk) (i : Nat) : Prop :=
  ∀ j o, ¬ (inodeBlockAt j = inodeBlockAt i ∧ slotOffset i ≤ o ∧ o < slotOffset i + 70) →
    (d' (inodeBlockAt j)).mem o = (d (inodeBlockAt j)).mem o

theorem SameSlots.slot_eq {d d' : Disk} {i j : Nat} (h : SameSlots d d' i) (hi : IsInode i)
    (hj : IsInode j) (hne : j ≠ i) : slot d' j = slot d j := by
  funext o
  unfold slot
  split
  · apply h j _
    rintro ⟨hb, h1, h2⟩
    refine hne (inode_ext hj hi hb ?_)
    unfold slotOffset at h1 h2 ⊢
    omega
  · rfl

/-- Storing 70 bytes at an inode's slot of its table block changes that slot only. -/
theorem sameSlots_blit (fs : Fs) (i : Nat) (node : Mem) :
    SameSlots fs.disk (Function.update fs.disk (inodeBlockAt i)
      (blockOf (blit (fs.readBlocks (inodeBlockAt i)) (slotOffset i) node 70))) i := by
  intro j o h
  by_cases hb : inodeBlockAt j = inodeBlockAt i
  · rw [hb, Function.update_self]
    by_cases ho : o < 512
    · rw [mem_blockOf ho, blit_of_not_mem (by omega), readBlocks_of_lt _ _ ho]
    · unfold Block.mem
      rw [dif_neg ho, dif_neg ho]
  · rw [Function.update_of_ne hb]

theorem slot_blit (d : Disk) (i : Nat) (buf node : Mem) :
    slot (Function.update d (inodeBlockAt i) (blockOf (blit buf (slotOffset i) node 70))) i =
      cutNode node := by
  funext o
  have := slotOffset_le i
  unfold slot cutNode
  split
  · rw [Function.update_self, mem_blockOf (by omega), blit_of_mem (by omega) (by omega),
      Nat.add_sub_cancel_left]
  · rfl

/-! ## States that are ready for allocation -/

/-- The cached descriptors are those `create_ext2` writes, counters aside. -/
structure Layout (fs : Fs) : Prop where
  blockBitmap : ∀ g < 8, (fs.bgdtCache g).bgBlockBitmap.toNat = blockBitmapAt g
  inodeBitmap : ∀ g < 8, (fs.bgdtCache g).bgInodeBitmap.toNat = inodeBitmapAt g
  inodeTable : ∀ g < 8, (fs.bgdtCache g).bgInodeTable.toNat = inodeTableAt g

/-- The free counters of each group equal the clear bits of its bitmaps. -/
structure Counters (fs : Fs) : Prop where
  blocks : ∀ g < 8, (fs.bgdtCache g).bgFreeBlocksCount.toNat = freeBlocksOf fs.disk g
  inodes : ∀ g < 8, (fs.bgdtCache g).bgFreeInodesCount.toNat = freeInodesOf fs.disk g

structure Ready (fs : Fs) : Prop where
  layout : Layout fs
  counters : Counters fs
  metaUsed : ∀ b, IsMeta b → blockUsed fs.disk b = true

theorem Layout.inodeBlock_eq {fs : Fs} (h : Layout fs) {i : Nat} (hi : IsInode i) :
    fs.inodeBlock i = inodeBlockAt i := by
  unfold Fs.inodeBlock inodeBlockAt
  rw [h.inodeTable _ (inodeToBgd_lt hi)]

/-- The node at an inode's slot of a freshly read table block is the slot of the disk. -/
theorem Layout.node_apply {fs : Fs} (h : Layout fs) {i o : Nat} (hi : IsInode i) (ho : o < 70) :
    view (fs.readBlocks (fs.inodeBlock i)) (slotOffset i) o = slot fs.disk i o := by
  have := slotOffset_le i
  rw [view_apply, h.inodeBlock_eq hi, readBlocks_of_lt _ _ (by omega)]
  unfold slot
  rw [if_pos ho]

/-- A free block of a ready state is a data block. -/
theorem Ready.isData_of_free {fs : Fs} (h : Ready fs) {b : Nat} (hb : b < 2048)
    (hf : blockUsed fs.disk b = false) : IsData b := by
  rcases isMeta_or_isData hb with hm | hd
  · rw [h.metaUsed b hm] at hf; cases hf
  · exact hd

end LossOs.Ext2
