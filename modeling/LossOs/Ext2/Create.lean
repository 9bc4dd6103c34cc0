/-
  `write`: what it takes from the free lists, and the inode it builds.

  `Took fs fs' i L X dir`: between `fs` and `fs'` inode `i` and the blocks `L` went from
  free to used, and of the data blocks only those of `L` and `X` were written. The stores
  that follow an allocation keep it (`Took.writeData`, `Took.writeTable`, `Took.sync`).
  `FileAt` and `DirAt` say what a new file or directory looks like on the disk;
  `createFile_spec` and `createDir_spec` show that `write` builds them.
-/
import LossOs.Ext2.FileAlloc
import LossOs.Ext2.Records

namespace LossOs.Ext2

open LossOs.Lib

theorem Grab.inodeBitmap_eq {fs fs' : Fs} {L : List Nat} (h : Grab fs fs' L) (g : Nat) :
    fs'.disk (inodeBitmapAt g) = fs.disk (inodeBitmapAt g) :=
  h.frame _ (fun hc => (h.data _ hc).ne_inodeBitmapAt _ rfl)
    (fun g' _ => (blockBitmapAt_ne_inodeBitmapAt g' _).symm) (bitmapAt_ne _).2.1 (bitmapAt_ne _).2.2

/-! ## Taking an inode with its blocks -/

/-- `fs'` is `fs` after the first free inode `i` and the free blocks `L` have been taken. Of
    the data blocks only those of `L` and `X` have been written; `dir` tells whether the
    inode was counted as a directory. -/
structure Took (fs fs' : Fs) (i : Nat) (L X : List Nat) (dir : Bool) : Prop where
  isInode : IsInode i
  freshInode : inodeUsed fs.disk i = false
  first : ∀ j, IsInode j → j < i → inodeUsed fs.disk j = true
  nodup : L.Nodup
  data : ∀ b ∈ L, IsData b
  fresh : ∀ b ∈ L, blockUsed fs.disk b = false
  blocks : ∀ b < 2048, blockUsed fs'.disk b = (blockUsed fs.disk b || decide (b ∈ L))
  inodes : ∀ j, IsInode j → inodeUsed fs'.disk j = (inodeUsed fs.disk j || decide (j = i))
  frame : ∀ b, IsData b → b ∉ L → b ∉ X → fs'.disk b = fs.disk b
  blockTail : ∀ g < 8, ∀ o, 32 ≤ o →
    (fs'.disk (blockBitmapAt g)).mem o = (fs.disk (blockBitmapAt g)).mem o
  inodeTail : ∀ g < 8, ∀ o, 14 ≤ o →
    (fs'.disk (inodeBitmapAt g)).mem o = (fs.disk (inodeBitmapAt g)).mem o
  desc : ∀ g, fs'.bgdtCache g =
    { fs.bgdtCache g with
      bgFreeBlocksCount := (fs'.bgdtCache g).bgFreeBlocksCount
      bgFreeInodesCount := (fs'.bgdtCache g).bgFreeInodesCount
      bgUsedDirsCount := (fs'.bgdtCache g).bgUsedDirsCount }
  usedDirs : dir = false →
    ∀ g, (fs'.bgdtCache g).bgUsedDirsCount = (fs.bgdtCache g).bgUsedDirsCount
  super : fs'.superBlock = { fs.superBlock with
    sFreeBlocksCount := fs.superBlock.sFreeBlocksCount - UInt32.ofNat L.length
    sFreeInodesCount := fs.superBlock.sFreeInodesCount - 1 }
  stack : fs'.stack = fs.stack
  counters : Counters fs → Counters fs'

/-- Blocks, an inode, and more blocks. -/
theorem Took.of_grab {fs fs₀ fs₁ fs₂ : Fs} {i : Nat} {L M : List Nat} (h0 : Grab fs fs₀ M)
    (hi : GrabInode fs₀ fs₁ i) (h : Grab fs₁ fs₂ L) : Took fs fs₂ i (M ++ L) [] false := by
  have hmem : ∀ b, b ∈ M ++ L ↔ b ∈ M ∨ b ∈ L := fun b => List.mem_append
  have hfresh : ∀ b ∈ L, blockUsed fs₀.disk b = false := fun b hb => by
    rw [← hi.blockUsed_eq]; exact h.fresh b hb
  have hM : ∀ b ∈ L, b ∉ M ∧ blockUsed fs.disk b = false := by
    intro b hb
    have := hfresh b hb
    rw [h0.used b (h.data b hb).1, Bool.or_eq_false_iff] at this
    exact ⟨by simpa using this.2, this.1⟩
  refine ⟨hi.isInode, ?_, ?_, ?_, ?_, ?_, ?_, ?_, ?_, ?_, ?_, ?_, fun _ => ?_, ?_, ?_, ?_⟩
  · rw [← h0.inodeUsed_eq hi.isInode]; exact hi.fresh
  · intro j hj hlt
    rw [← h0.inodeUsed_eq hj]; exact hi.first j hj hlt
  · exact List.nodup_append.mpr ⟨h0.nodup, h.nodup, fun a ha b hb hab => (hM b hb).1 (hab ▸ ha)⟩
  · exact fun b hb => ((hmem b).mp hb).elim (h0.data b) (h.data b)
  · exact fun b hb => ((hmem b).mp hb).elim (h0.fresh b) fun hb => (hM b hb).2
  · intro b hb
    rw [h.used b hb, hi.blockUsed_eq, h0.used b hb]
    simp [Bool.or_assoc]
  · intro j hj
    rw [h.inodeUsed_eq hj, hi.used j hj, h0.inodeUsed_eq hj]
  · intro b hb hL _
    rw [hmem, not_or] at hL
    rw [h.data_eq hb hL.2, hi.data_eq hb, h0.data_eq hb hL.1]
  · intro g hg o ho
    rw [h.tail g hg o ho, hi.blockBitmap_eq, h0.tail g hg o ho]
  · intro g hg o ho
    rw [h.inodeBitmap_eq, ← h0.inodeBitmap_eq]
    by_cases hgi : g = inodeToBgd i
    · rw [hgi, hi.tail o ho]
    · rw [hi.frame _ (fun hc => hgi (inodeBitmapAt_inj hc)) (bitmapAt_ne g).2.1 (bitmapAt_ne g).2.2]
  · intro g
    rw [h.desc g, hi.desc g, h0.desc g]
  · intro g
    rw [h.desc g, hi.desc g, h0.desc g]
  · rw [h.super, hi.super, h0.super]
    have : ∀ x y z : UInt32, x - y - z = x - (y + z) := fun x y z => by grind
    rw [List.length_append, UInt32.ofNat_add, this]
  · rw [h.stack, hi.stack, h0.stack]
  · exact fun hc => h.counters (hi.counters (h0.counters hc))

/-- The inode tables are untouched so far. -/
theorem table_of_grab {fs fs₀ fs₁ fs₂ : Fs} {i : Nat} {L M : List Nat} (h0 : Grab fs fs₀ M)
    (hi : GrabInode fs₀ fs₁ i) (h : Grab fs₁ fs₂ L) (j : Nat) :
    fs₂.disk (inodeBlockAt j) = fs.disk (inodeBlockAt j) := by
  rw [h.table_eq, hi.table_eq, h0.table_eq]

section Took

variable {fs fs' : Fs} {i : Nat} {L X : List Nat} {dir : Bool}

theorem Took.used_of_mem (h : Took fs fs' i L X dir) :
    ∀ b ∈ L, IsData b ∧ blockUsed fs'.disk b = true := by
  intro b hb
  have hd := h.data b hb
  refine ⟨hd, ?_⟩
  rw [h.blocks b hd.1, decide_eq_true hb, Bool.or_true]

theorem Took.layout (h : Took fs fs' i L X dir) (hl : Layout fs) : Layout fs' where
  blockBitmap := fun g hg => by rw [h.desc g]; exact hl.blockBitmap g hg
  inodeBitmap := fun g hg => by rw [h.desc g]; exact hl.inodeBitmap g hg
  inodeTable := fun g hg => by rw [h.desc g]; exact hl.inodeTable g hg

theorem Took.ready (h : Took fs fs' i L X dir) (hr : Ready fs) : Ready fs' where
  layout := h.layout hr.layout
  counters := h.counters hr.counters
  metaUsed := fun b hb => by rw [h.blocks b hb.1, hr.metaUsed b hb]; rfl

theorem Took.not_mem_of_used (h : Took fs fs' i L X dir) {b : Nat}
    (hu : blockUsed fs.disk b = true) : b ∉ L :=
  fun hc => by rw [h.fresh b hc] at hu; cases hu

/-- A store to a block that holds no bitmap. -/
theorem Took.store (h : Took fs fs' i L X dir) {n : Nat} {Y : List Nat} (buf : Mem)
    (hb : ∀ g, n ≠ blockBitmapAt g) (hi : ∀ g, n ≠ inodeBitmapAt g) (hX : ∀ b ∈ X, b ∈ Y)
    (hn : IsData n → n ∈ L ∨ n ∈ Y) : Took fs (fs'.writeBlocks n buf) i L Y dir where
  isInode := h.isInode
  freshInode := h.freshInode
  first := h.first
  nodup := h.nodup
  data := h.data
  fresh := h.fresh
  blocks := fun b hlt => by rw [writeBlocks_disk, blockUsed_update hb, h.blocks b hlt]
  inodes := fun j hj => by rw [writeBlocks_disk, inodeUsed_update hi, h.inodes j hj]
  frame := fun b hd hL hY => by
    have hne : b ≠ n := by
      rintro rfl
      exact (hn hd).elim hL hY
    rw [writeBlocks_disk, Function.update_of_ne hne, h.frame b hd hL fun hc => hY (hX b hc)]
  blockTail := fun g hg o ho => by
    rw [writeBlocks_disk, Function.update_of_ne (hb g).symm, h.blockTail g hg o ho]
  inodeTail := fun g hg o ho => by
    rw [writeBlocks_disk, Function.update_of_ne (hi g).symm, h.inodeTail g hg o ho]
  desc := h.desc
  usedDirs := h.usedDirs
  super := h.super
  stack := h.stack
  counters := fun hc => by
    have hc' := h.counters hc
    refine ⟨fun g hg => ?_, fun g hg => ?_⟩
    · rw [writeBlocks_disk, freeBlocksOf_update hb]
      exact hc'.blocks g hg
    · rw [writeBlocks_disk, freeInodesOf_update hi]
      exact hc'.inodes g hg

theorem Took.writeData (h : Took fs fs' i L X dir) {b : Nat} (hb : IsData b) (buf : Mem) :
    Took fs (fs'.writeBlocks b buf) i L (b :: X) dir :=
  h.store buf hb.ne_blockBitmapAt hb.ne_inodeBitmapAt (fun _ hc => List.mem_cons_of_mem _ hc)
    fun _ => Or.inr List.mem_cons_self

theorem Took.writeNew (h : Took fs fs' i L X dir) {b : Nat} (hb : b ∈ L) (buf : Mem) :
    Took fs (fs'.writeBlocks b buf) i L X dir :=
  h.store buf (h.data b hb).ne_blockBitmapAt (h.data b hb).ne_inodeBitmapAt (fun _ hc => hc)
    fun _ => Or.inl hb

theorem Took.writeTable (h : Took fs fs' i L X dir) (j : Nat) (buf : Mem) :
    Took fs (fs'.writeBlocks (inodeBlockAt j) buf) i L X dir :=
  h.store buf (fun g => (blockBitmapAt_ne_inodeBlockAt g j).symm)
    (fun g => (inodeBitmapAt_ne_inodeBlockAt g j).symm) (fun _ hc => hc)
    fun hd => absurd rfl (hd.ne_inodeBlockAt j)

theorem Took.sync (h : Took fs fs' i L X dir) : Took fs (syncMetadata fs') i L X dir := by
  have h1 : Took fs (fs'.writeBlocks 1 (fs'.superBlock.store fs'.stack)) i L X dir :=
    h.store _ (fun g => (bitmapAt_ne g).1.1.symm) (fun g => (bitmapAt_ne g).2.1.symm)
      (fun _ hc => hc) fun hd => absurd hd (by decide)
  exact h1.store _ (fun g => (bitmapAt_ne g).1.2.symm) (fun g => (bitmapAt_ne g).2.2.symm)
    (fun _ hc => hc) fun hd => absurd hd (by decide)

/-- Blocks that were taken need no separate mention. -/
theorem Took.absorb (h : Took fs fs' i L X dir) (hX : ∀ b ∈ X, b ∈ L) : Took fs fs' i L [] dir :=
  { h with frame := fun b hd hL _ => h.frame b hd hL fun hc => hL (hX b hc) }

end Took

/-! ## The stores after an allocation -/

/-- `bg_used_dirs_count++` for a directory. -/
def addDir (dir : Bool) (bg : Nat) (fs : Fs) : Fs :=
  if dir then fs.modifyDesc bg fun d => { d with bgUsedDirsCount := d.bgUsedDirsCount + 1 } else fs

section AddDir

variable (dir : Bool) (bg : Nat) (fs : Fs)

@[simp] theorem addDir_disk : (addDir dir bg fs).disk = fs.disk := by
  cases dir <;> rfl

@[simp] theorem addDir_superBlock : (addDir dir bg fs).superBlock = fs.superBlock := by
  cases dir <;> rfl

@[simp] theorem addDir_stack : (addDir dir bg fs).stack = fs.stack := by
  cases dir <;> rfl

theorem addDir_desc (g : Nat) : (addDir dir bg fs).bgdtCache g =
    { fs.bgdtCache g with
      bgUsedDirsCount := ((addDir dir bg fs).bgdtCache g).bgUsedDirsCount } := by
  cases dir with
  | false => rfl
  | true =>
    unfold addDir
    rw [if_pos rfl]
    by_cases h : g = bg
    · subst h
      simp [modifyDesc_same]
    · simp [modifyDesc_of_ne h]

end AddDir

theorem Took.addDir {fs fs' : Fs} {i : Nat} {L X : List Nat} (h : Took fs fs' i L X false)
    (dir : Bool) (bg : Nat) : Took fs (addDir dir bg fs') i L X dir where
  isInode := h.isInode
  freshInode := h.freshInode
  first := h.first
  nodup := h.nodup
  data := h.data
  fresh := h.fresh
  blocks := fun b hb => by rw [addDir_disk, h.blocks b hb]
  inodes := fun j hj => by rw [addDir_disk, h.inodes j hj]
  frame := fun b hd hL hX => by rw [addDir_disk, h.frame b hd hL hX]
  blockTail := fun g hg o ho => by rw [addDir_disk, h.blockTail g hg o ho]
  inodeTail := fun g hg o ho => by rw [addDir_disk, h.inodeTail g hg o ho]
  desc := fun g => by rw [addDir_desc, h.desc g]
  usedDirs := fun hd g => by rw [hd]; exact h.usedDirs rfl g
  super := by rw [addDir_superBlock, h.super]
  stack := by rw [addDir_stack, h.stack]
  counters := fun hc => by
    have hc' := h.counters hc
    refine ⟨fun g hg => ?_, fun g hg => ?_⟩
    · rw [addDir_desc, addDir_disk]; exact hc'.blocks g hg
    · rw [addDir_desc, addDir_disk]; exact hc'.inodes g hg

/-- `sync_node` stores the node at its slot and nothing else. -/
theorem syncNode_eq {fs : Fs} (hl : Layout fs) {i : Nat} (hi : IsInode i) (node : Mem) :
    syncNode node i fs = fs.writeBlocks (inodeBlockAt i)
      (blit (fs.readBlocks (inodeBlockAt i)) (slotOffset i) node 70) := by
  unfold syncNode
  rw [if_neg (by have := hi.1; omega), hl.inodeBlock_eq hi]

/-! ## New files and directories -/

/-- `i_blocks` of a new file: the number of blocks, computed in 32 bits. -/
def blockCount (request : EXT2DriverRequest) : Nat := ((request.bufferSize + 512 - 1) / 512).toNat

/-- `ni` is the node of the requested file, and `t` its blocks. -/
structure FileAt (request : EXT2DriverRequest) (d : Disk) (ni : Mem) (t : FileTree) : Prop where
  mode : iMode ni = 0x8000
  size : iSize ni = request.bufferSize.toNat
  count : iBlocks ni = blockCount request
  holds : t.Holds d ni
  shape : t.Shape (blockCount request)
  filled : Filled request.buf ni 0 d t.data

/-- `ni` is the node of a new directory with block `b`. -/
structure DirNode (ni : Mem) (b : Nat) : Prop where
  mode : iMode ni = 0x4000
  size : iSize ni = 512
  count : iBlocks ni = 1
  first : iBlock ni 0 = b
  rest : ∀ j, 0 < j → j < 15 → iBlock ni j = 0

/-- `ni` is the node of the new directory `i` below `parent`, and `b` its block. -/
structure DirAt (i parent : Nat) (d : Disk) (ni : Mem) (b : Nat) : Prop extends DirNode ni b where
  table : Tiles (d b).mem 0 [⟨0, i, 12, [46], 2⟩, ⟨12, parent, 500, [46, 46], 2⟩] 512

theorem FileAt.congr {request : EXT2DriverRequest} {d d' : Disk} {ni ni' : Mem} {t : FileTree}
    (h : FileAt request d ni t) (hn : ∀ o < 70, ni' o = ni o) (hd : ∀ b ∈ t.blocks, d' b = d b) :
    FileAt request d' ni' t where
  mode := by rw [iMode_congr hn]; exact h.mode
  size := by rw [iSize_congr hn]; exact h.size
  count := by rw [iBlocks_congr hn]; exact h.count
  holds := h.holds.congr (fun j hj => iBlock_congr hn (by omega)) hd
  shape := h.shape
  filled := fun k b hb => by
    rw [hd b (FileTree.data_subset b (List.mem_of_getElem? hb)), h.filled k b hb,
      chunk_congr fun o ho => hn o (by omega)]

theorem DirNode.congr {ni ni' : Mem} {b : Nat} (h : DirNode ni b) (hn : ∀ o < 70, ni' o = ni o) :
    DirNode ni' b where
  mode := by rw [iMode_congr hn]; exact h.mode
  size := by rw [iSize_congr hn]; exact h.size
  count := by rw [iBlocks_congr hn]; exact h.count
  first := by rw [iBlock_congr hn (by omega)]; exact h.first
  rest := fun j h0 hj => by rw [iBlock_congr hn hj]; exact h.rest j h0 hj

theorem DirAt.congr {i parent b : Nat} {d d' : Disk} {ni ni' : Mem} (h : DirAt i parent d ni b)
    (hn : ∀ o < 70, ni' o = ni o) (hd : d' b = d b) : DirAt i parent d' ni' b where
  toDirNode := h.toDirNode.congr hn
  table := by rw [hd]; exact h.table

/-- What the header fields of a new node become. -/
theorem header_fields (m : Mem) (mode size count : Nat) (hm : mode < 65536)
    (hs : size < 4294967296) (hc : count < 4294967296) :
    iMode (setIBlocks (setISize (setIMode m mode) size) count) = mode ∧
      iSize (setIBlocks (setISize (setIMode m mode) size) count) = size ∧
      iBlocks (setIBlocks (setISize (setIMode m mode) size) count) = count ∧
      ∀ j, iBlock (setIBlocks (setISize (setIMode m mode) size) count) j = iBlock m j := by
  unfold iMode iSize iBlocks iBlock setIMode setISize setIBlocks
  refine ⟨?_, ?_, ?_, fun j => ?_⟩
  · rw [rd16_wr32 (by omega), rd16_wr32 (by omega), rd16_wr16_of_lt hm]
  · rw [rd32_wr32_of_ne (by omega), rd32_wr32_of_lt hs]
  · rw [rd32_wr32_of_lt hc]
  · rw [rd32_wr32_of_ne (by omega), rd32_wr32_of_ne (by omega), rd32_wr16 (by omega)]

/-- The slot of a free inode, as the code loads it, has no pointers. -/
theorem iBlock_of_zero {fs : Fs} (hl : Layout fs) {i j : Nat} (hi : IsInode i)
    (hz : ∀ o, slot fs.disk i o = 0) (hj : j < 15) :
    iBlock (view (fs.readBlocks (fs.inodeBlock i)) (slotOffset i)) j = 0 := by
  rw [iBlock_congr (fun o ho => hl.node_apply hi ho) hj]
  exact rd32_eq_zero fun o _ _ => hz o

/-- A regular file: `write` builds it in the first free inode from blocks of its group and
    the groups above, completely if these suffice. -/
theorem createFile_spec {request : EXT2DriverRequest} (hreg : isDirRequest request = false)
    {fs fs₀ fs₁ : Fs} {M : List Nat} {i : Nat} (hr : Ready fs) (h0 : Grab fs fs₀ M)
    (hi : GrabInode fs₀ fs₁ i) (hz : ∀ o, slot fs.disk i o = 0) :
    ∃ ni t, Took fs (createNode request i fs₁) i (M ++ t.blocks) [] false ∧
      SameSlots fs.disk (createNode request i fs₁).disk i ∧
      slot (createNode request i fs₁).disk i = cutNode ni ∧
      FileAt request (createNode request i fs₁).disk ni t ∧
      (∀ b ∈ t.blocks, 256 * inodeToBgd i ≤ b) ∧
      (t.data.length = blockCount request ↔
        blocksNeeded (blockCount request) ≤ (freeFrom fs₀.disk (inodeToBgd i)).card) ∧
      (t.data.length = blockCount request ∨
        ∀ b ∈ freeFrom fs₀.disk (inodeToBgd i), b ∈ t.blocks) := by
  have hr₁ := hi.ready (h0.ready hr)
  have hz₁ : ∀ o, slot fs₁.disk i o = 0 := fun o => by
    rw [hi.slot_eq, h0.slot_eq]; exact hz o
  have hlt : blockCount request < 4294967296 := UInt32.toNat_lt _
  obtain ⟨f1, f2, f3, f4⟩ := header_fields
    (view (fs₁.readBlocks (fs₁.inodeBlock i)) (slotOffset i)) 0x8000 _ _ (by decide)
    request.bufferSize.toNat_lt hlt
  generalize hnode : setIBlocks (setISize (setIMode _ 0x8000) _) _ = node at f1 f2 f3 f4
  obtain ⟨ni, fs₂, t, heq, hlaid⟩ := allocateNodeBlocks_spec request.buf node (inodeToBgd i) hr₁
    fun j hj => by rw [f4, iBlock_of_zero hr₁.layout hi.isInode hz₁ (by omega)]
  have hl₂ := hlaid.grab.layout hr₁.layout
  have hcreate : createNode request i fs₁ = syncNode ni i fs₂ := by
    unfold createNode buildNode
    rw [if_neg (by simp [hreg])]
    dsimp only
    rw [show ((request.bufferSize + 512 - 1) / 512).toNat = blockCount request from rfl, hnode, heq]
  rw [hcreate, syncNode_eq hl₂ hi.isInode]
  have htook := Took.of_grab h0 hi hlaid.grab
  have htab := table_of_grab h0 hi hlaid.grab
  have hdata : ∀ b ∈ t.blocks, (fs₂.writeBlocks (inodeBlockAt i)
      (blit (fs₂.readBlocks (inodeBlockAt i)) (slotOffset i) ni 70)).disk b = fs₂.disk b := by
    intro b hb
    rw [writeBlocks_disk, Function.update_of_ne ((hlaid.grab.data b hb).ne_inodeBlockAt i)]
  have hfree : freeFrom fs₁.disk (inodeToBgd i) = freeFrom fs₀.disk (inodeToBgd i) := by
    ext b
    rw [mem_freeFrom, mem_freeFrom, hi.blockUsed_eq]
  refine ⟨ni, t, htook.writeTable i _, ?_, slot_blit _ _ _ _, ?_, hlaid.above, ?_, ?_⟩
  · intro j o ho
    rw [writeBlocks_disk, sameSlots_blit fs₂ i ni j o ho, htab]
  · refine @FileAt.congr _ fs₂.disk _ ni _ _ ?_ (fun _ _ => rfl) hdata
    refine ⟨?_, ?_, ?_, hlaid.holds, ?_, ?_⟩
    · rw [iMode_congr_low hlaid.low, f1]
    · rw [iSize_congr_low hlaid.low, f2]
    · rw [iBlocks_congr_low hlaid.low, f3]
    · rw [← f3]; exact hlaid.shape
    · intro k b hb
      rw [hlaid.filled k b hb, chunk_congr hlaid.low]
  · rw [← hfree, ← f3]
    exact hlaid.full_iff
  · rw [← hfree, ← f3]
    exact hlaid.takes_all

theorem isData_fallbackBlock {g : Nat} (hg : g < 8) : IsData (fallbackBlock g) := by
  unfold IsData fallbackBlock
  split <;> omega

/-- `init_directory_table` takes the first free block, or falls back to a fixed one. -/
theorem pickDirBlock_spec {fs : Fs} (hr : Ready fs) (g : Nat) :
    (∃ b fs', pickDirBlock g fs = (b, fs') ∧ Grab fs fs' [b] ∧ 256 * g ≤ b) ∨
    (Exhausted fs.disk g ∧ pickDirBlock g fs = (fallbackBlock g, fs)) := by
  have hbm : (fs.bgdtCache 0).bgBlockBitmap ≠ 0 := by
    intro hc
    have := hr.layout.blockBitmap 0 (by decide)
    rw [hc] at this
    cases this
  unfold pickDirBlock
  rw [if_pos hbm]
  rcases searchBlock_spec hr g with ⟨hnone, hex⟩ | ⟨b, fs', hsome, hge, hgrab, -⟩
  · right
    rw [hnone]
    exact ⟨hex, rfl⟩
  · left
    rw [hsome]
    exact ⟨b, fs', rfl, hgrab, hge⟩

/-- A directory in the block that `init_directory_table` picked. -/
theorem createDir_of_pick {request : EXT2DriverRequest} (hdir : isDirRequest request = true)
    {fs fs₁ fs₂ : Fs} {i b : Nat} {L : List Nat} (hl₁ : Layout fs₁) (hl₂ : Layout fs₂)
    (hz : ∀ o, slot fs₁.disk i o = 0) (hpick : pickDirBlock (inodeToBgd i) fs₁ = (b, fs₂))
    (hb : IsData b) (ht : Took fs fs₂ i L [] false)
    (htab : ∀ j, fs₂.disk (inodeBlockAt j) = fs.disk (inodeBlockAt j)) :
    ∃ ni, Took fs (createNode request i fs₁) i L [b] true ∧
      SameSlots fs.disk (createNode request i fs₁).disk i ∧
      slot (createNode request i fs₁).disk i = cutNode ni ∧
      DirAt i request.parentInode.toNat (createNode request i fs₁).disk ni b := by
  have hi := ht.isInode
  have hbm : (fs₂.bgdtCache 0).bgBlockBitmap ≠ 0 := by
    intro hc
    have := hl₂.blockBitmap 0 (by decide)
    rw [hc] at this
    cases this
  obtain ⟨f1, f2, f3, f4⟩ := header_fields
    (view (fs₁.readBlocks (fs₁.inodeBlock i)) (slotOffset i)) 0x4000 512 1 (by decide)
    (by decide) (by decide)
  generalize hnode : setIBlocks (setISize (setIMode _ 0x4000) 512) 1 = node at f1 f2 f3 f4
  generalize hfs₃ : fs₂.writeBlocks b (dirTable i request.parentInode.toNat fs₂.zeroBuf) = fs₃
  generalize hfs₄ : addDir true (inodeToBgd i) (syncMetadata fs₃) = fs₄
  have ht₃ : Took fs fs₃ i L [b] false := by rw [← hfs₃]; exact ht.writeData hb _
  have ht₄ : Took fs fs₄ i L [b] true := by rw [← hfs₄]; exact ht₃.sync.addDir true _
  have hl₄ : Layout fs₄ := by
    rw [← hfs₄]
    have hl₃ : Layout (syncMetadata fs₃) := by
      rw [← hfs₃]
      exact ⟨hl₂.blockBitmap, hl₂.inodeBitmap, hl₂.inodeTable⟩
    exact ⟨fun g hg => by rw [addDir_desc]; exact hl₃.blockBitmap g hg,
      fun g hg => by rw [addDir_desc]; exact hl₃.inodeBitmap g hg,
      fun g hg => by rw [addDir_desc]; exact hl₃.inodeTable g hg⟩
  have hcreate : createNode request i fs₁ = syncNode (setIBlock node 0 b) i fs₄ := by
    unfold createNode buildNode initDirectoryTable
    rw [if_pos hdir, hpick]
    dsimp only
    rw [hnode, hfs₃, if_pos, ← hfs₄]
    · rfl
    · rw [← hfs₃]; exact hbm
  have hd₄ : fs₄.disk b = blockOf (dirTable i request.parentInode.toNat fs₂.zeroBuf) := by
    have := hb.2.1
    rw [← hfs₄, addDir_disk, syncMetadata_disk (by omega) (by omega), ← hfs₃, writeBlocks_disk,
      Function.update_self]
  have htab₄ : ∀ j, fs₄.disk (inodeBlockAt j) = fs.disk (inodeBlockAt j) := fun j => by
    have := inodeBlockAt_ge j
    rw [← hfs₄, addDir_disk, syncMetadata_disk (by omega) (by omega), ← hfs₃, writeBlocks_disk,
      Function.update_of_ne (hb.ne_inodeBlockAt j).symm, htab]
  rw [hcreate, syncNode_eq hl₄ hi]
  have hlow : ∀ o < 10, setIBlock node 0 b o = node o := fun o ho => setIBlock_of_lt ho
  refine ⟨setIBlock node 0 b, ht₄.writeTable i _, ?_, slot_blit _ _ _ _, ⟨⟨?_, ?_, ?_, ?_,
    fun j h0 hj => ?_⟩, ?_⟩⟩
  · intro j o ho
    rw [writeBlocks_disk, sameSlots_blit fs₄ i _ j o ho, htab₄]
  · rw [iMode_congr_low hlow, f1]
  · rw [iSize_congr_low hlow, f2]
  · rw [iBlocks_congr_low hlow, f3]
  · rw [iBlock_setIBlock, if_pos rfl]
    exact Nat.mod_eq_of_lt (by have := hb.1; omega)
  · rw [iBlock_setIBlock, if_neg (by omega), f4, iBlock_of_zero hl₁ hi hz hj]
  · rw [writeBlocks_disk, Function.update_of_ne (hb.ne_inodeBlockAt i), hd₄]
    have hi' : i < 4294967296 := by have := hi.2; omega
    exact (dirTable_tiles hi' request.parentInode.toNat_lt).congr fun p _ hp => mem_blockOf hp

/-- A directory: `write` builds it in the first free inode and a free block, or, when no
    block is free from the inode's group on, in the fallback block. -/
theorem createDir_spec {request : EXT2DriverRequest} (hdir : isDirRequest request = true)
    {fs fs₀ fs₁ : Fs} {M : List Nat} {i : Nat} (hr : Ready fs) (h0 : Grab fs fs₀ M)
    (hi : GrabInode fs₀ fs₁ i) (hz : ∀ o, slot fs.disk i o = 0) :
    ∃ ni b, SameSlots fs.disk (createNode request i fs₁).disk i ∧
      slot (createNode request i fs₁).disk i = cutNode ni ∧
      DirAt i request.parentInode.toNat (createNode request i fs₁).disk ni b ∧
      ((256 * inodeToBgd i ≤ b ∧ Took fs (createNode request i fs₁) i (M ++ [b]) [] true) ∨
        (Exhausted fs₀.disk (inodeToBgd i) ∧ b = fallbackBlock (inodeToBgd i) ∧
          Took fs (createNode request i fs₁) i M [b] true)) := by
  have hr₀ := h0.ready hr
  have hr₁ := hi.ready hr₀
  have hz₁ : ∀ o, slot fs₁.disk i o = 0 := fun o => by
    rw [hi.slot_eq, h0.slot_eq]; exact hz o
  rcases pickDirBlock_spec hr₁ (inodeToBgd i) with ⟨b, fs₂, hpick, hgrab, hge⟩ | ⟨hex, hpick⟩
  · obtain ⟨ni, ht, hs, hslot, hat⟩ := createDir_of_pick hdir hr₁.layout
      (hgrab.layout hr₁.layout) hz₁ hpick (hgrab.data b (by simp)) (Took.of_grab h0 hi hgrab)
      (table_of_grab h0 hi hgrab)
    exact ⟨ni, b, hs, hslot, hat, Or.inl ⟨hge, ht.absorb fun c hc => by simp_all⟩⟩
  · have ht : Took fs fs₁ i M [] false := by simpa using Took.of_grab h0 hi (Grab.refl fs₁)
    obtain ⟨ni, ht, hs, hslot, hat⟩ := createDir_of_pick hdir hr₁.layout hr₁.layout hz₁ hpick
      (isData_fallbackBlock (inodeToBgd_lt hi.isInode)) ht (table_of_grab h0 hi (Grab.refl fs₁))
    refine ⟨ni, _, hs, hslot, hat, Or.inr ⟨fun c hc hg => ?_, rfl, ht⟩⟩
    rw [← hi.blockUsed_eq]; exact hex c hc hg

/-! ## The new inode -/

/-- What `write` builds in inode `i`, from the disk `d₀` on: the node `ni`, with the blocks `L`
    taken for it and the blocks `X` written over although they were not free. -/
inductive Made (request : EXT2DriverRequest) (i : Nat) (d₀ d : Disk) (ni : Mem) :
    List Nat → List Nat → Prop
  | file (t : FileTree) : isDirRequest request = false → FileAt request d ni t →
      (∀ b ∈ t.blocks, 256 * inodeToBgd i ≤ b) →
      (t.data.length = blockCount request ↔
        blocksNeeded (blockCount request) ≤ (freeFrom d₀ (inodeToBgd i)).card) →
      (t.data.length = blockCount request ∨ ∀ b ∈ freeFrom d₀ (inodeToBgd i), b ∈ t.blocks) →
      Made request i d₀ d ni t.blocks []
  | dir (b : Nat) : isDirRequest request = true → 256 * inodeToBgd i ≤ b →
      DirAt i request.parentInode.toNat d ni b → Made request i d₀ d ni [b] []
  | fallback : isDirRequest request = true → Exhausted d₀ (inodeToBgd i) →
      DirNode ni (fallbackBlock (inodeToBgd i)) →
      Made request i d₀ d ni [] [fallbackBlock (inodeToBgd i)]

theorem Made.congr {request : EXT2DriverRequest} {i : Nat} {d₀ d d' : Disk} {ni : Mem}
    {L X : List Nat} (h : Made request i d₀ d ni L X) (hd : ∀ b ∈ L, d' b = d b) :
    Made request i d₀ d' ni L X := by
  cases h with
  | file t hreg hat hge hfull hall =>
    exact .file t hreg (hat.congr (fun _ _ => rfl) hd) hge hfull hall
  | dir b hdir hge hat => exact .dir b hdir hge (hat.congr (fun _ _ => rfl) (hd b (by simp)))
  | fallback hdir hex hnode => exact .fallback hdir hex hnode

/-- `write` builds the requested inode. -/
theorem createNode_spec (request : EXT2DriverRequest) {fs fs₀ fs₁ : Fs} {M : List Nat} {i : Nat}
    (hr : Ready fs) (h0 : Grab fs fs₀ M) (hi : GrabInode fs₀ fs₁ i)
    (hz : ∀ o, slot fs.disk i o = 0) :
    ∃ ni L X, Took fs (createNode request i fs₁) i (M ++ L) X (isDirRequest request) ∧
      SameSlots fs.disk (createNode request i fs₁).disk i ∧
      slot (createNode request i fs₁).disk i = cutNode ni ∧
      Made request i fs₀.disk (createNode request i fs₁).disk ni L X := by
  cases hreg : isDirRequest request with
  | false =>
    obtain ⟨ni, t, h1, h2, h3, h4, h5, h6, h7⟩ := createFile_spec hreg hr h0 hi hz
    exact ⟨ni, t.blocks, [], h1, h2, h3, .file t hreg h4 h5 h6 h7⟩
  | true =>
    obtain ⟨ni, b, h1, h2, h3, ⟨h4, h5⟩ | ⟨h4, rfl, h5⟩⟩ := createDir_spec hreg hr h0 hi hz
    · exact ⟨ni, [b], [], h5, h1, h2, .dir b hreg h4 h3⟩
    · exact ⟨ni, [], [_], by simpa using h5, h1, h2, .fallback hreg h4 h3.toDirNode⟩

end LossOs.Ext2
