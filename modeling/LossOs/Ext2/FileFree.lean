/-
  `deallocate_node`: the blocks and the inode it gives back.

  `Release fs fs' L` is the counterpart of `Grab`: the blocks `L` were freed and nothing else
  changed. `deallocate_node` frees the list `fileBlocks` (`freeNodeBlocks_eq`), then zeroes
  the slot and clears the inode's bit: `Freed`, `deallocateNode_spec`. The counters stay
  right when the list is free of repetitions and all of it was in use.
-/
import LossOs.Ext2.FileAlloc

namespace LossOs.Ext2

open LossOs.Lib

/-! ## Freeing blocks -/

/-- `fs'` is `fs` after the blocks `L` have been freed. -/
structure Release (fs fs' : Fs) (L : List Nat) : Prop where
  used : ∀ b < 2048, blockUsed fs'.disk b = (blockUsed fs.disk b && !decide (b ∈ L))
  frame : ∀ n, (∀ g < 8, n ≠ blockBitmapAt g) → fs'.disk n = fs.disk n
  tail : ∀ g < 8, ∀ o, 32 ≤ o →
    (fs'.disk (blockBitmapAt g)).mem o = (fs.disk (blockBitmapAt g)).mem o
  desc : ∀ g, fs'.bgdtCache g =
    { fs.bgdtCache g with bgFreeBlocksCount := (fs'.bgdtCache g).bgFreeBlocksCount }
  super : fs'.superBlock = { fs.superBlock with
    sFreeBlocksCount := fs.superBlock.sFreeBlocksCount + UInt32.ofNat L.length }
  stack : fs'.stack = fs.stack
  counters : L.Nodup → (∀ b ∈ L, b < 2048 ∧ blockUsed fs.disk b = true) → Counters fs →
    Counters fs'

theorem Release.refl (fs : Fs) : Release fs fs [] where
  used := by simp
  frame := fun _ _ => rfl
  tail := fun _ _ _ _ => rfl
  desc := fun _ => rfl
  super := by simp
  stack := rfl
  counters := fun _ _ h => h

theorem Release.trans {fs fs₁ fs₂ : Fs} {L M : List Nat} (h : Release fs fs₁ L)
    (h' : Release fs₁ fs₂ M) : Release fs fs₂ (L ++ M) := by
  refine ⟨?_, ?_, ?_, ?_, ?_, ?_, ?_⟩
  · intro b hb
    rw [h'.used b hb, h.used b hb]
    simp [Bool.and_assoc]
  · intro n hn
    rw [h'.frame n hn, h.frame n hn]
  · intro g hg o ho
    rw [h'.tail g hg o ho, h.tail g hg o ho]
  · intro g
    rw [h'.desc g, h.desc g]
  · rw [h'.super, h.super, List.length_append, UInt32.ofNat_add]
    simp only [UInt32.add_assoc]
  · rw [h'.stack, h.stack]
  · intro hnd hu hc
    obtain ⟨h1, h2, h3⟩ := List.nodup_append.mp hnd
    refine h'.counters h2 (fun b hb => ?_) (h.counters h1 (fun b hb => ?_) hc)
    · have hub := hu b (List.mem_append_right _ hb)
      have hnb : b ∉ L := fun hL => h3 b hL b hb rfl
      refine ⟨hub.1, ?_⟩
      rw [h.used b hub.1, hub.2]
      simp [hnb]
    · exact hu b (List.mem_append_left _ hb)

section Kept

variable {fs fs' : Fs} {L : List Nat}

theorem Release.layout (h : Release fs fs' L) (hl : Layout fs) : Layout fs' where
  blockBitmap := fun g hg => by rw [h.desc g]; exact hl.blockBitmap g hg
  inodeBitmap := fun g hg => by rw [h.desc g]; exact hl.inodeBitmap g hg
  inodeTable := fun g hg => by rw [h.desc g]; exact hl.inodeTable g hg

theorem Release.data_eq (h : Release fs fs' L) {b : Nat} (hb : IsData b) :
    fs'.disk b = fs.disk b := h.frame b fun g _ => hb.ne_blockBitmapAt g

end Kept

theorem clearBit_kept (fs : Fs) (n : Nat) {idx o : Nat} (h : idx / 8 < o) :
    (blockOf (clearBit (fs.readBlocks n) idx)).mem o = (fs.disk n).mem o :=
  blockOf_kept fun ho => by rw [clearBit_of_ne (by omega), readBlocks_of_lt _ _ ho]

theorem bit_clearBit_readBlocks (fs : Fs) (n idx : Nat) {j : Nat} (hj : j < 4096) :
    bit (blockOf (clearBit (fs.readBlocks n) idx)).mem j =
      (!decide (j = idx) && bit (fs.disk n).mem j) := by
  rw [bit_blockOf hj, bit_clearBit, bit_readBlocks hj]

section FreeBlock

variable {fs : Fs} {b : Nat}

theorem freeBlock_disk (hl : Layout fs) (hb : b < 2048) :
    (freeBlock fs b).disk = Function.update fs.disk (blockBitmapAt (b / 256))
      (blockOf (clearBit (fs.readBlocks (blockBitmapAt (b / 256))) (b % 256))) := by
  unfold freeBlock
  simp only [modifyDesc_disk, writeBlocks_disk]
  rw [hl.blockBitmap _ (by omega)]

theorem freeBlock_bgdtCache (fs : Fs) (b g : Nat) :
    (freeBlock fs b).bgdtCache g = if g = b / 256 then
      { fs.bgdtCache (b / 256) with
        bgFreeBlocksCount := (fs.bgdtCache (b / 256)).bgFreeBlocksCount + 1 }
      else fs.bgdtCache g := by
  unfold freeBlock
  by_cases h : g = b / 256
  · subst h
    simp [modifyDesc_same]
  · simp [modifyDesc_of_ne h, h]

theorem freeBlock_used (hl : Layout fs) (hb : b < 2048) (c : Nat) :
    blockUsed (freeBlock fs b).disk c = (blockUsed fs.disk c && !decide (c = b)) := by
  rw [freeBlock_disk hl hb]
  by_cases h : c / 256 = b / 256
  · unfold blockUsed
    rw [h, Function.update_self, bit_clearBit_readBlocks _ _ _ (by omega), Bool.and_comm]
    congr 2
    simp only [decide_eq_decide]
    omega
  · have hne : c ≠ b := fun hc => h (by rw [hc])
    rw [blockUsed_update_of_ne h]
    simp [hne]

/-- The group has one free block more. -/
theorem freeBlock_free (hl : Layout fs) (hb : b < 2048) (hu : blockUsed fs.disk b = true) :
    freeBlocksOf (freeBlock fs b).disk (b / 256) = freeBlocksOf fs.disk (b / 256) + 1 := by
  rw [freeBlock_disk hl hb]
  unfold freeBlocksOf
  rw [Function.update_self, ← clearCount_clearBit (Nat.mod_lt _ (by decide)) hu]
  exact clearCount_congr fun j hj => by
    rw [bit_clearBit_readBlocks _ _ _ (by omega), bit_clearBit]

theorem freeBlock_counters (hl : Layout fs) (hb : b < 2048) (hu : blockUsed fs.disk b = true)
    (hc : Counters fs) : Counters (freeBlock fs b) := by
  have hfree := freeBlock_free hl hb hu
  refine ⟨fun g hg => ?_, fun g hg => ?_⟩
  · rw [freeBlock_bgdtCache]
    by_cases h : g = b / 256
    · subst h
      have h1 := hc.blocks _ hg
      have h2 : freeBlocksOf fs.disk (b / 256) ≤ 256 := clearCount_le _ _
      rw [if_pos rfl]
      dsimp only
      rw [UInt16.toNat_succ (by omega)]
      omega
    · rw [if_neg h, hc.blocks g hg, freeBlock_disk hl hb, freeBlocksOf_update_of_ne h]
  · rw [freeBlock_bgdtCache, freeBlock_disk hl hb,
      freeInodesOf_update (fun g' => blockBitmapAt_ne_inodeBitmapAt _ g'), ← hc.inodes g hg]
    by_cases h : g = b / 256
    · subst h; simp
    · simp [h]

/-- Clearing the bit of one block. -/
theorem freeBlock_release (hl : Layout fs) (hb : b < 2048) : Release fs (freeBlock fs b) [b] := by
  refine ⟨?_, ?_, ?_, ?_, rfl, rfl, fun _ hu => ?_⟩
  · intro c _
    rw [freeBlock_used hl hb]
    simp only [List.mem_singleton]
  · intro n hn
    rw [freeBlock_disk hl hb, Function.update_of_ne (hn _ (by omega))]
  · intro g _ o ho
    rw [freeBlock_disk hl hb]
    by_cases h : g = b / 256
    · subst h
      rw [Function.update_self, clearBit_kept _ _ (by omega)]
    · rw [blockBitmap_update_of_ne h]
  · intro g
    rw [freeBlock_bgdtCache]
    by_cases h : g = b / 256
    · subst h; simp
    · simp [h]
  · exact freeBlock_counters hl hb (hu b (List.mem_singleton_self b)).2

end FreeBlock

theorem freeBlocks_release {fs : Fs} (hl : Layout fs) {L : List Nat} (hL : ∀ b ∈ L, b < 2048) :
    Release fs (L.foldl freeBlock fs) L := by
  induction L generalizing fs with
  | nil => exact Release.refl fs
  | cons b L ih =>
    have h1 := freeBlock_release hl (hL b (by simp))
    exact h1.trans (ih (h1.layout hl) fun c hc => hL c (List.mem_cons_of_mem _ hc))

/-! ## The loops of `deallocate_node` -/

theorem freePtrs_eq (ptrs : Nat → Nat) (n : Nat) (fs : Fs) :
    freePtrs ptrs n fs = (nonzero ptrs n).foldl freeBlock fs := by
  unfold freePtrs nonzero
  rw [List.foldl_filter, List.foldl_map]
  simp

/-- Freeing the blocks below a pointer block and then that block. -/
theorem freePointed {d : Disk} {fs : Fs} {n b : Nat} (hn : n ≤ 128) (hb : fs.disk b = d b) :
    freeBlock (freePtrs (ptr (fs.readBlocks b)) n fs) b = (pointed d n b).foldl freeBlock fs := by
  unfold pointed
  rw [List.foldl_append, freePtrs_eq, ← hb,
    nonzero_congr fun j hj => ptr_readBlocks fs b (show j < 128 by omega)]
  rfl

theorem freeDouble_eq {d : Disk} {f : Nat → Nat} :
    ∀ {k i total : Nat} {fs : Fs}, Layout fs → (∀ n, IsData n → fs.disk n = d n) →
      (∀ b ∈ doubleBlocks d f k i total, IsData b) →
      freeDouble f k i total fs = (doubleBlocks d f k i total).foldl freeBlock fs := by
  intro k
  induction k with
  | zero => intros; rfl
  | succ k ih =>
    intro i total fs hl hd hdata
    unfold doubleBlocks at hdata ⊢
    unfold freeDouble
    by_cases ht : total > 0
    · rw [if_pos ht] at hdata ⊢
      by_cases h0 : f i ≠ 0
      · rw [if_pos h0] at hdata ⊢
        have hpt : ∀ b ∈ pointed d (min total 128) (f i), IsData b :=
          fun b hb => hdata b (List.mem_append_left _ hb)
        have hrel := freeBlocks_release hl fun b hb => (hpt b hb).1
        have hcnt : (if total < 128 then total else 128) = min total 128 := by
          split <;> omega
        rw [if_pos ht, if_pos h0, List.foldl_append, hcnt]
        dsimp only
        rw [freePointed (Nat.min_le_right _ _) (hd _ (hpt _ (by simp [pointed])))]
        refine ih (hrel.layout hl) (fun n hn => ?_) fun b hb => hdata b (List.mem_append_right _ hb)
        rw [hrel.data_eq hn, hd n hn]
      · rw [if_neg h0] at hdata ⊢
        rw [if_pos ht, if_neg h0]
        exact ih hl hd hdata
    · rw [if_neg ht, if_neg ht]
      rfl

/-- The single indirect part frees a pointer block with its blocks, or nothing. -/
theorem freeSingle_eq {d : Disk} {node : Mem} {remain : Nat} {fs : Fs}
    (hd : remain > 0 ∧ iBlock node 12 ≠ 0 → fs.disk (iBlock node 12) = d (iBlock node 12)) :
    freeSingle node remain fs = (singleRest node remain,
      (if remain > 0 ∧ iBlock node 12 ≠ 0 then pointed d (min remain 128) (iBlock node 12)
        else []).foldl freeBlock fs) := by
  unfold freeSingle singleRest
  by_cases hc : remain > 0 ∧ iBlock node 12 ≠ 0
  · have hcnt : (if remain < 128 then remain else 128) = min remain 128 := by
      split <;> omega
    rw [if_pos hc, if_pos hc, if_pos hc, hcnt]
    dsimp only
    rw [freePointed (Nat.min_le_right _ _) (hd hc)]
    congr 1
    split <;> omega
  · rw [if_neg hc, if_neg hc, if_neg hc]
    rfl

theorem freeDouble_congr {f g : Nat → Nat} (h : ∀ j < 128, f j = g j) {k i : Nat}
    (hik : i + k ≤ 128) (total : Nat) (fs : Fs) :
    freeDouble f k i total fs = freeDouble g k i total fs := by
  induction k generalizing i total fs with
  | zero => rfl
  | succ k ih =>
    unfold freeDouble
    rw [h i (by omega)]
    simp only [ih (i := i + 1) (by omega)]

/-- `deallocate_node` frees the list `fileBlocks`. -/
theorem freeNodeBlocks_eq {fs : Fs} {node : Mem} (hl : Layout fs)
    (hdata : ∀ b ∈ fileBlocks fs.disk node, IsData b) :
    freeNodeBlocks node fs = (fileBlocks fs.disk node).foldl freeBlock fs := by
  unfold freeNodeBlocks
  unfold fileBlocks at hdata ⊢
  dsimp only at hdata ⊢
  generalize hrem : iBlocks node - min 12 (iBlocks node) = remain at hdata ⊢
  rw [freePtrs_eq, List.foldl_append, List.foldl_append]
  generalize hA : nonzero (iBlock node) (min 12 (iBlocks node)) = A at hdata ⊢
  have hr1 := freeBlocks_release hl (L := A) fun b hb =>
    (hdata b (List.mem_append_left _ (List.mem_append_left _ hb))).1
  generalize A.foldl freeBlock fs = fs₁ at hr1 ⊢
  have hl1 := hr1.layout hl
  have h12 : remain > 0 ∧ iBlock node 12 ≠ 0 → IsData (iBlock node 12) := by
    intro hc
    rw [if_pos hc] at hdata
    refine hdata _ (List.mem_append_left _ (List.mem_append_right _ ?_))
    simp [pointed]
  rw [freeSingle_eq fun hc => hr1.data_eq (h12 hc)]
  dsimp only
  generalize hB : (if remain > 0 ∧ iBlock node 12 ≠ 0 then
    pointed fs.disk (min remain 128) (iBlock node 12) else []) = B at hdata ⊢
  have hr2 := freeBlocks_release hl1 (L := B) fun b hb =>
    (hdata b (List.mem_append_left _ (List.mem_append_right _ hb))).1
  generalize B.foldl freeBlock fs₁ = fs₂ at hr2 ⊢
  have hl2 := hr2.layout hl1
  unfold freeDoubleIndirect
  by_cases hc : singleRest node remain > 0 ∧ iBlock node 13 ≠ 0
  · rw [if_pos hc] at hdata ⊢
    rw [if_pos hc]
    have hC : ∀ b ∈ doubleBlocks fs.disk (ptr (fs.disk (iBlock node 13)).mem) 128 0
        (singleRest node remain) ++ [iBlock node 13], IsData b :=
      fun b hb => hdata b (List.mem_append_right _ hb)
    have h13 := hC (iBlock node 13) (by simp)
    have hd2 : ∀ n, IsData n → fs₂.disk n = fs.disk n := fun n hn => by
      rw [hr2.data_eq hn, hr1.data_eq hn]
    have hptr : ∀ j < 128, ptr (fs₂.readBlocks (iBlock node 13)) j =
        ptr (fs.disk (iBlock node 13)).mem j := fun j hj => by
      rw [ptr_readBlocks fs₂ _ hj, hd2 _ h13]
    dsimp only
    rw [List.foldl_append, freeDouble_congr hptr (Nat.le_refl 128), freeDouble_eq hl2 hd2
      fun b hb => hC b (List.mem_append_left _ hb)]
    rfl
  · rw [if_neg hc, if_neg hc]
    rfl

/-! ## `deallocate_node` -/

/-- `fs'` is `fs` after inode `i` with the blocks `L` has been given back. Of the data blocks
    only those of `X` have been written. -/
structure Freed (fs fs' : Fs) (i : Nat) (L X : List Nat) : Prop where
  blocks : ∀ b < 2048, blockUsed fs'.disk b = (blockUsed fs.disk b && !decide (b ∈ L))
  inodes : ∀ j, IsInode j → inodeUsed fs'.disk j = (inodeUsed fs.disk j && !decide (j = i))
  slotSelf : ∀ o, slot fs'.disk i o = 0
  slots : SameSlots fs.disk fs'.disk i
  data : ∀ b, IsData b → b ∉ X → fs'.disk b = fs.disk b
  blockTail : ∀ g < 8, ∀ o, 32 ≤ o →
    (fs'.disk (blockBitmapAt g)).mem o = (fs.disk (blockBitmapAt g)).mem o
  inodeTail : ∀ g < 8, ∀ o, 14 ≤ o →
    (fs'.disk (inodeBitmapAt g)).mem o = (fs.disk (inodeBitmapAt g)).mem o
  desc : ∀ g, fs'.bgdtCache g =
    { fs.bgdtCache g with
      bgFreeBlocksCount := (fs'.bgdtCache g).bgFreeBlocksCount
      bgFreeInodesCount := (fs'.bgdtCache g).bgFreeInodesCount
      bgUsedDirsCount := (fs'.bgdtCache g).bgUsedDirsCount }
  usedDirs : isDir fs.disk i = false →
    ∀ g, (fs'.bgdtCache g).bgUsedDirsCount = (fs.bgdtCache g).bgUsedDirsCount
  super : fs'.superBlock = { fs.superBlock with
    sFreeBlocksCount := fs.superBlock.sFreeBlocksCount + UInt32.ofNat L.length
    sFreeInodesCount := fs.superBlock.sFreeInodesCount + 1 }
  stack : fs'.stack = fs.stack
  counters : L.Nodup → (∀ b ∈ L, b < 2048 ∧ blockUsed fs.disk b = true) →
    inodeUsed fs.disk i = true → Counters fs → Counters fs'

theorem Freed.layout {fs fs' : Fs} {i : Nat} {L X : List Nat} (h : Freed fs fs' i L X)
    (hl : Layout fs) : Layout fs' where
  blockBitmap := fun g hg => by rw [h.desc g]; exact hl.blockBitmap g hg
  inodeBitmap := fun g hg => by rw [h.desc g]; exact hl.inodeBitmap g hg
  inodeTable := fun g hg => by rw [h.desc g]; exact hl.inodeTable g hg

/-- The first step of `deallocate_node`: one directory less in the group. -/
def dropDir (bg : Nat) (node : Mem) (fs : Fs) : Fs :=
  if iMode node &&& 0x4000 ≠ 0 ∧ (fs.bgdtCache bg).bgUsedDirsCount > 0 then
    fs.modifyDesc bg fun d => { d with bgUsedDirsCount := d.bgUsedDirsCount - 1 } else fs

/-- The last steps of `deallocate_node`: zero the slot, clear the bit, count and flush. -/
def dropInode (inode : Nat) (buf : Mem) (fs : Fs) : Fs :=
  let bg := inodeToBgd inode
  let fs := fs.writeBlocks (fs.inodeBlock inode) (fill buf (slotOffset inode) 0 70)
  let bmp := fs.readBlocks (fs.bgdtCache bg).bgInodeBitmap.toNat
  let fs := fs.writeBlocks (fs.bgdtCache bg).bgInodeBitmap.toNat
    (clearBit bmp (inodeToLocal inode))
  let fs := fs.modifyDesc bg fun d => { d with bgFreeInodesCount := d.bgFreeInodesCount + 1 }
  syncMetadata { fs with superBlock :=
    { fs.superBlock with sFreeInodesCount := fs.superBlock.sFreeInodesCount + 1 } }

theorem deallocateNode_eq {i : Nat} (hi : i ≠ 0) (fs : Fs) :
    deallocateNode i fs = dropInode i (fs.readBlocks (fs.inodeBlock i))
      (freeNodeBlocks (view (fs.readBlocks (fs.inodeBlock i)) (slotOffset i))
        (dropDir (inodeToBgd i) (view (fs.readBlocks (fs.inodeBlock i)) (slotOffset i)) fs)) := by
  unfold deallocateNode dropInode dropDir
  rw [if_neg hi]

section DropDir

variable (bg : Nat) (node : Mem) (fs : Fs)

@[simp] theorem dropDir_disk : (dropDir bg node fs).disk = fs.disk := by
  unfold dropDir
  split <;> rfl

@[simp] theorem dropDir_superBlock : (dropDir bg node fs).superBlock = fs.superBlock := by
  unfold dropDir
  split <;> rfl

@[simp] theorem dropDir_stack : (dropDir bg node fs).stack = fs.stack := by
  unfold dropDir
  split <;> rfl

theorem dropDir_desc (g : Nat) : (dropDir bg node fs).bgdtCache g =
    { fs.bgdtCache g with
      bgUsedDirsCount := ((dropDir bg node fs).bgdtCache g).bgUsedDirsCount } := by
  unfold dropDir
  split
  · by_cases h : g = bg
    · subst h
      simp [modifyDesc_same]
    · simp [modifyDesc_of_ne h]
  · rfl

variable {bg node fs}

theorem dropDir_layout (bg : Nat) (node : Mem) (h : Layout fs) : Layout (dropDir bg node fs) where
  blockBitmap := fun g hg => by rw [dropDir_desc]; exact h.blockBitmap g hg
  inodeBitmap := fun g hg => by rw [dropDir_desc]; exact h.inodeBitmap g hg
  inodeTable := fun g hg => by rw [dropDir_desc]; exact h.inodeTable g hg

theorem dropDir_counters (bg : Nat) (node : Mem) (fs : Fs) (h : Counters fs) :
    Counters (dropDir bg node fs) where
  blocks := fun g hg => by rw [dropDir_desc, dropDir_disk]; exact h.blocks g hg
  inodes := fun g hg => by rw [dropDir_desc, dropDir_disk]; exact h.inodes g hg

end DropDir

theorem dropInode_bgdtCache (fs : Fs) (i : Nat) (buf : Mem) (g : Nat) :
    (dropInode i buf fs).bgdtCache g =
    if g = inodeToBgd i then
      { fs.bgdtCache (inodeToBgd i) with
        bgFreeInodesCount := (fs.bgdtCache (inodeToBgd i)).bgFreeInodesCount + 1 }
    else fs.bgdtCache g := by
  unfold dropInode
  by_cases h : g = inodeToBgd i
  · subst h
    simp [modifyDesc_same]
  · simp [modifyDesc_of_ne h, h]

theorem dropInode_disk {fs : Fs} {i : Nat} (hl : Layout fs) (hi : IsInode i) {buf : Mem}
    (hbuf : ∀ o < 512, buf o = fs.readBlocks (inodeBlockAt i) o) {n : Nat} (h1 : n ≠ 1)
    (h2 : n ≠ 2) : (dropInode i buf fs).disk n =
      Function.update
        (Function.update fs.disk (inodeBlockAt i)
          (blockOf (blit (fs.readBlocks (inodeBlockAt i)) (slotOffset i) (fun _ => 0) 70)))
        (inodeBitmapAt (inodeToBgd i))
        (blockOf (clearBit (fs.readBlocks (inodeBitmapAt (inodeToBgd i))) (inodeToLocal i))) n := by
  have hne := inodeBitmapAt_ne_inodeBlockAt (inodeToBgd i) i
  have hg := inodeToBgd_lt hi
  have hfill : blockOf (fill buf (slotOffset i) 0 70) =
      blockOf (blit (fs.readBlocks (inodeBlockAt i)) (slotOffset i) (fun _ => 0) 70) := by
    apply blockOf_congr
    intro o ho
    unfold fill blit
    split
    · rfl
    · exact hbuf o ho
  have hread : (fs.writeBlocks (inodeBlockAt i) (fill buf (slotOffset i) 0 70)).readBlocks
      (inodeBitmapAt (inodeToBgd i)) = fs.readBlocks (inodeBitmapAt (inodeToBgd i)) := by
    unfold Fs.readBlocks
    rw [writeBlocks_disk, Function.update_of_ne hne]
    rfl
  unfold dropInode
  rw [syncMetadata_disk h1 h2]
  simp only [modifyDesc_disk, writeBlocks_disk, writeBlocks_bgdtCache]
  rw [hl.inodeBlock_eq hi, hl.inodeBitmap _ hg, hread, hfill]

section DropInode

variable {fs : Fs} {i : Nat} {buf : Mem}

theorem dropInode_blockBitmap (hl : Layout fs) (hi : IsInode i)
    (hbuf : ∀ o < 512, buf o = fs.readBlocks (inodeBlockAt i) o) (g : Nat) :
    (dropInode i buf fs).disk (blockBitmapAt g) = fs.disk (blockBitmapAt g) := by
  rw [dropInode_disk hl hi hbuf (bitmapAt_ne g).1.1 (bitmapAt_ne g).1.2,
    Function.update_of_ne (blockBitmapAt_ne_inodeBitmapAt g _),
    Function.update_of_ne (blockBitmapAt_ne_inodeBlockAt g i)]

theorem dropInode_otherBitmap (hl : Layout fs) (hi : IsInode i)
    (hbuf : ∀ o < 512, buf o = fs.readBlocks (inodeBlockAt i) o) {g : Nat}
    (hne : g ≠ inodeToBgd i) :
    (dropInode i buf fs).disk (inodeBitmapAt g) = fs.disk (inodeBitmapAt g) := by
  rw [dropInode_disk hl hi hbuf (bitmapAt_ne g).2.1 (bitmapAt_ne g).2.2,
    Function.update_of_ne fun hc => hne (inodeBitmapAt_inj hc),
    Function.update_of_ne (inodeBitmapAt_ne_inodeBlockAt g i)]

theorem dropInode_ownBitmap (hl : Layout fs) (hi : IsInode i)
    (hbuf : ∀ o < 512, buf o = fs.readBlocks (inodeBlockAt i) o) :
    (dropInode i buf fs).disk (inodeBitmapAt (inodeToBgd i)) =
      blockOf (clearBit (fs.readBlocks (inodeBitmapAt (inodeToBgd i))) (inodeToLocal i)) := by
  rw [dropInode_disk hl hi hbuf (bitmapAt_ne _).2.1 (bitmapAt_ne _).2.2, Function.update_self]

theorem dropInode_bit (hl : Layout fs) (hi : IsInode i)
    (hbuf : ∀ o < 512, buf o = fs.readBlocks (inodeBlockAt i) o) {j : Nat} (hj : j < 4096) :
    bit ((dropInode i buf fs).disk (inodeBitmapAt (inodeToBgd i))).mem j =
      (!decide (j = inodeToLocal i) && bit (fs.disk (inodeBitmapAt (inodeToBgd i))).mem j) := by
  rw [dropInode_ownBitmap hl hi hbuf, bit_clearBit_readBlocks _ _ _ hj]

theorem dropInode_table (hl : Layout fs) (hi : IsInode i)
    (hbuf : ∀ o < 512, buf o = fs.readBlocks (inodeBlockAt i) o) (j : Nat) :
    (dropInode i buf fs).disk (inodeBlockAt j) = Function.update fs.disk (inodeBlockAt i)
      (blockOf (blit (fs.readBlocks (inodeBlockAt i)) (slotOffset i) (fun _ => 0) 70))
        (inodeBlockAt j) := by
  have := inodeBlockAt_ge j
  rw [dropInode_disk hl hi hbuf (by omega) (by omega),
    Function.update_of_ne (inodeBitmapAt_ne_inodeBlockAt _ j).symm]

/-- The inode that was in use is counted as free. -/
theorem dropInode_counters (hl : Layout fs) (hi : IsInode i)
    (hbuf : ∀ o < 512, buf o = fs.readBlocks (inodeBlockAt i) o)
    (hui : inodeUsed fs.disk i = true) (hc : Counters fs) : Counters (dropInode i buf fs) := by
  refine ⟨fun g hg => ?_, fun g hg => ?_⟩
  · have := hc.blocks g hg
    unfold freeBlocksOf at this ⊢
    rw [dropInode_blockBitmap hl hi hbuf, dropInode_bgdtCache]
    by_cases h : g = inodeToBgd i
    · subst h; rw [if_pos rfl]; exact this
    · rw [if_neg h]; exact this
  · have h1 := hc.inodes g hg
    rw [dropInode_bgdtCache]
    by_cases h : g = inodeToBgd i
    · subst h
      have h2 : freeInodesOf (dropInode i buf fs).disk (inodeToBgd i) =
          freeInodesOf fs.disk (inodeToBgd i) + 1 := by
        unfold freeInodesOf
        rw [← clearCount_clearBit (inodeToLocal_lt i) hui]
        exact clearCount_congr fun j hj => by
          rw [dropInode_bit hl hi hbuf (by omega), bit_clearBit]
      have h3 := clearCount_le (fs.disk (inodeBitmapAt (inodeToBgd i))).mem 112
      unfold freeInodesOf at h1 h2 ⊢
      rw [if_pos rfl]
      dsimp only
      rw [UInt16.toNat_succ (by omega)]
      omega
    · rw [if_neg h, h1]
      unfold freeInodesOf
      rw [dropInode_otherBitmap hl hi hbuf h]

/-- The last steps give back the inode and no block. -/
theorem dropInode_freed (hl : Layout fs) (hi : IsInode i)
    (hbuf : ∀ o < 512, buf o = fs.readBlocks (inodeBlockAt i) o) :
    Freed fs (dropInode i buf fs) i [] [] := by
  have hbm := dropInode_blockBitmap hl hi hbuf
  have htab := dropInode_table hl hi hbuf
  refine ⟨fun b _ => ?_, fun j hj => ?_, fun o => ?_, fun j o ho => ?_, fun b hb _ => ?_,
    fun g _ o _ => ?_, fun g _ o ho => ?_, fun g => ?_, fun _ g => ?_, ?_, rfl,
    fun _ _ => dropInode_counters hl hi hbuf⟩
  · unfold blockUsed
    rw [hbm]
    simp
  · have hlj := inodeToLocal_lt j
    unfold inodeUsed
    by_cases h : inodeToBgd j = inodeToBgd i
    · rw [h, dropInode_bit hl hi hbuf (by omega), Bool.and_comm]
      congr 2
      have e1 := inode_eq_of_bit hj
      have e2 := inode_eq_of_bit hi
      rw [h] at e1
      simp only [decide_eq_decide]
      omega
    · have hne : j ≠ i := fun hc => h (by rw [hc])
      rw [dropInode_otherBitmap hl hi hbuf h]
      simp [hne]
  · have := slot_blit fs.disk i (fs.readBlocks (inodeBlockAt i)) (fun _ => 0)
    rw [← slot_congr (htab i)] at this
    rw [this]
    unfold cutNode
    split <;> rfl
  · rw [htab j, sameSlots_blit fs i _ j o ho]
  · have := hb.2.1
    rw [dropInode_disk hl hi hbuf (by omega) (by omega),
      Function.update_of_ne (hb.ne_inodeBitmapAt _), Function.update_of_ne (hb.ne_inodeBlockAt i)]
  · rw [hbm]
  · by_cases h : g = inodeToBgd i
    · subst h
      have hl' := inodeToLocal_lt i
      rw [dropInode_ownBitmap hl hi hbuf, clearBit_kept _ _ (by omega)]
    · rw [dropInode_otherBitmap hl hi hbuf h]
  · rw [dropInode_bgdtCache]
    by_cases h : g = inodeToBgd i
    · subst h
      rw [if_pos rfl]
    · rw [if_neg h]
  · rw [dropInode_bgdtCache]
    by_cases h : g = inodeToBgd i
    · subst h
      rw [if_pos rfl]
    · rw [if_neg h]
  · rw [List.length_nil, show UInt32.ofNat 0 = 0 from rfl, UInt32.add_zero]
    rfl

end DropInode

/-- Blocks that were freed before are given back too. -/
theorem Freed.after_release {fs fs₁ fs₂ : Fs} {i : Nat} {L : List Nat} (h : Freed fs₁ fs₂ i [] [])
    (hrel : Release fs fs₁ L) : Freed fs fs₂ i L [] := by
  have htab : ∀ j, fs₁.disk (inodeBlockAt j) = fs.disk (inodeBlockAt j) := fun j =>
    hrel.frame _ fun g _ => (blockBitmapAt_ne_inodeBlockAt g j).symm
  have him : ∀ g, fs₁.disk (inodeBitmapAt g) = fs.disk (inodeBitmapAt g) := fun g =>
    hrel.frame _ fun g' _ => (blockBitmapAt_ne_inodeBitmapAt g' g).symm
  have hinodes : ∀ j, inodeUsed fs₁.disk j = inodeUsed fs.disk j := fun j => by
    unfold inodeUsed
    rw [him]
  refine ⟨fun b hb => ?_, fun j hj => ?_, h.slotSelf, fun j o ho => ?_, fun b hb hX => ?_,
    fun g hg o ho => ?_, fun g hg o ho => ?_, fun g => ?_, fun hd g => ?_, ?_, ?_,
    fun hnd hu hui hc => ?_⟩
  · rw [h.blocks b hb, hrel.used b hb]
    simp
  · rw [h.inodes j hj, hinodes]
  · rw [h.slots j o ho, htab]
  · rw [h.data b hb hX, hrel.data_eq hb]
  · rw [h.blockTail g hg o ho, hrel.tail g hg o ho]
  · rw [h.inodeTail g hg o ho, him]
  · rw [h.desc, hrel.desc]
  · have hdir : isDir fs₁.disk i = false := by
      unfold isDir
      rw [slot_congr (htab i)]
      exact hd
    rw [h.usedDirs hdir g, hrel.desc]
  · rw [h.super, hrel.super, List.length_nil, show UInt32.ofNat 0 = 0 from rfl, UInt32.add_zero]
  · rw [h.stack, hrel.stack]
  · exact h.counters List.nodup_nil (fun b hb => absurd hb List.not_mem_nil)
      (by rwa [hinodes]) (hrel.counters hnd hu hc)

/-- The directory count is no part of what is given back. -/
theorem Freed.after_dropDir {fs fs' : Fs} {i bg : Nat} {L X : List Nat} {node : Mem}
    (h : Freed (dropDir bg node fs) fs' i L X)
    (hfile : isDir fs.disk i = false → dropDir bg node fs = fs) : Freed fs fs' i L X := by
  have hd := dropDir_disk bg node fs
  refine ⟨?_, ?_, h.slotSelf, ?_, ?_, ?_, ?_, fun g => ?_, fun hdir g => ?_, ?_, ?_,
    fun hnd hu hui hc => ?_⟩
  · rw [← hd]; exact h.blocks
  · rw [← hd]; exact h.inodes
  · rw [← hd]; exact h.slots
  · rw [← hd]; exact h.data
  · rw [← hd]; exact h.blockTail
  · rw [← hd]; exact h.inodeTail
  · rw [h.desc, dropDir_desc]
  · rw [h.usedDirs (by rwa [hd]), hfile hdir]
  · rw [h.super, dropDir_superBlock]
  · rw [h.stack, dropDir_stack]
  · rw [← hd] at hu hui
    exact h.counters hnd hu hui (dropDir_counters bg node fs hc)

/-- `deallocate_node` gives back the inode and the blocks it visits. -/
theorem deallocateNode_spec {fs : Fs} (hl : Layout fs) {i : Nat} (hi : IsInode i)
    (hdata : ∀ b ∈ fileBlocks fs.disk (slot fs.disk i), IsData b) :
    Freed fs (deallocateNode i fs) i (fileBlocks fs.disk (slot fs.disk i)) [] := by
  have hi0 : i ≠ 0 := by have := hi.1; omega
  have hnode : ∀ o < 70, view (fs.readBlocks (fs.inodeBlock i)) (slotOffset i) o =
      slot fs.disk i o := fun o ho => hl.node_apply hi ho
  rw [deallocateNode_eq hi0]
  generalize view (fs.readBlocks (fs.inodeBlock i)) (slotOffset i) = node at hnode
  have hfb : fileBlocks fs.disk node = fileBlocks fs.disk (slot fs.disk i) := by
    unfold fileBlocks singleRest
    rw [iBlocks_congr hnode, iBlock_congr hnode (by decide : 12 < 15),
      iBlock_congr hnode (by decide : 13 < 15),
      nonzero_congr fun j hj => iBlock_congr hnode (by omega)]
  -- the count of directories changes only with one
  have hfile : isDir fs.disk i = false → dropDir (inodeToBgd i) node fs = fs := by
    intro h
    unfold dropDir
    rw [if_neg]
    rintro ⟨h1, -⟩
    rw [iMode_congr hnode] at h1
    unfold isDir at h
    exact h1 (by simpa using h)
  rw [← hfb, ← dropDir_disk (inodeToBgd i) node fs] at hdata ⊢
  refine Freed.after_dropDir ?_ hfile
  -- then the blocks go, and then the inode
  have hld := dropDir_layout (inodeToBgd i) node hl
  rw [freeNodeBlocks_eq hld hdata]
  have hrel := freeBlocks_release hld fun b hb => (hdata b hb).1
  refine (dropInode_freed (hrel.layout hld) hi fun o ho => ?_).after_release hrel
  rw [hl.inodeBlock_eq hi, readBlocks_of_lt _ _ ho, readBlocks_of_lt _ _ ho,
    hrel.frame _ fun g _ => (blockBitmapAt_ne_inodeBlockAt g i).symm, dropDir_disk]

/-! ## The stores that follow -/

section Freed

variable {fs fs' : Fs} {i : Nat} {L X : List Nat}

/-- A store to a data block, the superblock or the descriptors. -/
theorem Freed.store (h : Freed fs fs' i L X) {n : Nat} {Y : List Nat} (buf : Mem)
    (hb : ∀ g, n ≠ blockBitmapAt g) (hi : ∀ g, n ≠ inodeBitmapAt g) (ht : ∀ j, n ≠ inodeBlockAt j)
    (hX : ∀ b ∈ X, b ∈ Y) (hn : IsData n → n ∈ Y) :
    Freed fs (fs'.writeBlocks n buf) i L Y where
  blocks := fun b hlt => by rw [writeBlocks_disk, blockUsed_update hb, h.blocks b hlt]
  inodes := fun j hj => by rw [writeBlocks_disk, inodeUsed_update hi, h.inodes j hj]
  slotSelf := fun o => by rw [writeBlocks_disk, slot_update (ht i), h.slotSelf o]
  slots := fun j o ho => by
    rw [writeBlocks_disk, Function.update_of_ne (ht j).symm, h.slots j o ho]
  data := fun b hd hY => by
    have hne : b ≠ n := by
      rintro rfl
      exact hY (hn hd)
    rw [writeBlocks_disk, Function.update_of_ne hne, h.data b hd fun hc => hY (hX b hc)]
  blockTail := fun g hg o ho => by
    rw [writeBlocks_disk, Function.update_of_ne (hb g).symm, h.blockTail g hg o ho]
  inodeTail := fun g hg o ho => by
    rw [writeBlocks_disk, Function.update_of_ne (hi g).symm, h.inodeTail g hg o ho]
  desc := h.desc
  usedDirs := h.usedDirs
  super := h.super
  stack := h.stack
  counters := fun hnd hu hui hc => by
    have hc' := h.counters hnd hu hui hc
    refine ⟨fun g hg => ?_, fun g hg => ?_⟩
    · rw [writeBlocks_disk, freeBlocksOf_update hb]
      exact hc'.blocks g hg
    · rw [writeBlocks_disk, freeInodesOf_update hi]
      exact hc'.inodes g hg

theorem Freed.writeData (h : Freed fs fs' i L X) {b : Nat} (hb : IsData b) (buf : Mem) :
    Freed fs (fs'.writeBlocks b buf) i L (b :: X) :=
  h.store buf hb.ne_blockBitmapAt hb.ne_inodeBitmapAt hb.ne_inodeBlockAt
    (fun _ hc => List.mem_cons_of_mem _ hc) fun _ => List.mem_cons_self

theorem Freed.sync (h : Freed fs fs' i L X) : Freed fs (syncMetadata fs') i L X := by
  have h1 : Freed fs (fs'.writeBlocks 1 (fs'.superBlock.store fs'.stack)) i L X :=
    h.store _ (fun g => (bitmapAt_ne g).1.1.symm) (fun g => (bitmapAt_ne g).2.1.symm)
      (fun j => (inodeBlockAt_ne j).1.symm) (fun _ hc => hc) fun hd => absurd hd (by decide)
  exact h1.store _ (fun g => (bitmapAt_ne g).1.2.symm) (fun g => (bitmapAt_ne g).2.2.symm)
    (fun j => (inodeBlockAt_ne j).2.symm) (fun _ hc => hc) fun hd => absurd hd (by decide)

/-- Counters and metadata survive when exactly allocated data blocks are given back. -/
theorem Freed.ready (h : Freed fs fs' i L X) (hr : Ready fs) (hnd : L.Nodup)
    (hL : ∀ b ∈ L, IsData b ∧ blockUsed fs.disk b = true) (hu : inodeUsed fs.disk i = true) :
    Ready fs' where
  layout := h.layout hr.layout
  counters := h.counters hnd (fun b hb => ⟨(hL b hb).1.1, (hL b hb).2⟩) hu hr.counters
  metaUsed := fun b hb => by
    have hne : b ∉ L := fun hc => (hL b hc).1.not_isMeta hb
    rw [h.blocks b hb.1, hr.metaUsed b hb]
    simp [hne]

end Freed

end LossOs.Ext2
