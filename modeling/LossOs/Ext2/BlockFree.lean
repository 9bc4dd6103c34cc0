/-
  `deallocate_block`: the function, and what it does with one location.

  The function keeps the bitmap of one group in a buffer. It writes it back when the group changes
  and at the end; until then `flushed` is what the disk would be. Each block that is dropped is
  freed in this view (`dropBlock_clean`), so a call that starts without a bitmap frees all its
  blocks (`deallocate0_clean`). The same buffer takes the pointer blocks, which is without
  consequence as long as there is one location only (`deallocate1_single`, `deallocate2_single`).
  What these calls do not reach is left out of the lists: a call with depth 1 takes as many pointers
  of a block as there are locations, and a call with depth 2 makes calls with one location.
-/
import LossOs.Ext2.DirFree
import LossOs.Lib.Loops

namespace LossOs.Ext2

open LossOs.Lib

/-! ## The function -/

/-- What `deallocate_block` works on: the file system with the cached tables, `*last_bgd`, the array
    that `bitmap` points to, and the arrays. Array `k < 3` is the buffer `buf` of the call with
    depth `k`, array 3 is that of the locations. -/
structure FreeState where
  fs : Fs
  lastBgd : Nat
  bitmap : Option Nat
  mem : Nat → Mem

def FreeState.setMem (s : FreeState) (k : Nat) (m : Mem) : FreeState :=
  { s with mem := Function.update s.mem k m }

/-- `bg_free_blocks_count++` and `s_free_blocks_count++`. -/
def countFree (grp : Nat) (fs : Fs) : Fs :=
  let fs := fs.modifyDesc grp fun d => { d with bgFreeBlocksCount := d.bgFreeBlocksCount + 1 }
  { fs with superBlock :=
      { fs.superBlock with sFreeBlocksCount := fs.superBlock.sFreeBlocksCount + 1 } }

/-- The disk with the bitmap written back. -/
def flushed (s : FreeState) : Fs :=
  match s.bitmap with
  | none => s.fs
  | some r => s.fs.writeBlocks (s.fs.bgdtCache s.lastBgd).bgBlockBitmap.toNat (s.mem r)

/-- `if (bitmap) write_blocks(bitmap, bgdtCache.table[*last_bgd].bg_block_bitmap, 1);`, of a table
    with eight groups. -/
def flush (s : FreeState) : Option FreeState :=
  if s.bitmap = none ∨ s.lastBgd < 8 then some { s with fs := flushed s } else none

/-- `*last_bgd = grp; read_blocks(&buf, bgdtCache.table[grp].bg_block_bitmap, 1); bitmap = &buf;` -/
def loadBitmap (depth grp : Nat) (s : FreeState) : FreeState :=
  { s with
    lastBgd := grp
    bitmap := some depth
    mem := Function.update s.mem depth
      (s.fs.readBlocks (s.fs.bgdtCache grp).bgBlockBitmap.toNat) }

/-- `if (!bitmap || grp != *last_bgd)`, with what it does. -/
def selectBitmap (depth grp : Nat) (s : FreeState) : Option FreeState :=
  if s.bitmap = none ∨ grp ≠ s.lastBgd then (flush s).map (loadBitmap depth grp) else some s

/-- The bit in the bitmap, the counters, and `locations[i] = 0`. -/
def clearAndCount (arr k blockId : Nat) (s : FreeState) : FreeState :=
  let s := match s.bitmap with
    | none => s
    | some r => s.setMem r (clearBit (s.mem r) (blockId % 256))
  let s := { s with fs := countFree (blockId / 256) s.fs }
  s.setMem arr (wr32 (s.mem arr) (k * 4) 0)

/-- What stands in each of the three loops, for the element `k` of the array `arr`. -/
def dropBlock (depth arr k : Nat) (s : FreeState) : Option FreeState :=
  let blockId := ptr (s.mem arr) k
  if blockId / 256 < 8 then
    (selectBitmap depth (blockId / 256) s).map (clearAndCount arr k blockId)
  else none

/-- A call, to which `bitmap` is passed by value. -/
def call (f : FreeState → Option FreeState) (s : FreeState) : Option FreeState :=
  (f s).map fun s' => { s' with bitmap := s.bitmap }

/-- The frame of the function: nothing for 0 blocks, else the loop and the last write. -/
def withRounds (blocks : UInt32) (rounds : FreeState → Option FreeState) (s : FreeState) :
    Option FreeState :=
  if blocks = 0 then some s else (rounds s).bind flush

/-- The loop of depth 0, for the locations from element `base` of the array `arr` on. -/
def round0 (arr base i : Nat) (s : FreeState) : Option FreeState :=
  if ptr (s.mem arr) (base + i) = 0 then some s else dropBlock 0 arr (base + i) s

def deallocate0 (arr base : Nat) (blocks : UInt32) (s : FreeState) : Option FreeState :=
  withRounds blocks (loopWhile (fun _ _ => true) (round0 arr base) blocks.toNat 0) s

/-- `locations[i] != 0`. -/
def isLocation (arr base i : Nat) (s : FreeState) : Bool := ptr (s.mem arr) (base + i) ≠ 0

/-- The loop of depth 1. How many pointers it takes depends on the number of locations. -/
def round1 (arr base : Nat) (blocks : UInt32) (i : Nat) (s : FreeState) : Option FreeState :=
  let s := s.setMem 1 (s.fs.readBlocks (ptr (s.mem arr) (base + i)))
  let count := if blocks > 128 then 128 else blocks
  (call (deallocate0 1 0 count) s).bind (dropBlock 1 arr (base + i))

def deallocate1 (arr base : Nat) (blocks : UInt32) (s : FreeState) : Option FreeState :=
  withRounds blocks (loopWhile (isLocation arr base) (round1 arr base blocks) blocks.toNat 0) s

/-- `remain`. -/
def remain (blocks : UInt32) (j : Nat) : UInt32 :=
  if blocks > UInt32.ofNat ((j + 1) * 128) then 128 else blocks - UInt32.ofNat (j * 128)

/-- The loop of depth 2, whose calls have one location each. The inner loop ends at a pointer that
    is 0 and where `remain` is. -/
def round2 (arr base : Nat) (blocks : UInt32) (i : Nat) (s : FreeState) : Option FreeState :=
  let s := s.setMem 2 (s.fs.readBlocks (ptr (s.mem arr) (base + i)))
  (loopWhile (fun j s => decide (ptr (s.mem 2) j ≠ 0 ∧ remain blocks j ≠ 0))
    (fun j => call (deallocate1 2 j 1)) 128 0 s).bind (dropBlock 2 arr (base + i))

def deallocate2 (arr base : Nat) (blocks : UInt32) (s : FreeState) : Option FreeState :=
  withRounds blocks (loopWhile (isLocation arr base) (round2 arr base blocks) blocks.toNat 0) s

/-- `deallocate_block`, called with the bitmap NULL. The buffers hold what is on the stack;
    `bgd_loaded` is not used. It fails where it would use a group that the table does not have. -/
def deallocateBlock (locations : Mem) (blocks : UInt32) (depth lastBgd : Nat) (bufs : Nat → Mem)
    (fs : Fs) : Option FreeState :=
  let s : FreeState := ⟨fs, lastBgd, none, Function.update bufs 3 locations⟩
  match depth with
  | 0 => deallocate0 3 0 blocks s
  | 1 => deallocate1 3 0 blocks s
  | 2 => deallocate2 3 0 blocks s
  | _ => withRounds blocks some s

/-! ## One block -/

section Drop

variable {s : FreeState} {depth arr k b r : Nat} {m : Mem}

theorem setMem_same (s : FreeState) (k : Nat) (m : Mem) : (s.setMem k m).mem k = m := by
  unfold FreeState.setMem
  exact Function.update_self ..

theorem setMem_of_ne (h : r ≠ k) (s : FreeState) (m : Mem) : (s.setMem k m).mem r = s.mem r := by
  unfold FreeState.setMem
  exact Function.update_of_ne h ..

theorem clearAndCount_bitmap (s : FreeState) (arr k b : Nat) :
    (clearAndCount arr k b s).bitmap = s.bitmap := by
  obtain ⟨_, _, bitmap, _⟩ := s
  cases bitmap <;> rfl

theorem clearAndCount_lastBgd (s : FreeState) (arr k b : Nat) :
    (clearAndCount arr k b s).lastBgd = s.lastBgd := by
  obtain ⟨_, _, bitmap, _⟩ := s
  cases bitmap <;> rfl

theorem clearAndCount_fs (s : FreeState) (arr k b : Nat) :
    (clearAndCount arr k b s).fs = countFree (b / 256) s.fs := by
  obtain ⟨_, _, bitmap, _⟩ := s
  cases bitmap <;> rfl

theorem flushed_none (h : s.bitmap = none) : flushed s = s.fs := by
  unfold flushed
  rw [h]

theorem flushed_some (h : s.bitmap = some r) : flushed s =
    s.fs.writeBlocks (s.fs.bgdtCache s.lastBgd).bgBlockBitmap.toNat (s.mem r) := by
  unfold flushed
  rw [h]

theorem blocks_ne_zero {blocks : UInt32} (h : 0 < blocks.toNat) : blocks ≠ 0 := fun hz => by
  rw [hz] at h
  exact absurd h (Nat.lt_irrefl 0)

theorem freeBlock_eq (fs : Fs) (b : Nat) : freeBlock fs b = countFree (b / 256)
    (fs.writeBlocks (fs.bgdtCache (b / 256)).bgBlockBitmap.toNat
      (clearBit (fs.readBlocks (fs.bgdtCache (b / 256)).bgBlockBitmap.toNat) (b % 256))) := rfl

theorem countFree_bitmap (grp : Nat) (fs : Fs) (g : Nat) :
    ((countFree grp fs).bgdtCache g).bgBlockBitmap = (fs.bgdtCache g).bgBlockBitmap := by
  unfold countFree
  dsimp only
  by_cases h : g = grp
  · rw [h, modifyDesc_same]
  · rw [modifyDesc_of_ne h]

/-- A second write to the same block. -/
theorem writeBlocks_writeBlocks (fs : Fs) (n : Nat) (m m' : Mem) :
    (fs.writeBlocks n m).writeBlocks n m' = fs.writeBlocks n m' := by
  unfold Fs.writeBlocks
  rw [Function.update_idem]

theorem writeBlocks_congr (fs : Fs) (n : Nat) {m m' : Mem} (h : ∀ o < 512, m o = m' o) :
    fs.writeBlocks n m = fs.writeBlocks n m' := by
  unfold Fs.writeBlocks
  rw [show blockOf m = blockOf m' from funext fun o => h o o.isLt]

theorem writeBlocks_readBlocks (fs : Fs) (n : Nat) : fs.writeBlocks n (fs.readBlocks n) = fs := by
  have hblock : blockOf (fs.readBlocks n) = fs.disk n := by
    funext o
    exact dif_pos o.isLt
  unfold Fs.writeBlocks
  rw [hblock, Function.update_eq_self]

/-- What is read from a block that has been written. -/
theorem readBlocks_writeBlocks (fs : Fs) (n : Nat) (m : Mem) {o : Nat} (h : o < 512) :
    (fs.writeBlocks n m).readBlocks n o = m o := by
  rw [readBlocks_of_lt _ _ h, writeBlocks_disk, Function.update_self, mem_blockOf h]

theorem clearBit_congr {m m' : Mem} (h : ∀ o < 512, m o = m' o) {i : Nat} (hi : i < 256) {o : Nat}
    (ho : o < 512) : clearBit m i o = clearBit m' i o := by
  unfold clearBit wr8
  rw [h _ (by omega), h o ho]

/-- No bitmap yet, or the own buffer. -/
def OwnBitmap (depth : Nat) (s : FreeState) : Prop :=
  s.bitmap = none ∨ s.bitmap = some depth ∧ s.lastBgd < 8

theorem OwnBitmap.flush_eq (h : OwnBitmap depth s) : flush s = some { s with fs := flushed s } :=
  if_pos (h.imp_right And.right)

/-- The block `b`, which is element `k` of the array `arr`, has been dropped. -/
structure Dropped (depth arr k b : Nat) (s s' : FreeState) : Prop where
  bitmap : s'.bitmap = some depth
  lastBgd : s'.lastBgd = b / 256
  fs : flushed s' = freeBlock (flushed s) b
  zeroed : s'.mem arr = wr32 (s.mem arr) (k * 4) 0
  others : ∀ r, r ≠ depth → r ≠ arr → s'.mem r = s.mem r

theorem Dropped.clean {s' : FreeState} (h : Dropped depth arr k b s s') (hb : b < 2048) :
    OwnBitmap depth s' := Or.inr ⟨h.bitmap, by rw [h.lastBgd]; omega⟩

/-- With the right bitmap in the own buffer. -/
theorem clearAndCount_flushed (hbitmap : s.bitmap = some depth) (hlast : s.lastBgd = b / 256)
    (harr : arr ≠ depth) : Dropped depth arr k b s (clearAndCount arr k b s) := by
  have hcache : ∀ g, ((countFree (b / 256) s.fs).bgdtCache g).bgBlockBitmap =
      (s.fs.bgdtCache g).bgBlockBitmap := countFree_bitmap _ _
  unfold clearAndCount
  rw [hbitmap]
  refine ⟨hbitmap, hlast, ?_, ?_, fun r hdepth hr => ?_⟩
  · unfold flushed
    dsimp only [FreeState.setMem]
    rw [hbitmap, hlast, freeBlock_eq]
    dsimp only
    rw [hcache, Function.update_of_ne harr.symm, Function.update_self, writeBlocks_bgdtCache,
      writeBlocks_writeBlocks]
    refine Eq.trans ?_ (congrArg (countFree (b / 256)) (writeBlocks_congr s.fs _ fun o ho =>
      clearBit_congr (fun o ho => readBlocks_writeBlocks s.fs _ _ ho) (Nat.mod_lt _ (by decide))
        ho).symm)
    rfl
  · rw [setMem_same]
    show wr32 ((s.setMem depth _).mem arr) (k * 4) 0 = _
    rw [setMem_of_ne harr]
  · rw [setMem_of_ne hr]
    exact setMem_of_ne hdepth s _

/-- A block that is dropped is freed, in the view in which the bitmap is written back. -/
theorem dropBlock_clean (hs : OwnBitmap depth s) (hptr : ptr (s.mem arr) k = b) (hb : b < 2048)
    (harr : arr ≠ depth) :
    ∃ s', dropBlock depth arr k s = some s' ∧ Dropped depth arr k b s s' := by
  have hgrp : b / 256 < 8 := by omega
  unfold dropBlock
  rw [hptr]
  dsimp only
  rw [if_pos hgrp]
  unfold selectBitmap
  by_cases hload : s.bitmap = none ∨ b / 256 ≠ s.lastBgd
  · rw [if_pos hload, hs.flush_eq]
    refine ⟨_, rfl, ?_⟩
    have hdrop := clearAndCount_flushed (s := loadBitmap depth (b / 256) { s with fs := flushed s })
      (k := k) rfl rfl harr
    refine ⟨hdrop.bitmap, hdrop.lastBgd, ?_, ?_, fun r hdepth hr => ?_⟩
    · -- what has just been loaded is what the disk has
      have hloaded :
          flushed (loadBitmap depth (b / 256) { s with fs := flushed s }) = flushed s := by
        show (flushed s).writeBlocks _ (Function.update s.mem depth _ depth) = flushed s
        rw [Function.update_self]
        exact writeBlocks_readBlocks _ _
      rw [hdrop.fs, hloaded]
    · rw [hdrop.zeroed]
      show wr32 (Function.update s.mem depth _ arr) (k * 4) 0 = _
      rw [Function.update_of_ne harr]
    · rw [hdrop.others r hdepth hr]
      show Function.update s.mem depth _ r = _
      rw [Function.update_of_ne hdepth]
  · rw [not_or, not_not] at hload
    obtain ⟨hbitmap, hlast⟩ := hs.resolve_left hload.1
    rw [if_neg (not_or.mpr ⟨hload.1, not_not.mpr hload.2⟩)]
    exact ⟨_, rfl, clearAndCount_flushed hbitmap hload.2.symm harr⟩

end Drop

/-! ## Depth 0 -/

theorem nonzero_succ (p : Nat → Nat) (i : Nat) :
    nonzero p (i + 1) = nonzero p i ++ if p i = 0 then [] else [p i] := by
  unfold nonzero
  rw [List.range_succ, List.map_append, List.filter_append]
  by_cases h : p i = 0
  · rw [if_pos h]
    simp [h]
  · rw [if_neg h]
    simp [h]

theorem ptr_zeroed (m : Mem) (k j : Nat) :
    ptr (wr32 m (k * 4) 0) j = if j = k then 0 else ptr m j := ptr_wr32 m k j 0

section Depth0

variable {s t : FreeState} {arr base i : Nat} {blocks : UInt32}

/-- The first `i` locations have been dropped. -/
structure Rounds0 (arr base : Nat) (s : FreeState) (i : Nat) (t : FreeState) : Prop where
  clean : OwnBitmap 0 t
  fs : flushed t = (nonzero (fun j => ptr (s.mem arr) (base + j)) i).foldl freeBlock (flushed s)
  done : ∀ j < i, ptr (t.mem arr) (base + j) = 0
  rest : ∀ j, i ≤ j → ptr (t.mem arr) (base + j) = ptr (s.mem arr) (base + j)
  others : ∀ r, r ≠ 0 → r ≠ arr → t.mem r = s.mem r

theorem Rounds0.round (h : Rounds0 arr base s i t) (harr : arr ≠ 0)
    (hlt : ptr (s.mem arr) (base + i) < 2048) :
    ∃ t', round0 arr base i t = some t' ∧ Rounds0 arr base s (i + 1) t' := by
  have hptr := h.rest i (Nat.le_refl i)
  unfold round0
  by_cases h0 : ptr (t.mem arr) (base + i) = 0
  · rw [if_pos h0]
    refine ⟨t, rfl, h.clean, ?_, fun j hj => ?_, fun j hj => h.rest j (by omega), h.others⟩
    · rw [nonzero_succ, if_pos (hptr.symm.trans h0), List.append_nil]
      exact h.fs
    · rcases Nat.lt_succ_iff_lt_or_eq.mp hj with hj | rfl
      · exact h.done j hj
      · exact h0
  · rw [if_neg h0]
    obtain ⟨t', hdrop, hd⟩ := dropBlock_clean h.clean hptr hlt harr
    refine ⟨t', hdrop, hd.clean hlt, ?_, fun j hj => ?_, fun j hj => ?_, fun r hr hr' => ?_⟩
    · rw [nonzero_succ, if_neg (fun hz => h0 (hptr.trans hz)), List.foldl_append, ← h.fs, hd.fs]
      rfl
    · rw [hd.zeroed, ptr_zeroed]
      by_cases hji : base + j = base + i
      · rw [if_pos hji]
      · rw [if_neg hji]
        exact h.done j (by omega)
    · rw [hd.zeroed, ptr_zeroed, if_neg (by omega)]
      exact h.rest j (by omega)
    · rw [hd.others r hr hr', h.others r hr hr']

/-- Without a bitmap to begin with, all locations are freed, in whatever groups they are. -/
theorem deallocate0_clean (base : Nat) (blocks : UInt32) (hs : s.bitmap = none) (harr : arr ≠ 0)
    (hlt : ∀ j < blocks.toNat, ptr (s.mem arr) (base + j) < 2048) :
    ∃ s', deallocate0 arr base blocks s = some s' ∧
      s'.fs = (nonzero (fun j => ptr (s.mem arr) (base + j)) blocks.toNat).foldl freeBlock s.fs ∧
      (∀ j < blocks.toNat, ptr (s'.mem arr) (base + j) = 0) ∧
      ∀ r, r ≠ 0 → r ≠ arr → s'.mem r = s.mem r := by
  unfold deallocate0 withRounds
  by_cases h0 : blocks = 0
  · rw [if_pos h0, h0]
    exact ⟨s, rfl, rfl, fun j hj => absurd hj (Nat.not_lt_zero j), fun _ _ _ => rfl⟩
  · rw [if_neg h0]
    have hstart : Rounds0 arr base s 0 s :=
      ⟨Or.inl hs, rfl, fun j hj => absurd hj (Nat.not_lt_zero j), fun _ _ => rfl, fun _ _ _ => rfl⟩
    obtain ⟨j, t, hrun, ht, -, -, hend⟩ := loopWhile_total (fun _ _ => true)
      (round0 arr base) blocks.toNat (fun i t hi ht _ => ht.round harr (hlt i (by omega))) hstart
    obtain rfl : j = blocks.toNat := (hend.resolve_right Bool.noConfusion).trans (Nat.zero_add _)
    refine ⟨{ t with fs := flushed t }, ?_, ?_, ht.done, ht.others⟩
    · rw [hrun]
      exact ht.clean.flush_eq
    · show flushed t = _
      rw [ht.fs, flushed_none hs]

end Depth0

/-! ## Depth 1 -/

section Depth1

variable {s : FreeState} {arr base a : Nat} {blocks : UInt32}

theorem count_toNat (blocks : UInt32) :
    (if blocks > 128 then (128 : UInt32) else blocks).toNat = min blocks.toNat 128 := by
  by_cases h : blocks > 128
  · have hlt : 128 < blocks.toNat := UInt32.lt_iff_toNat_lt.mp h
    rw [if_pos h]
    show 128 = _
    omega
  · have hle : blocks.toNat ≤ 128 := by
      have hnot := mt UInt32.lt_iff_toNat_lt.mpr h
      exact Nat.not_lt.mp hnot
    rw [if_neg h]
    omega

/-- The location `a`, which is element `k` of the array `arr`, has been dropped after the blocks
    that are freed for it. -/
structure Single (depth arr k a : Nat) (L : List Nat) (s s' : FreeState) : Prop where
  bitmap : s'.bitmap = some depth
  lastBgd : s'.lastBgd = a / 256
  fs : flushed s' = (L ++ [a]).foldl freeBlock s.fs
  zeroed : s'.mem arr = wr32 (s.mem arr) (k * 4) 0
  others : ∀ r, depth < r → r ≠ arr → s'.mem r = s.mem r

theorem Single.clean {depth k : Nat} {L : List Nat} {s' : FreeState}
    (h : Single depth arr k a L s s') (ha : a < 2048) : OwnBitmap depth s' :=
  Or.inr ⟨h.bitmap, by rw [h.lastBgd]; omega⟩

/-- A state without a bitmap, in which all but the location has been freed. -/
theorem Single.of_drop {depth k : Nat} {L : List Nat} {s₁ : FreeState} (hs₁ : s₁.bitmap = none)
    (hfs : s₁.fs = L.foldl freeBlock s.fs) (hmem : ∀ r, depth < r → s₁.mem r = s.mem r)
    (ha : ptr (s.mem arr) k = a) (hlt : a < 2048) (harr : depth < arr) :
    ∃ s', dropBlock depth arr k s₁ = some s' ∧ Single depth arr k a L s s' := by
  obtain ⟨s', hdrop, hd⟩ := dropBlock_clean (s := s₁) (Or.inl hs₁) (by rw [hmem arr harr]; exact ha)
    hlt (Nat.ne_of_gt harr)
  refine ⟨s', hdrop, hd.bitmap, hd.lastBgd, ?_, by rw [hd.zeroed, hmem arr harr],
    fun r hr hr' => ?_⟩
  · rw [hd.fs, flushed_none hs₁, hfs, List.foldl_append]
    rfl
  · rw [hd.others r (Nat.ne_of_gt hr) hr', hmem r hr]

/-- A round without a bitmap to begin with. -/
theorem round1_clean (blocks : UInt32) {i : Nat} (hs : s.bitmap = none) (harr : 1 < arr)
    (ha : ptr (s.mem arr) (base + i) = a) (hlt : a < 2048)
    (hptrs : ∀ j < 128, ptr (s.fs.disk a).mem j < 2048) :
    ∃ s', round1 arr base blocks i s = some s' ∧ Single 1 arr (base + i) a
      (nonzero (ptr (s.fs.disk a).mem) (min blocks.toNat 128)) s s' := by
  have hcount := count_toNat blocks
  have hread : ∀ j < 128, ptr ((s.setMem 1 (s.fs.readBlocks a)).mem 1) (0 + j) =
      ptr (s.fs.disk a).mem j := fun j hj => by
    rw [setMem_same, Nat.zero_add]
    exact ptr_readBlocks s.fs a hj
  obtain ⟨s₁, hrun, hfs, -, hmem⟩ := deallocate0_clean 0
    (if blocks > 128 then 128 else blocks) (s := s.setMem 1 (s.fs.readBlocks a)) hs
    (by decide : 1 ≠ 0) fun j hj => by
      rw [hread j (by omega)]
      exact hptrs j (by omega)
  rw [nonzero_congr fun j hj => hread j (by omega), hcount] at hfs
  obtain ⟨s', hdrop, hsingle⟩ :
      ∃ s', dropBlock 1 arr (base + i) { s₁ with bitmap := s.bitmap } = some s' ∧
        Single 1 arr (base + i) a (nonzero (ptr (s.fs.disk a).mem) (min blocks.toNat 128)) s s' :=
    Single.of_drop hs hfs
      (fun r hr => (hmem r (by omega) (by omega)).trans (setMem_of_ne (by omega) s _)) ha hlt harr
  refine ⟨s', ?_, hsingle⟩
  unfold round1 call
  dsimp only
  rw [ha, hrun]
  exact hdrop

/-- A loop whose first round drops the location, and for which there is no other one. -/
theorem withRounds_single {f : Nat → FreeState → Option FreeState} {depth : Nat} {L : List Nat}
    {t : FreeState} (ha : ptr (s.mem arr) base = a) (h0 : a ≠ 0) (hlt : a < 2048)
    (hpos : 0 < blocks.toNat) (hnext : blocks.toNat = 1 ∨ ptr (s.mem arr) (base + 1) = 0)
    (hround : f 0 s = some t) (ht : Single depth arr base a L s t) :
    withRounds blocks (loopWhile (isLocation arr base) f blocks.toNat 0) s =
      some { t with fs := flushed t } := by
  obtain ⟨k, hk⟩ := Nat.exists_eq_succ_of_ne_zero (Nat.ne_of_gt hpos)
  have hfirst : isLocation arr base 0 s = true :=
    decide_eq_true (by rw [Nat.add_zero, ha]; exact h0)
  have hstop : loopWhile (isLocation arr base) f k 1 t = some t := by
    rcases hnext with h1 | h1
    · obtain rfl : k = 0 := by omega
      rfl
    · apply loopWhile_stop
      apply decide_eq_false
      rw [not_not, ht.zeroed, ptr_zeroed, if_neg (by omega)]
      exact h1
  unfold withRounds
  rw [if_neg (blocks_ne_zero hpos), hk, loopWhile_next hfirst, hround]
  show (loopWhile _ _ k 1 t).bind flush = _
  rw [hstop]
  exact (ht.clean hlt).flush_eq

/-- With one location, in front of a zero if there are more. -/
theorem deallocate1_single (blocks : UInt32) (hs : s.bitmap = none) (harr : 1 < arr)
    (ha : ptr (s.mem arr) base = a) (h0 : a ≠ 0) (hlt : a < 2048)
    (hptrs : ∀ j < 128, ptr (s.fs.disk a).mem j < 2048) (hpos : 0 < blocks.toNat)
    (hnext : blocks.toNat = 1 ∨ ptr (s.mem arr) (base + 1) = 0) :
    ∃ s', deallocate1 arr base blocks s = some s' ∧
      s'.fs = (pointed s.fs.disk (min blocks.toNat 128) a).foldl freeBlock s.fs ∧
      s'.mem arr = wr32 (s.mem arr) (base * 4) 0 ∧ ∀ r, 1 < r → r ≠ arr → s'.mem r = s.mem r := by
  obtain ⟨t, hround, ht⟩ := round1_clean blocks (i := 0) hs harr ha hlt hptrs
  exact ⟨{ t with fs := flushed t }, withRounds_single ha h0 hlt hpos hnext hround ht, ht.fs,
    ht.zeroed, ht.others⟩

end Depth1

/-! ## Depth 2 -/

theorem remain_eq_zero (blocks : UInt32) {j : Nat} (hj : j < 128) :
    remain blocks j = 0 ↔ blocks.toNat = j * 128 := by
  have h1 : (UInt32.ofNat ((j + 1) * 128)).toNat = (j + 1) * 128 :=
    UInt32.toNat_ofNat_of_lt' (by show (j + 1) * 128 < 4294967296; omega)
  have h2 : (UInt32.ofNat (j * 128)).toNat = j * 128 :=
    UInt32.toNat_ofNat_of_lt' (by show j * 128 < 4294967296; omega)
  have hlt := blocks.toNat_lt
  unfold remain
  by_cases h : blocks > UInt32.ofNat ((j + 1) * 128)
  · have hgt := UInt32.lt_iff_toNat_lt.mp h
    rw [if_pos h]
    refine iff_of_false (by decide) (by omega)
  · rw [if_neg h, ← UInt32.toNat_inj, UInt32.toNat_sub, h2]
    show (4294967296 - j * 128 + blocks.toNat) % 4294967296 = 0 ↔ _
    have hnot := mt UInt32.lt_iff_toNat_lt.mpr h
    omega

section Depth2

variable {s t : FreeState} {arr base a j : Nat} {blocks : UInt32} {es : List Nat}

/-- The first `j` pointers of the block have been dropped, each after one block at most. -/
structure Rounds2 (es : List Nat) (blocks : UInt32) (s : FreeState) (j : Nat) (t : FreeState) :
    Prop where
  bitmap : t.bitmap = none
  fs : t.fs = ((es.take j).flatMap (pointed s.fs.disk 1)).foldl freeBlock s.fs
  rest : ∀ i, j ≤ i → i < 128 → ptr (t.mem 2) i = es.getD i 0
  others : ∀ r, 2 < r → t.mem r = s.mem r
  going : ∀ i < j, blocks.toNat ≠ i * 128
  le : j ≤ es.length

/-- A block of pointers, for whose pointers the same holds. -/
structure Pointers (d : Disk) (es : List Nat) : Prop where
  length : es.length ≤ 128
  data : ∀ e ∈ es, IsData e
  ptrs : ∀ e ∈ es, ∀ j < 128, ptr (d e).mem j < 2048

theorem Pointers.ne_zero {d : Disk} (h : Pointers d es) {e : Nat} (he : e ∈ es) : e ≠ 0 := by
  have := (h.data e he).2.1
  omega

/-- The blocks that are freed below some of the pointers are blocks of the disk. -/
theorem Pointers.pointed_lt {d : Disk} (h : Pointers d es) {n b : Nat} (hn : n ≤ 128)
    {l : List Nat} (hl : ∀ e ∈ l, e ∈ es) (hb : b ∈ l.flatMap (pointed d n)) : b < 2048 := by
  obtain ⟨e, he, hb⟩ := List.mem_flatMap.mp hb
  rcases List.mem_append.mp hb with hb | hb
  · obtain ⟨-, j, hj, rfl⟩ := mem_nonzero.mp hb
    exact h.ptrs e (hl e he) j (by omega)
  · rw [List.mem_singleton.mp hb]
    exact (h.data e (hl e he)).1

theorem Rounds2.round (h : Rounds2 es blocks s j t) (hl : Layout s.fs)
    (hes : Pointers s.fs.disk es) (hj : j < 128) (hptr : ptr (t.mem 2) j ≠ 0)
    (hremain : remain blocks j ≠ 0) :
    ∃ t', call (deallocate1 2 j 1) t = some t' ∧ Rounds2 es blocks s (j + 1) t' := by
  have hval := h.rest j (Nat.le_refl j) hj
  have hlt : j < es.length := by
    by_contra hge
    rw [hval, List.getD_eq_default _ _ (Nat.not_lt.mp hge)] at hptr
    exact hptr rfl
  rw [List.getD_eq_getElem _ _ hlt] at hval
  have hmem : es[j] ∈ es := List.getElem_mem hlt
  have hdata := hes.data _ hmem
  have hdisk : t.fs.disk es[j] = s.fs.disk es[j] := by
    rw [h.fs]
    exact (freeBlocks_release hl fun b hb => hes.pointed_lt (by decide)
      (fun _ he => List.mem_of_mem_take he) hb).data_eq hdata
  obtain ⟨t', hrun, hfs, hzero, hothers⟩ := deallocate1_single 1 h.bitmap (by decide)
    hval (hes.ne_zero hmem) hdata.1 (by rw [hdisk]; exact hes.ptrs _ hmem) (by decide)
    (Or.inl rfl)
  refine ⟨{ t' with bitmap := t.bitmap }, ?_, h.bitmap, ?_, fun i hi hi' => ?_, fun r hr => ?_,
    fun i hi => ?_, hlt⟩
  · unfold call
    rw [hrun]
    rfl
  · show t'.fs = _
    rw [hfs, List.take_succ_eq_append_getElem hlt, List.flatMap_append, List.foldl_append, ← h.fs,
      List.flatMap_singleton, ← pointed_congr hdisk]
    rfl
  · show ptr (t'.mem 2) i = _
    rw [hzero, ptr_zeroed, if_neg (by omega)]
    exact h.rest i (by omega) hi'
  · exact (hothers r (by omega) (by omega)).trans (h.others r hr)
  · rcases Nat.lt_succ_iff_lt_or_eq.mp hi with hi | rfl
    · exact h.going i hi
    · exact mt (remain_eq_zero blocks hj).mpr hremain

/-- How many of `n` pointers the inner loop takes. -/
def TakenPtrs (blocks : UInt32) (n m : Nat) : Prop :=
  m ≤ n ∧ (∀ i < m, blocks.toNat ≠ i * 128) ∧ (m = n ∨ blocks.toNat = m * 128)

theorem round2_clean (blocks : UInt32) {i : Nat} (hl : Layout s.fs) (hs : s.bitmap = none)
    (harr : 2 < arr) (ha : ptr (s.mem arr) (base + i) = a) (hlt : a < 2048)
    (hblock : PtrBlock s.fs.disk a es) (hes : Pointers s.fs.disk es) :
    ∃ m s', TakenPtrs blocks es.length m ∧ round2 arr base blocks i s = some s' ∧
      Single 2 arr (base + i) a ((es.take m).flatMap (pointed s.fs.disk 1)) s s' := by
  have hstart : Rounds2 es blocks s 0 (s.setMem 2 (s.fs.readBlocks a)) := by
    refine ⟨hs, rfl, fun i _ hi => ?_, fun r hr => setMem_of_ne (Nat.ne_of_gt hr) s _,
      fun i hi => absurd hi (Nat.not_lt_zero i), Nat.zero_le _⟩
    rw [setMem_same, ptr_readBlocks s.fs a hi]
    exact hblock.2 i hi
  obtain ⟨m, t, hrun, ht, -, hm, hend⟩ := loopWhile_total
    (fun j s => decide (ptr (s.mem 2) j ≠ 0 ∧ remain blocks j ≠ 0))
    (fun j => call (deallocate1 2 j 1)) 128
    (fun j t hj ht hc => ht.round hl hes (by omega) (of_decide_eq_true hc).1
      (of_decide_eq_true hc).2) hstart
  have htaken : TakenPtrs blocks es.length m := by
    refine ⟨ht.le, ht.going, ?_⟩
    rcases hend with hend | hend
    · have := hes.length
      have := ht.le
      omega
    · by_cases hlt : m < es.length
      · have hm' : m < 128 := Nat.lt_of_lt_of_le hlt hes.length
        have hptr : ptr (t.mem 2) m ≠ 0 := by
          rw [ht.rest m (Nat.le_refl m) hm', List.getD_eq_getElem _ _ hlt]
          exact hes.ne_zero (List.getElem_mem hlt)
        have hzero : remain blocks m = 0 := by
          by_contra hne
          exact of_decide_eq_false hend ⟨hptr, hne⟩
        exact Or.inr ((remain_eq_zero blocks hm').mp hzero)
      · exact Or.inl (by have := ht.le; omega)
  obtain ⟨s', hdrop, hsingle⟩ : ∃ s', dropBlock 2 arr (base + i) t = some s' ∧
      Single 2 arr (base + i) a ((es.take m).flatMap (pointed s.fs.disk 1)) s s' :=
    Single.of_drop ht.bitmap ht.fs ht.others ha hlt harr
  refine ⟨m, s', htaken, ?_, hsingle⟩
  unfold round2
  dsimp only
  rw [ha, hrun]
  exact hdrop

/-- With one location, in front of a zero if there are more. -/
theorem deallocate2_single (blocks : UInt32) (hl : Layout s.fs) (hs : s.bitmap = none)
    (harr : 2 < arr) (ha : ptr (s.mem arr) base = a) (h0 : a ≠ 0) (hlt : a < 2048)
    (hblock : PtrBlock s.fs.disk a es) (hes : Pointers s.fs.disk es) (hpos : 0 < blocks.toNat)
    (hnext : blocks.toNat = 1 ∨ ptr (s.mem arr) (base + 1) = 0) :
    ∃ m s', TakenPtrs blocks es.length m ∧ deallocate2 arr base blocks s = some s' ∧
      s'.fs = ((es.take m).flatMap (pointed s.fs.disk 1) ++ [a]).foldl freeBlock s.fs ∧
      s'.mem arr = wr32 (s.mem arr) (base * 4) 0 := by
  obtain ⟨m, t, htaken, hround, ht⟩ :=
    round2_clean blocks (i := 0) hl hs harr ha hlt hblock hes
  exact ⟨m, { t with fs := flushed t }, htaken,
    withRounds_single ha h0 hlt hpos hnext hround ht, ht.fs, ht.zeroed⟩

end Depth2

end LossOs.Ext2
