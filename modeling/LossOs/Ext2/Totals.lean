/-
  The totals of the superblock.

  Groups and superblock are counted in parallel: what a call takes or gives back changes both by
  the same amount (`Ledger`). But they start apart. `create_ext2` counts the 8192 blocks of the
  disk less 148, while the macros expand to 8 groups of 256 blocks, 148 of which are metadata or
  the root directory: 8044 blocks are reported free where 1900 are (`totals_differ`). The totals
  of inodes agree.
-/
import LossOs.Ext2.UniqueNames
import LossOs.Ext2.Accounting

namespace LossOs.Ext2

open LossOs.Lib

/-! ## Totals -/

/-- The sum of `bg_free_blocks_count` over all groups. -/
def freeBlocksTotal (fs : Fs) : Nat :=
  ∑ g ∈ Finset.range 8, (fs.bgdtCache g).bgFreeBlocksCount.toNat

/-- The sum of `bg_free_inodes_count` over all groups. -/
def freeInodesTotal (fs : Fs) : Nat :=
  ∑ g ∈ Finset.range 8, (fs.bgdtCache g).bgFreeInodesCount.toNat

structure TotalsMatch (fs : Fs) : Prop where
  blocks : fs.superBlock.sFreeBlocksCount.toNat = freeBlocksTotal fs
  inodes : fs.superBlock.sFreeInodesCount.toNat = freeInodesTotal fs

/-- The number of free blocks on a disk. -/
def freeBlocks (d : Disk) : Nat :=
  ((Finset.range 2048).filter fun b => blockUsed d b = false).card

/-- The number of free inodes on a disk. -/
def freeInodes (d : Disk) : Nat :=
  ((Finset.range 896).filter fun x => inodeUsed d (x + 1) = false).card

/-- The superblock counts the free inodes, and 6144 more than the free blocks. -/
structure Ledger (fs : Fs) : Prop where
  blocks : fs.superBlock.sFreeBlocksCount.toNat = freeBlocks fs.disk + 6144
  inodes : fs.superBlock.sFreeInodesCount.toNat = freeInodes fs.disk

section Totals

variable {fs fs' : Fs} {i : Nat} {L X : List Nat}

theorem sum_freeBlocksOf (d : Disk) : ∑ g ∈ Finset.range 8, freeBlocksOf d g = freeBlocks d :=
  sum_clearCount (fun g => (d (blockBitmapAt g)).mem) 256 8

theorem sum_freeInodesOf (d : Disk) : ∑ g ∈ Finset.range 8, freeInodesOf d g = freeInodes d := by
  refine (sum_clearCount (fun g => (d (inodeBitmapAt g)).mem) 112 8).trans ?_
  unfold freeInodes inodeUsed inodeToBgd inodeToLocal
  simp only [Nat.add_eq_zero_iff, one_ne_zero, and_false, if_false, Nat.add_sub_cancel]

theorem Counters.freeBlocksTotal (h : Counters fs) : freeBlocksTotal fs = freeBlocks fs.disk := by
  rw [← sum_freeBlocksOf]
  exact Finset.sum_congr rfl fun g hg => h.blocks g (Finset.mem_range.mp hg)

theorem Counters.freeInodesTotal (h : Counters fs) : freeInodesTotal fs = freeInodes fs.disk := by
  rw [← sum_freeInodesOf]
  exact Finset.sum_congr rfl fun g hg => h.inodes g (Finset.mem_range.mp hg)

theorem freeBlocks_le (d : Disk) : freeBlocks d ≤ 2048 :=
  (Finset.card_filter_le _ _).trans (Finset.card_range 2048).le

theorem freeInodes_le (d : Disk) : freeInodes d ≤ 896 :=
  (Finset.card_filter_le _ _).trans (Finset.card_range 896).le

/-! ## What is taken and given back -/

theorem freeBlocks_taken {d d' : Disk} (hn : L.Nodup)
    (hL : ∀ b ∈ L, b < 2048 ∧ blockUsed d b = false)
    (h : ∀ b < 2048, blockUsed d' b = (blockUsed d b || decide (b ∈ L))) :
    freeBlocks d' + L.length = freeBlocks d := card_clear_taken hn hL h

theorem freeInodes_taken {d d' : Disk} (hi : IsInode i) (hf : inodeUsed d i = false)
    (h : ∀ j, IsInode j → inodeUsed d' j = (inodeUsed d j || decide (j = i))) :
    freeInodes d' + 1 = freeInodes d := by
  have hone := hi.1
  refine card_clear_taken (L := [i - 1]) (List.nodup_singleton _) (fun x hx => ?_) fun x hx => ?_
  · rw [List.mem_singleton.mp hx, Nat.sub_add_cancel hone]
    have := hi.2
    exact ⟨by omega, hf⟩
  · have hx' : x + 1 = i ↔ x ∈ [i - 1] := by
      rw [List.mem_singleton]
      omega
    rw [h (x + 1) ⟨by omega, by omega⟩, decide_eq_decide.mpr hx']

/-- Blocks that are given back were taken in the state before. -/
theorem freeBlocks_freed {d d' : Disk} (hn : L.Nodup)
    (hL : ∀ b ∈ L, b < 2048 ∧ blockUsed d b = true)
    (h : ∀ b < 2048, blockUsed d' b = (blockUsed d b && !decide (b ∈ L))) :
    freeBlocks d' = freeBlocks d + L.length := by
  refine (freeBlocks_taken hn (fun b hb => ⟨(hL b hb).1, ?_⟩) fun b hb => ?_).symm
  · rw [h b (hL b hb).1, decide_eq_true hb]
    exact Bool.and_false _
  · rw [h b hb]
    by_cases hm : b ∈ L
    · rw [(hL b hm).2, decide_eq_true hm]
      rfl
    · rw [decide_eq_false hm, Bool.not_false, Bool.and_true, Bool.or_false]

theorem freeInodes_freed {d d' : Disk} (hi : IsInode i) (hu : inodeUsed d i = true)
    (h : ∀ j, IsInode j → inodeUsed d' j = (inodeUsed d j && !decide (j = i))) :
    freeInodes d' = freeInodes d + 1 := by
  refine (freeInodes_taken hi ?_ fun j hj => ?_).symm
  · rw [h i hi, decide_eq_true rfl]
    exact Bool.and_false _
  · rw [h j hj]
    by_cases hj' : j = i
    · rw [hj', hu, decide_eq_true rfl]
      rfl
    · rw [decide_eq_false hj', Bool.not_false, Bool.and_true, Bool.or_false]

theorem toNat_sub_length {v : UInt32} {n : Nat} (hn : n ≤ v.toNat) :
    (v - UInt32.ofNat n).toNat = v.toNat - n := by
  have hof : (UInt32.ofNat n).toNat = n := UInt32.toNat_ofNat_of_lt' (hn.trans_lt v.toNat_lt)
  rw [UInt32.toNat_sub_of_le _ _ (UInt32.le_iff_toNat_le.mpr (by rw [hof]; exact hn)), hof]

theorem toNat_add_length {v : UInt32} {n : Nat} (hn : v.toNat + n < 4294967296) :
    (v + UInt32.ofNat n).toNat = v.toNat + n := by
  have hlt : n < 4294967296 := by omega
  have hof : (UInt32.ofNat n).toNat = n := UInt32.toNat_ofNat_of_lt' hlt
  rw [UInt32.toNat_add, hof]
  exact Nat.mod_eq_of_lt hn

theorem Ledger.grab (h : Ledger fs) (hg : Grab fs fs' L) : Ledger fs' := by
  have hb := freeBlocks_taken hg.nodup (fun b hb => ⟨(hg.data b hb).1, hg.fresh b hb⟩) hg.used
  have hi : freeInodes fs'.disk = freeInodes fs.disk :=
    congrArg Finset.card (Finset.filter_congr fun x hx => by
      rw [hg.inodeUsed_eq ⟨by omega, by have := Finset.mem_range.mp hx; omega⟩])
  have hblocks := h.blocks
  constructor
  · rw [hg.super]
    dsimp only
    rw [toNat_sub_length (by omega)]
    omega
  · rw [hg.super, hi]
    exact h.inodes

theorem Ledger.took (h : Ledger fs) {dir : Bool} (ht : Took fs fs' i L X dir) : Ledger fs' := by
  have hb := freeBlocks_taken ht.nodup (fun b hb => ⟨(ht.data b hb).1, ht.fresh b hb⟩) ht.blocks
  have hi := freeInodes_taken ht.isInode ht.freshInode ht.inodes
  have hblocks := h.blocks
  have hinodes := h.inodes
  constructor
  · rw [ht.super]
    dsimp only
    rw [toNat_sub_length (by omega)]
    omega
  · rw [ht.super]
    dsimp only
    rw [show (1 : UInt32) = UInt32.ofNat 1 from rfl, toNat_sub_length (by omega)]
    omega

theorem Ledger.freed (h : Ledger fs) (hf : Freed fs fs' i L X) (hi : IsInode i)
    (hu : inodeUsed fs.disk i = true) (hn : L.Nodup)
    (hL : ∀ b ∈ L, b < 2048 ∧ blockUsed fs.disk b = true) : Ledger fs' := by
  have hb := freeBlocks_freed hn hL hf.blocks
  have hj := freeInodes_freed hi hu hf.inodes
  have hblocks := h.blocks
  have hinodes := h.inodes
  have hle := freeBlocks_le fs'.disk
  have hle' := freeInodes_le fs'.disk
  constructor
  · rw [hf.super]
    dsimp only
    rw [toNat_add_length (by omega)]
    omega
  · rw [hf.super]
    dsimp only
    rw [show (1 : UInt32) = UInt32.ofNat 1 from rfl, toNat_add_length (by omega)]
    omega

/-! ## Calls -/

theorem Ledger.write {request : EXT2DriverRequest} (h : Ledger fs) (hc : Consistent fs)
    (h896 : request.parentInode.toNat ≤ 896) : Ledger (write request fs).2 := by
  by_cases h0 : request.parentInode.toNat = 0
  · rw [write_parent_zero h0]
    exact h
  have hp : IsInode request.parentInode.toNat := ⟨by omega, h896⟩
  have hw := write_cases request hc.ready hc.freeSlot hp fun hd => hc.parentOk hp hd
  generalize LossOs.Ext2.write request fs = res at hw ⊢
  obtain ⟨code, fs'⟩ := res
  dsimp only at hw ⊢
  cases hw with
  | notDir => exact h
  | duplicate => exact h
  | noInode => exact h
  | noBlock => exact h
  | halfGrown nb _ _ hgrab => exact h.grab hgrab
  | hole b r _ _ _ hhole => exact h.took hhole.took
  | grow nb _ _ _ _ hgrow => exact h.took hgrow.took

theorem Ledger.delete {request : EXT2DriverRequest} (h : Ledger fs) (hn : Linked fs)
    (hok : Within (.delete request) fs) : Ledger (delete request fs).2 := by
  have h896 : request.parentInode.toNat ≤ 896 := hok.parent
  by_cases h0 : request.parentInode.toNat = 0
  · rw [delete_parent_zero h0]
    exact h
  have hp : IsInode request.parentInode.toNat := ⟨by omega, h896⟩
  have hc := hn.consistent
  rcases delete_freed hc.ready.layout hp fun hd => hc.parentOk hp hd with
    ⟨-, he⟩ | ⟨h0, -, b, e, hfirst, -, -, hfreed⟩
  · rw [he]
    exact h
  rcases hn.delete hok with ⟨hne, -⟩ | ⟨-, -, e', hfirst', hi, hu, -, hsize, -⟩
  · exact absurd h0 hne
  obtain rfl : e = e' := Option.some.inj (hfirst.symm.trans hfirst')
  have hsub := fileBlocks_reach hsize
  have hdata := fun c hc' => hc.owned.data e.inode hi hu c (hsub.subset hc')
  exact h.freed (hfreed hi fun c hc' => (hdata c hc').1) hi hu
    ((hc.owned.nodup e.inode hi hu).sublist hsub) fun c hc' => ⟨(hdata c hc').1.1, (hdata c hc').2⟩

theorem Ledger.run {c : Call} (h : Ledger fs) (hn : Linked fs) (hok : Within c fs) :
    Ledger (c.run fs).2 := by
  cases c with
  | write request => exact h.write hn.consistent hok.parent
  | delete request => exact h.delete hn hok

theorem Ledger.withStack (h : Ledger fs) (s : Mem) : Ledger (fs.withStack s) :=
  ⟨h.blocks, h.inodes⟩

end Totals

/-! ## From the start -/

theorem freeBlocksTotal_new {fs : Fs} (h : ∀ g < 8, fs.bgdtCache g = newDescriptor g) :
    freeBlocksTotal fs = 1900 ∧ freeInodesTotal fs = 895 := by
  have hsum : ∀ f : EXT2BlockGroupDescriptor → Nat,
      ∑ g ∈ Finset.range 8, f (fs.bgdtCache g) = ∑ g ∈ Finset.range 8, f (newDescriptor g) :=
    fun f => Finset.sum_congr rfl fun g hg => congrArg f (h g (Finset.mem_range.mp hg))
  unfold freeBlocksTotal freeInodesTotal
  rw [hsum fun d => d.bgFreeBlocksCount.toNat, hsum fun d => d.bgFreeInodesCount.toNat]
  decide

/-- On every disk without the signature the totals of blocks differ right after
    `initialize_filesystem_ext2`, and they differ by the same number in every state that calls
    lead to which keep to the pointers and blocks there are. -/
theorem totals_differ {fs₀ : Fs} (hempty : isEmptyStorage fs₀ = true)
    (hcache : (fs₀.bgdtCache 0).bgBlockBitmap = 0) :
    ¬ TotalsMatch (initializeFilesystemExt2 fs₀) ∧
      (Blank fs₀ → ∀ fs, Run Within (initializeFilesystemExt2 fs₀) fs →
        fs.superBlock.sFreeBlocksCount.toNat = freeBlocksTotal fs + 6144 ∧
          fs.superBlock.sFreeInodesCount.toNat = freeInodesTotal fs) := by
  obtain ⟨-, hsuper, hdesc⟩ := mounted_new hempty hcache
  obtain ⟨hblocks, hinodes⟩ := freeBlocksTotal_new hdesc
  refine ⟨fun h => ?_, fun hblank fs hrun => ?_⟩
  · have := h.blocks
    rw [hsuper, hblocks] at this
    exact absurd this (by decide)
  · have hfresh : IsFresh (initializeFilesystemExt2 fs₀) := ⟨fs₀, hblank, rfl⟩
    have hform := hfresh.formatted
    have hcnt := hform.counters
    have hstart : Ledger (initializeFilesystemExt2 fs₀) := by
      constructor
      · rw [← hcnt.freeBlocksTotal, hsuper, hblocks]
        decide
      · rw [← hcnt.freeInodesTotal, hsuper, hinodes]
        decide
    obtain ⟨hn, hl⟩ := hrun.invariant (I := fun fs => Linked fs ∧ Ledger fs)
      (fun _ s h => ⟨h.1.withStack s, h.2.withStack s⟩)
      (fun _ _ h hok => ⟨h.1.run hok, h.2.run h.1 hok⟩) ⟨hform.named.linked, hstart⟩
    have hcnt' := hn.consistent.ready.counters
    rw [hcnt'.freeBlocksTotal, hcnt'.freeInodesTotal]
    exact ⟨hl.blocks, hl.inodes⟩

theorem totals_differ_blank :
    ¬ TotalsMatch freshFs ∧ (Blank blankFs → ∀ fs, Run Within freshFs fs →
      fs.superBlock.sFreeBlocksCount.toNat = freeBlocksTotal fs + 6144 ∧
        fs.superBlock.sFreeInodesCount.toNat = freeInodesTotal fs) :=
  totals_differ blank_blankFs.empty blank_blankFs.cache

/-- On a disk of zeros 8044 blocks are counted as free, and 1900 are. -/
theorem totals_not_match : isEmptyStorage blankFs = true ∧
    freshFs.superBlock.sFreeBlocksCount = 8044 ∧ freeBlocksTotal freshFs = 1900 ∧
    ¬ TotalsMatch freshFs := by
  obtain ⟨-, hsuper, hdesc⟩ := mounted_new blank_blankFs.empty blank_blankFs.cache
  have hsb : freshFs.superBlock.sFreeBlocksCount = 8044 :=
    (congrArg EXT2Superblock.sFreeBlocksCount hsuper).trans (by decide)
  have htotal := (freeBlocksTotal_new hdesc).1
  refine ⟨blank_blankFs.empty, hsb, htotal, fun h => ?_⟩
  have := h.blocks
  rw [hsb, show freeBlocksTotal freshFs = 1900 from htotal] at this
  exact absurd this (by decide)

end LossOs.Ext2
