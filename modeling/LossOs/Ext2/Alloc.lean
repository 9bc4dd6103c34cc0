/-
  What the two searches do: `searchBlock` (a block) and `allocateNode` (an inode).

  `Grab fs fs' L`: `fs'` is `fs` after the blocks `L` have been taken, and whatever was
  written into them. The relation composes (`Grab.trans`), so a loop that takes blocks is
  one `Grab` of all of them. `GrabInode` is the same for one inode. Both keep a state
  `Ready`.
-/
import LossOs.Ext2.Layout

namespace LossOs.Ext2

open LossOs.Lib

/-! ## `sync_metadata` -/

@[simp] theorem syncMetadata_bgdtCache (fs : Fs) : (syncMetadata fs).bgdtCache = fs.bgdtCache :=
  rfl

@[simp] theorem syncMetadata_superBlock (fs : Fs) :
    (syncMetadata fs).superBlock = fs.superBlock := rfl

@[simp] theorem syncMetadata_stack (fs : Fs) : (syncMetadata fs).stack = fs.stack := rfl

theorem syncMetadata_disk {fs : Fs} {n : Nat} (h1 : n ≠ 1) (h2 : n ≠ 2) :
    (syncMetadata fs).disk n = fs.disk n := by
  unfold syncMetadata
  simp only [writeBlocks_disk]
  rw [Function.update_of_ne h2, Function.update_of_ne h1]

theorem bitmapAt_ne (g : Nat) : (blockBitmapAt g ≠ 1 ∧ blockBitmapAt g ≠ 2) ∧
    inodeBitmapAt g ≠ 1 ∧ inodeBitmapAt g ≠ 2 := by
  unfold blockBitmapAt inodeBitmapAt
  split <;> omega

/-! ## Taking blocks -/

/-- No block is free from group `g` on. -/
def Exhausted (d : Disk) (g : Nat) : Prop :=
  ∀ b < 2048, 256 * g ≤ b → blockUsed d b = true

/-- `fs'` is `fs` after the free data blocks `L` have been taken and written. -/
structure Grab (fs fs' : Fs) (L : List Nat) : Prop where
  nodup : L.Nodup
  data : ∀ b ∈ L, IsData b
  fresh : ∀ b ∈ L, blockUsed fs.disk b = false
  used : ∀ b < 2048, blockUsed fs'.disk b = (blockUsed fs.disk b || decide (b ∈ L))
  frame : ∀ n, n ∉ L → (∀ g < 8, n ≠ blockBitmapAt g) → n ≠ 1 → n ≠ 2 →
    fs'.disk n = fs.disk n
  tail : ∀ g < 8, ∀ o, 32 ≤ o →
    (fs'.disk (blockBitmapAt g)).mem o = (fs.disk (blockBitmapAt g)).mem o
  desc : ∀ g, fs'.bgdtCache g =
    { fs.bgdtCache g with bgFreeBlocksCount := (fs'.bgdtCache g).bgFreeBlocksCount }
  super : fs'.superBlock = { fs.superBlock with
    sFreeBlocksCount := fs.superBlock.sFreeBlocksCount - UInt32.ofNat L.length }
  stack : fs'.stack = fs.stack
  counters : Counters fs → Counters fs'

theorem Grab.refl (fs : Fs) : Grab fs fs [] where
  nodup := List.nodup_nil
  data := by simp
  fresh := by simp
  used := by simp
  frame := fun _ _ _ _ _ => rfl
  tail := fun _ _ _ _ => rfl
  desc := fun _ => rfl
  super := by simp
  stack := rfl
  counters := id

theorem Grab.trans {fs fs₁ fs₂ : Fs} {L M : List Nat} (h : Grab fs fs₁ L) (h' : Grab fs₁ fs₂ M) :
    Grab fs fs₂ (L ++ M) := by
  have hdisj : ∀ b ∈ L, b ∉ M := by
    intro b hL hM
    have h1 := h'.fresh b hM
    rw [h.used b (h.data b hL).1] at h1
    simp [hL] at h1
  refine ⟨?_, ?_, ?_, ?_, ?_, ?_, ?_, ?_, ?_, ?_⟩
  · exact List.nodup_append.mpr ⟨h.nodup, h'.nodup, fun a ha b hb hab => hdisj a ha (hab ▸ hb)⟩
  · intro b hb
    exact (List.mem_append.mp hb).elim (h.data b) (h'.data b)
  · intro b hb
    rcases List.mem_append.mp hb with hL | hM
    · exact h.fresh b hL
    · have h1 := h'.fresh b hM
      rw [h.used b (h'.data b hM).1, Bool.or_eq_false_iff] at h1
      exact h1.1
  · intro b hb
    rw [h'.used b hb, h.used b hb]
    simp [Bool.or_assoc]
  · intro n hn hg h1 h2
    rw [List.mem_append, not_or] at hn
    rw [h'.frame n hn.2 hg h1 h2, h.frame n hn.1 hg h1 h2]
  · intro g hg o ho
    rw [h'.tail g hg o ho, h.tail g hg o ho]
  · intro g
    rw [h'.desc g, h.desc g]
  · rw [h'.super, h.super]
    have : ∀ x y z : UInt32, x - y - z = x - (y + z) := fun x y z => by grind
    rw [List.length_append, UInt32.ofNat_add, this]
  · rw [h'.stack, h.stack]
  · exact fun hc => h'.counters (h.counters hc)

/-- Writing into a block that was taken. -/
theorem Grab.writeBlocks {fs fs' : Fs} {L : List Nat} (h : Grab fs fs' L) {b : Nat} (hb : b ∈ L)
    (buf : Mem) : Grab fs (fs'.writeBlocks b buf) L := by
  have hd := h.data b hb
  refine ⟨h.nodup, h.data, h.fresh, ?_, ?_, ?_, h.desc, h.super, h.stack, fun hc => ?_⟩
  · intro n hn
    rw [writeBlocks_disk, blockUsed_update hd.ne_blockBitmapAt, h.used n hn]
  · intro n hn hg h1 h2
    have hne : n ≠ b := fun hc => hn (hc ▸ hb)
    rw [writeBlocks_disk, Function.update_of_ne hne, h.frame n hn hg h1 h2]
  · intro g hg o ho
    rw [writeBlocks_disk, Function.update_of_ne (hd.ne_blockBitmapAt g).symm, h.tail g hg o ho]
  · have hc' := h.counters hc
    refine ⟨fun g hg => ?_, fun g hg => ?_⟩
    · rw [writeBlocks_disk, freeBlocksOf_update hd.ne_blockBitmapAt]
      exact hc'.blocks g hg
    · rw [writeBlocks_disk, freeInodesOf_update hd.ne_inodeBitmapAt]
      exact hc'.inodes g hg

theorem Grab.sync {fs fs' : Fs} {L : List Nat} (h : Grab fs fs' L) :
    Grab fs (syncMetadata fs') L := by
  have e : ∀ g, (syncMetadata fs').disk (blockBitmapAt g) = fs'.disk (blockBitmapAt g) :=
    fun g => syncMetadata_disk (bitmapAt_ne g).1.1 (bitmapAt_ne g).1.2
  have e' : ∀ g, (syncMetadata fs').disk (inodeBitmapAt g) = fs'.disk (inodeBitmapAt g) :=
    fun g => syncMetadata_disk (bitmapAt_ne g).2.1 (bitmapAt_ne g).2.2
  refine ⟨h.nodup, h.data, h.fresh, ?_, ?_, ?_, h.desc, h.super, h.stack, fun hc => ?_⟩
  · intro b hb
    rw [← h.used b hb]
    unfold blockUsed
    rw [e]
  · intro n hn hg h1 h2
    rw [syncMetadata_disk h1 h2, h.frame n hn hg h1 h2]
  · intro g hg o ho
    rw [e, h.tail g hg o ho]
  · have hc' := h.counters hc
    refine ⟨fun g hg => ?_, fun g hg => ?_⟩
    · rw [syncMetadata_bgdtCache, hc'.blocks g hg]
      unfold freeBlocksOf
      rw [e]
    · rw [syncMetadata_bgdtCache, hc'.inodes g hg]
      unfold freeInodesOf
      rw [e']

section Kept

variable {fs fs' : Fs} {L : List Nat}

theorem Grab.layout (h : Grab fs fs' L) (hl : Layout fs) : Layout fs' where
  blockBitmap := fun g hg => by rw [h.desc g]; exact hl.blockBitmap g hg
  inodeBitmap := fun g hg => by rw [h.desc g]; exact hl.inodeBitmap g hg
  inodeTable := fun g hg => by rw [h.desc g]; exact hl.inodeTable g hg

theorem Grab.ready (h : Grab fs fs' L) (hr : Ready fs) : Ready fs' where
  layout := h.layout hr.layout
  counters := h.counters hr.counters
  metaUsed := fun b hb => by rw [h.used b hb.1, hr.metaUsed b hb]; rfl

theorem Grab.inodeUsed_eq (h : Grab fs fs' L) {i : Nat} (hi : IsInode i) :
    inodeUsed fs'.disk i = inodeUsed fs.disk i := by
  have hg := inodeToBgd_lt hi
  unfold inodeUsed
  rw [h.frame _ (fun hc => (h.data _ hc).ne_inodeBitmapAt _ rfl)
    (fun g _ => (blockBitmapAt_ne_inodeBitmapAt g _).symm) (bitmapAt_ne _).2.1 (bitmapAt_ne _).2.2]

theorem inodeBlockAt_ge (i : Nat) : 5 ≤ inodeBlockAt i := by
  have hm := inodeBlockAt_mem i
  unfold inodeTableAt at hm
  split at hm <;> omega

theorem inodeBlockAt_ne (i : Nat) : inodeBlockAt i ≠ 1 ∧ inodeBlockAt i ≠ 2 := by
  have := inodeBlockAt_ge i
  omega

theorem Grab.table_eq (h : Grab fs fs' L) (i : Nat) :
    fs'.disk (inodeBlockAt i) = fs.disk (inodeBlockAt i) :=
  h.frame _ (fun hc => (h.data _ hc).ne_inodeBlockAt i rfl)
    (fun g _ => (blockBitmapAt_ne_inodeBlockAt g i).symm) (inodeBlockAt_ne i).1
    (inodeBlockAt_ne i).2

theorem Grab.slot_eq (h : Grab fs fs' L) (i : Nat) :
    slot fs'.disk i = slot fs.disk i := slot_congr (h.table_eq i)

/-- A data block that was in use is as it was. -/
theorem Grab.data_eq (h : Grab fs fs' L) {b : Nat} (hb : IsData b) (hL : b ∉ L) :
    fs'.disk b = fs.disk b :=
  h.frame b hL (fun g _ => hb.ne_blockBitmapAt g) (by have := hb.2.1; omega)
    (by have := hb.2.1; omega)

theorem Grab.not_mem_of_used (h : Grab fs fs' L) {b : Nat} (hu : blockUsed fs.disk b = true) :
    b ∉ L := fun hc => by rw [h.fresh b hc] at hu; cases hu

theorem Grab.used_mono (h : Grab fs fs' L) {b : Nat} (hb : b < 2048)
    (hu : blockUsed fs.disk b = true) : blockUsed fs'.disk b = true := by
  rw [h.used b hb, hu]; rfl

theorem Grab.used_of_mem (h : Grab fs fs' L) {b : Nat} (hb : b ∈ L) :
    blockUsed fs'.disk b = true := by
  rw [h.used b (h.data b hb).1]
  simp [hb]

theorem Exhausted.grab {g : Nat} (he : Exhausted fs.disk g) (h : Grab fs fs' L) :
    Exhausted fs'.disk g := fun b hb hg => h.used_mono hb (he b hb hg)

end Kept

/-! ## The block search -/

theorem bit_blockOf {buf : Mem} {j : Nat} (h : j < 4096) : bit (blockOf buf).mem j = bit buf j :=
  bit_congr (mem_blockOf (by omega))

theorem bit_readBlocks {fs : Fs} {n j : Nat} (h : j < 4096) :
    bit (fs.readBlocks n) j = bit (fs.disk n).mem j :=
  bit_congr (readBlocks_of_lt _ _ (by omega))

theorem UInt16.toNat_pred {x : UInt16} (h : 0 < x.toNat) : (x - 1).toNat = x.toNat - 1 := by
  have : (1 : UInt16) ≤ x := UInt16.le_iff_toNat_le.mpr h
  rw [UInt16.toNat_sub_of_le _ _ this]; rfl

theorem UInt16.toNat_succ {x : UInt16} (h : x.toNat < 65535) : (x + 1).toNat = x.toNat + 1 := by
  rw [UInt16.toNat_add]
  exact Nat.mod_eq_of_lt (by simp; omega)

/-- A byte that the buffer has from the block stays when it is stored. -/
theorem blockOf_kept {b : Block} {buf : Mem} {o : Nat} (h : o < 512 → buf o = b.mem o) :
    (blockOf buf).mem o = b.mem o := by
  by_cases ho : o < 512
  · rw [mem_blockOf ho, h ho]
  · unfold Block.mem
    rw [dif_neg ho, dif_neg ho]

theorem setBit_kept (fs : Fs) (n : Nat) {idx o : Nat} (h : idx / 8 < o) :
    (blockOf (setBit (fs.readBlocks n) idx)).mem o = (fs.disk n).mem o :=
  blockOf_kept fun ho => by rw [setBit_of_ne (by omega), readBlocks_of_lt _ _ ho]

section Bitmap

variable {d : Disk} {g g' b : Nat} {c : Block}

theorem blockBitmap_update_of_ne (h : g' ≠ g) :
    Function.update d (blockBitmapAt g) c (blockBitmapAt g') = d (blockBitmapAt g') :=
  Function.update_of_ne (fun hc => h (blockBitmapAt_inj hc)) _ _

theorem blockUsed_update_of_ne (h : b / 256 ≠ g) :
    blockUsed (Function.update d (blockBitmapAt g) c) b = blockUsed d b := by
  unfold blockUsed
  rw [blockBitmap_update_of_ne h]

theorem freeBlocksOf_update_of_ne (h : g' ≠ g) :
    freeBlocksOf (Function.update d (blockBitmapAt g) c) g' = freeBlocksOf d g' := by
  unfold freeBlocksOf
  rw [blockBitmap_update_of_ne h]

end Bitmap

section TakeBit

variable {fs : Fs} {g idx : Nat}

theorem takeBit_disk (hl : Layout fs) (hg : g < 8) (idx : Nat) (bmp : Mem) :
    (takeBit g idx bmp fs).disk =
      Function.update fs.disk (blockBitmapAt g) (blockOf (setBit bmp idx)) := by
  unfold takeBit
  simp only [modifyDesc_disk, writeBlocks_disk]
  rw [hl.blockBitmap g hg]

theorem takeBit_bgdtCache (fs : Fs) (g idx g' : Nat) (bmp : Mem) :
    (takeBit g idx bmp fs).bgdtCache g' = if g' = g then
      { fs.bgdtCache g with bgFreeBlocksCount := (fs.bgdtCache g).bgFreeBlocksCount - 1 }
      else fs.bgdtCache g' := by
  unfold takeBit
  by_cases h : g' = g
  · subst h
    simp [modifyDesc_same]
  · simp [modifyDesc_of_ne h, h]

theorem takeBit_used (hl : Layout fs) (hg : g < 8) (hi : idx < 256) (b : Nat) :
    blockUsed (takeBit g idx (fs.readBlocks (blockBitmapAt g)) fs).disk b =
      (blockUsed fs.disk b || decide (b = g * 256 + idx)) := by
  rw [takeBit_disk hl hg]
  by_cases h : b / 256 = g
  · unfold blockUsed
    rw [h, Function.update_self, bit_blockOf (by omega), bit_setBit, bit_readBlocks (by omega),
      Bool.or_comm]
    congr 1
    simp only [decide_eq_decide]
    omega
  · have hne : b ≠ g * 256 + idx := fun hc => h (by omega)
    rw [blockUsed_update_of_ne h]
    simp [hne]

/-- The group has one free block less. -/
theorem takeBit_free (hl : Layout fs) (hg : g < 8) (hi : idx < 256)
    (hf : bit (fs.disk (blockBitmapAt g)).mem idx = false) :
    freeBlocksOf (takeBit g idx (fs.readBlocks (blockBitmapAt g)) fs).disk g + 1 =
      freeBlocksOf fs.disk g := by
  rw [takeBit_disk hl hg]
  unfold freeBlocksOf
  rw [Function.update_self, clearCount_congr fun i hi => bit_blockOf (by omega),
    clearCount_setBit hi (by rw [bit_readBlocks (by omega)]; exact hf)]
  exact clearCount_congr fun i hi => bit_readBlocks (by omega)

theorem takeBit_counters (hl : Layout fs) (hg : g < 8) (hi : idx < 256)
    (hf : bit (fs.disk (blockBitmapAt g)).mem idx = false) (hc : Counters fs) :
    Counters (takeBit g idx (fs.readBlocks (blockBitmapAt g)) fs) := by
  have hpos : 0 < freeBlocksOf fs.disk g := clearCount_pos hi hf
  have hfree := takeBit_free hl hg hi hf
  refine ⟨fun g' hg' => ?_, fun g' hg' => ?_⟩
  · rw [takeBit_bgdtCache]
    by_cases h : g' = g
    · subst h
      have := hc.blocks g' hg'
      rw [if_pos rfl]
      dsimp only
      rw [UInt16.toNat_pred (by omega)]
      omega
    · rw [if_neg h, hc.blocks g' hg', takeBit_disk hl hg, freeBlocksOf_update_of_ne h]
  · rw [takeBit_bgdtCache, takeBit_disk hl hg,
      freeInodesOf_update (fun g'' => blockBitmapAt_ne_inodeBitmapAt g g''), ← hc.inodes g' hg']
    by_cases h : g' = g
    · subst h; simp
    · simp [h]

/-- Marking a free bit takes one block. -/
theorem takeBit_grab (hr : Ready fs) (hg : g < 8) (hi : idx < 256)
    (hf : bit (fs.disk (blockBitmapAt g)).mem idx = false) :
    Grab fs (takeBit g idx (fs.readBlocks (fs.bgdtCache g).bgBlockBitmap.toNat) fs)
      [g * 256 + idx] := by
  have hl := hr.layout
  have hfree : blockUsed fs.disk (g * 256 + idx) = false := by
    unfold blockUsed
    rw [show (g * 256 + idx) / 256 = g by omega, show (g * 256 + idx) % 256 = idx by omega]
    exact hf
  rw [hl.blockBitmap g hg]
  refine ⟨List.nodup_singleton _, ?_, ?_, ?_, ?_, ?_, ?_, rfl, rfl, takeBit_counters hl hg hi hf⟩
  · intro b hb
    rw [List.mem_singleton.mp hb]
    exact hr.isData_of_free (by omega) hfree
  · intro b hb
    rw [List.mem_singleton.mp hb]; exact hfree
  · intro b _
    rw [takeBit_used hl hg hi]
    simp only [List.mem_singleton]
  · intro n _ hgn _ _
    rw [takeBit_disk hl hg, Function.update_of_ne (hgn g hg)]
  · intro g' _ o ho
    rw [takeBit_disk hl hg]
    by_cases h : g' = g
    · subst h
      rw [Function.update_self, setBit_kept _ _ (by omega)]
    · rw [blockBitmap_update_of_ne h]
  · intro g'
    rw [takeBit_bgdtCache]
    by_cases h : g' = g
    · subst h; simp
    · simp [h]

end TakeBit

/-- The search hands out the first free block from group `pref` on, or there is none. -/
theorem searchBlock_spec {fs : Fs} (hr : Ready fs) (pref : Nat) :
    (searchBlock pref fs = none ∧ Exhausted fs.disk pref) ∨
    ∃ b fs', searchBlock pref fs = some (b, fs') ∧ 256 * pref ≤ b ∧ Grab fs fs' [b] ∧
      ∀ c < b, 256 * pref ≤ c → blockUsed fs.disk c = true := by
  -- a group without a hit is full
  have hfull : ∀ bg, bg < 8 →
      (if (fs.bgdtCache bg).bgFreeBlocksCount > 0 then
        let bmp := fs.readBlocks (fs.bgdtCache bg).bgBlockBitmap.toNat
        (firstClear bmp 256).map fun idx => (bg * 256 + idx, takeBit bg idx bmp fs)
      else none) = none → ∀ b, b / 256 = bg → blockUsed fs.disk b = true := by
    intro bg hbg hn b hb
    have hcnt := hr.counters.blocks bg hbg
    by_contra hu
    have hclear : bit (fs.disk (blockBitmapAt bg)).mem (b % 256) = false := by
      rw [← hb]; simpa [blockUsed] using hu
    have hpos := clearCount_pos (n := 256) (Nat.mod_lt _ (by decide)) hclear
    have hgt : (fs.bgdtCache bg).bgFreeBlocksCount > 0 := by
      rw [gt_iff_lt, UInt16.lt_iff_toNat_lt, hcnt]; exact hpos
    rw [if_pos hgt] at hn
    have := firstClear_eq_none (Option.map_eq_none_iff.mp hn) (b % 256)
      (Nat.mod_lt _ (by decide)) (by omega)
    rw [hr.layout.blockBitmap bg hbg, bit_readBlocks (by omega), hclear] at this
    cases this
  cases hs : searchBlock pref fs with
  | none =>
      refine Or.inl ⟨rfl, fun b hb hg => hfull (b / 256) (by omega) ?_ b rfl⟩
      exact List.findSome?_eq_none_iff.mp hs (b / 256) (by simp; omega)
  | some r =>
      obtain ⟨b, fs'⟩ := r
      obtain ⟨bg, hge, hlt, hhit, hpre⟩ := findSome?_range'_eq_some hs
      have hbg : bg < 8 := by omega
      split at hhit
      · obtain ⟨idx, hidx, heq⟩ := Option.map_eq_some_iff.mp hhit
        obtain ⟨h256, -, hclear, hlow⟩ := firstClear_eq_some hidx
        rw [hr.layout.blockBitmap bg hbg, bit_readBlocks (by omega)] at hclear
        simp only [Prod.mk.injEq] at heq
        obtain ⟨rfl, rfl⟩ := heq
        refine Or.inr ⟨_, _, rfl, by omega, takeBit_grab hr hbg h256 hclear, fun c hc hge' => ?_⟩
        by_cases hsame : c / 256 = bg
        · have := hlow (c % 256) (by omega)
          rw [hr.layout.blockBitmap bg hbg, bit_readBlocks (by omega)] at this
          unfold blockUsed; rw [hsame]; exact this
        · exact hfull (c / 256) (by omega) (hpre _ (by omega) (by omega)) c rfl
      · cases hhit

/-! ## The inode search -/

/-- `fs'` is `fs` after the free inode `i`, the first one, has been taken. -/
structure GrabInode (fs fs' : Fs) (i : Nat) : Prop where
  isInode : IsInode i
  fresh : inodeUsed fs.disk i = false
  first : ∀ j, IsInode j → j < i → inodeUsed fs.disk j = true
  used : ∀ j, IsInode j → inodeUsed fs'.disk j = (inodeUsed fs.disk j || decide (j = i))
  frame : ∀ n, n ≠ inodeBitmapAt (inodeToBgd i) → n ≠ 1 → n ≠ 2 → fs'.disk n = fs.disk n
  tail : ∀ o, 14 ≤ o → (fs'.disk (inodeBitmapAt (inodeToBgd i))).mem o =
    (fs.disk (inodeBitmapAt (inodeToBgd i))).mem o
  desc : ∀ g, fs'.bgdtCache g =
    { fs.bgdtCache g with bgFreeInodesCount := (fs'.bgdtCache g).bgFreeInodesCount }
  super : fs'.superBlock = { fs.superBlock with
    sFreeInodesCount := fs.superBlock.sFreeInodesCount - 1 }
  stack : fs'.stack = fs.stack
  counters : Counters fs → Counters fs'

section Kept

variable {fs fs' : Fs} {i : Nat}

theorem GrabInode.ne_zero (h : GrabInode fs fs' i) : i ≠ 0 := by
  have := h.isInode.1; omega

theorem GrabInode.layout (h : GrabInode fs fs' i) (hl : Layout fs) : Layout fs' where
  blockBitmap := fun g hg => by rw [h.desc g]; exact hl.blockBitmap g hg
  inodeBitmap := fun g hg => by rw [h.desc g]; exact hl.inodeBitmap g hg
  inodeTable := fun g hg => by rw [h.desc g]; exact hl.inodeTable g hg

theorem GrabInode.blockBitmap_eq (h : GrabInode fs fs' i) (g : Nat) :
    fs'.disk (blockBitmapAt g) = fs.disk (blockBitmapAt g) := by
  exact h.frame _ (blockBitmapAt_ne_inodeBitmapAt g _) (bitmapAt_ne g).1.1 (bitmapAt_ne g).1.2

theorem GrabInode.blockUsed_eq (h : GrabInode fs fs' i) (b : Nat) :
    blockUsed fs'.disk b = blockUsed fs.disk b := by
  unfold blockUsed; rw [h.blockBitmap_eq]

theorem GrabInode.ready (h : GrabInode fs fs' i) (hr : Ready fs) : Ready fs' where
  layout := h.layout hr.layout
  counters := h.counters hr.counters
  metaUsed := fun b hb => by rw [h.blockUsed_eq]; exact hr.metaUsed b hb

theorem GrabInode.table_eq (h : GrabInode fs fs' i) (j : Nat) :
    fs'.disk (inodeBlockAt j) = fs.disk (inodeBlockAt j) := by
  have := inodeBlockAt_ge j
  exact h.frame _ (inodeBitmapAt_ne_inodeBlockAt _ j).symm (by omega) (by omega)

theorem GrabInode.slot_eq (h : GrabInode fs fs' i) (j : Nat) :
    slot fs'.disk j = slot fs.disk j := slot_congr (h.table_eq j)

theorem GrabInode.data_eq (h : GrabInode fs fs' i) {b : Nat} (hb : IsData b) :
    fs'.disk b = fs.disk b :=
  h.frame b (hb.ne_inodeBitmapAt _) (by have := hb.2.1; omega) (by have := hb.2.1; omega)

end Kept

theorem inode_of_bit {g idx : Nat} (hg : g < 8) (hi : idx < 112) :
    IsInode (g * 112 + idx + 1) ∧ inodeToBgd (g * 112 + idx + 1) = g ∧
      inodeToLocal (g * 112 + idx + 1) = idx := by
  unfold IsInode inodeToBgd inodeToLocal
  refine ⟨⟨by omega, by omega⟩, ?_, ?_⟩
  · rw [if_neg (by omega)]; omega
  · rw [if_neg (by omega)]; omega

theorem inode_eq_of_bit {i : Nat} (hi : IsInode i) :
    i = inodeToBgd i * 112 + inodeToLocal i + 1 := by
  unfold IsInode at hi
  unfold inodeToBgd inodeToLocal
  rw [if_neg (by omega), if_neg (by omega)]
  omega

theorem takeInode_bgdtCache (fs : Fs) (g idx g' : Nat) (bmp : Mem) :
    (takeInode g idx bmp fs).bgdtCache g' = if g' = g then
      { fs.bgdtCache g with bgFreeInodesCount := (fs.bgdtCache g).bgFreeInodesCount - 1 }
      else fs.bgdtCache g' := by
  unfold takeInode
  by_cases h : g' = g
  · subst h
    simp [modifyDesc_same]
  · simp [modifyDesc_of_ne h, h]

theorem takeInode_disk {fs : Fs} (hl : Layout fs) {g n : Nat} (hg : g < 8) (idx : Nat)
    (bmp : Mem) (h1 : n ≠ 1) (h2 : n ≠ 2) :
    (takeInode g idx bmp fs).disk n =
      Function.update fs.disk (inodeBitmapAt g) (blockOf (setBit bmp idx)) n := by
  unfold takeInode
  rw [syncMetadata_disk h1 h2, ← hl.inodeBitmap g hg]
  rfl

section TakeInode

variable {fs : Fs} {g idx : Nat}

theorem takeInode_other (hl : Layout fs) (hg : g < 8) (idx : Nat) (bmp : Mem) {n : Nat}
    (hn : n ≠ inodeBitmapAt g) (h1 : n ≠ 1) (h2 : n ≠ 2) :
    (takeInode g idx bmp fs).disk n = fs.disk n := by
  rw [takeInode_disk hl hg idx bmp h1 h2, Function.update_of_ne hn]

theorem takeInode_otherBitmap (hl : Layout fs) (hg : g < 8) (idx : Nat) (bmp : Mem) {g' : Nat}
    (h : g' ≠ g) : (takeInode g idx bmp fs).disk (inodeBitmapAt g') = fs.disk (inodeBitmapAt g') :=
  takeInode_other hl hg idx bmp (fun hc => h (inodeBitmapAt_inj hc)) (bitmapAt_ne g').2.1
    (bitmapAt_ne g').2.2

theorem takeInode_ownBitmap (hl : Layout fs) (hg : g < 8) (idx : Nat) (bmp : Mem) :
    (takeInode g idx bmp fs).disk (inodeBitmapAt g) = blockOf (setBit bmp idx) := by
  rw [takeInode_disk hl hg idx bmp (bitmapAt_ne g).2.1 (bitmapAt_ne g).2.2, Function.update_self]

theorem takeInode_bit (hl : Layout fs) (hg : g < 8) (idx : Nat) {j : Nat} (hj : j < 4096) :
    bit ((takeInode g idx (fs.readBlocks (inodeBitmapAt g)) fs).disk (inodeBitmapAt g)).mem j =
      (decide (j = idx) || bit (fs.disk (inodeBitmapAt g)).mem j) := by
  rw [takeInode_ownBitmap hl hg, bit_blockOf hj, bit_setBit, bit_readBlocks hj]

theorem takeInode_used (hl : Layout fs) (hg : g < 8) (hi : idx < 112) {j : Nat}
    (hj : IsInode j) :
    inodeUsed (takeInode g idx (fs.readBlocks (inodeBitmapAt g)) fs).disk j =
      (inodeUsed fs.disk j || decide (j = g * 112 + idx + 1)) := by
  have hlocal := inodeToLocal_lt j
  unfold inodeUsed
  by_cases h : inodeToBgd j = g
  · rw [h, takeInode_bit hl hg idx (by omega), Bool.or_comm]
    congr 1
    have := inode_eq_of_bit hj
    rw [h] at this
    simp only [decide_eq_decide]
    omega
  · have hne : j ≠ g * 112 + idx + 1 := fun hc => h (by rw [hc, (inode_of_bit hg hi).2.1])
    rw [takeInode_otherBitmap hl hg idx _ h]
    simp [hne]

/-- The group has one free inode less. -/
theorem takeInode_free (hl : Layout fs) (hg : g < 8) (hi : idx < 112)
    (hf : bit (fs.disk (inodeBitmapAt g)).mem idx = false) :
    freeInodesOf (takeInode g idx (fs.readBlocks (inodeBitmapAt g)) fs).disk g + 1 =
      freeInodesOf fs.disk g := by
  unfold freeInodesOf
  rw [← clearCount_setBit hi hf]
  congr 1
  exact clearCount_congr fun j hj => by rw [takeInode_bit hl hg idx (by omega), bit_setBit]

theorem takeInode_counters (hl : Layout fs) (hg : g < 8) (hi : idx < 112)
    (hf : bit (fs.disk (inodeBitmapAt g)).mem idx = false) (hc : Counters fs) :
    Counters (takeInode g idx (fs.readBlocks (inodeBitmapAt g)) fs) := by
  have hpos : 0 < freeInodesOf fs.disk g := clearCount_pos hi hf
  have hfree := takeInode_free hl hg hi hf
  refine ⟨fun g' hg' => ?_, fun g' hg' => ?_⟩
  · have := hc.blocks g' hg'
    unfold freeBlocksOf at this ⊢
    rw [takeInode_other hl hg idx _ (blockBitmapAt_ne_inodeBitmapAt g' g) (bitmapAt_ne g').1.1
      (bitmapAt_ne g').1.2, takeInode_bgdtCache]
    by_cases h : g' = g
    · subst h; simpa using this
    · simpa [h] using this
  · rw [takeInode_bgdtCache]
    by_cases h : g' = g
    · subst h
      have := hc.inodes g' hg'
      rw [if_pos rfl]
      dsimp only
      rw [UInt16.toNat_pred (by omega)]
      omega
    · rw [if_neg h, hc.inodes g' hg']
      unfold freeInodesOf
      rw [takeInode_otherBitmap hl hg idx _ h]

/-- Marking the first free inode takes it. -/
theorem takeInode_grab (hly : Layout fs) (hg : g < 8) (hi : idx < 112)
    (hf : bit (fs.disk (inodeBitmapAt g)).mem idx = false)
    (hlow : ∀ j, IsInode j → j < g * 112 + idx + 1 → inodeUsed fs.disk j = true) :
    GrabInode fs (takeInode g idx (fs.readBlocks (fs.bgdtCache g).bgInodeBitmap.toNat) fs)
      (g * 112 + idx + 1) := by
  obtain ⟨hino, hbgd, hloc⟩ := inode_of_bit hg hi
  rw [hly.inodeBitmap g hg]
  refine ⟨hino, ?_, hlow, fun j hj => takeInode_used hly hg hi hj, ?_, ?_, ?_, rfl, rfl,
    takeInode_counters hly hg hi hf⟩
  · unfold inodeUsed; rw [hbgd, hloc]; exact hf
  · intro n hn h1 h2
    rw [hbgd] at hn
    exact takeInode_other hly hg idx _ hn h1 h2
  · intro o ho
    rw [hbgd, takeInode_ownBitmap hly hg, setBit_kept _ _ (by omega)]
  · intro g'
    rw [takeInode_bgdtCache]
    by_cases h : g' = g
    · subst h; simp
    · simp [h]

end TakeInode

/-- `allocate_node` marks the first clear bit of the inode bitmaps, or there is none and nothing
    changes. It goes by the inode counters of the groups. -/
theorem allocateNode_cases {fs : Fs} (hl : Layout fs)
    (hcnt : ∀ g < 8, (fs.bgdtCache g).bgFreeInodesCount.toNat = freeInodesOf fs.disk g) :
    (allocateNode fs = (0, fs) ∧ ∀ i, IsInode i → inodeUsed fs.disk i = true) ∨
    ∃ g idx, g < 8 ∧ idx < 112 ∧ bit (fs.disk (inodeBitmapAt g)).mem idx = false ∧
      (∀ j, IsInode j → j < g * 112 + idx + 1 → inodeUsed fs.disk j = true) ∧
      allocateNode fs = (g * 112 + idx + 1,
        takeInode g idx (fs.readBlocks (fs.bgdtCache g).bgInodeBitmap.toNat) fs) := by
  unfold allocateNode
  rw [List.range_eq_range']
  -- a group without a hit is full
  have hfull : ∀ g, g < 8 →
      (if (fs.bgdtCache g).bgFreeInodesCount > 0 then
        let bmp := fs.readBlocks (fs.bgdtCache g).bgInodeBitmap.toNat
        (firstClear bmp 112).map fun idx => (g * 112 + idx + 1, takeInode g idx bmp fs)
      else none) = none → ∀ i, IsInode i → inodeToBgd i = g → inodeUsed fs.disk i = true := by
    intro g hg hn i hi hig
    have hloc := inodeToLocal_lt i
    by_contra hu
    have hclear : bit (fs.disk (inodeBitmapAt g)).mem (inodeToLocal i) = false := by
      rw [← hig]; simpa [inodeUsed] using hu
    have hpos := clearCount_pos hloc hclear
    have hgt : (fs.bgdtCache g).bgFreeInodesCount > 0 := by
      rw [gt_iff_lt, UInt16.lt_iff_toNat_lt, hcnt g hg]; exact hpos
    rw [if_pos hgt] at hn
    have := firstClear_eq_none (Option.map_eq_none_iff.mp hn) _ hloc (by omega)
    rw [hl.inodeBitmap g hg, bit_readBlocks (by omega), hclear] at this
    cases this
  generalize hs : (List.range' 0 8).findSome? _ = r
  cases r with
  | none =>
      refine Or.inl ⟨rfl, fun i hi => hfull (inodeToBgd i) (inodeToBgd_lt hi) ?_ i hi rfl⟩
      exact List.findSome?_eq_none_iff.mp hs (inodeToBgd i) (by simp; exact inodeToBgd_lt hi)
  | some r =>
      obtain ⟨g, -, hlt, hhit, hpre⟩ := findSome?_range'_eq_some hs
      have hg : g < 8 := by omega
      split at hhit
      · obtain ⟨idx, hidx, rfl⟩ := Option.map_eq_some_iff.mp hhit
        obtain ⟨h112, -, hclear, hlow⟩ := firstClear_eq_some hidx
        rw [hl.inodeBitmap g hg, bit_readBlocks (by omega)] at hclear
        refine Or.inr ⟨g, idx, hg, h112, hclear, fun j hj hlt => ?_, rfl⟩
        have hje := inode_eq_of_bit hj
        have hlj := inodeToLocal_lt j
        by_cases hsame : inodeToBgd j = g
        · have := hlow (inodeToLocal j) (by rw [hsame] at hje; omega)
          rw [hl.inodeBitmap g hg, bit_readBlocks (by omega)] at this
          unfold inodeUsed; rw [hsame]; exact this
        · exact hfull (inodeToBgd j) (inodeToBgd_lt hj) (hpre _ (by omega) (by omega)) j hj rfl
      · cases hhit

/-- `allocate_node` takes the first free inode, or there is none and nothing changes. -/
theorem allocateNode_spec {fs : Fs} (hr : Ready fs) :
    (allocateNode fs = (0, fs) ∧ ∀ i, IsInode i → inodeUsed fs.disk i = true) ∨
    ∃ i fs', allocateNode fs = (i, fs') ∧ GrabInode fs fs' i := by
  rcases allocateNode_cases hr.layout hr.counters.inodes with
    hnone | ⟨g, idx, hg, hi, hclear, hlow, he⟩
  · exact Or.inl hnone
  · exact Or.inr ⟨_, _, he, takeInode_grab hr.layout hg hi hclear hlow⟩

end LossOs.Ext2
