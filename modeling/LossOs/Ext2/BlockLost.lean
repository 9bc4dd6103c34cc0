/-
  `deallocate_block` with more than one location.

  With the second location its pointer block is read into the buffer that holds the bitmap of the
  group of the first one, and `bitmap` still points there: the pointers are what is written back as
  the bitmap of that group. In each group block 11 is one of the metadata, and the first of the
  pointers, as a number below 2048, does not have bit 11. So the bit is lost (`Doomed`), and nothing
  that the function does later brings it back: what it writes are pointers, or bitmaps that it has
  read from the disk (`withRounds_lost`).
-/
import LossOs.Ext2.BlockFree
import LossOs.Ext2.Geometry

namespace LossOs.Ext2

open LossOs.Lib

/-! ## Bit 11 -/

/-- A pointer to a block of the disk does not have it. -/
theorem bit_of_ptr {m : Mem} (h : ptr m 0 < 2048) : bit m 11 = false := by
  unfold ptr rd32 at h
  unfold bit
  apply Nat.testBit_lt_two_pow
  show (m 1).toNat < 2 ^ 3
  have h1 : (m (4 * 0 + 1)).toNat = (m 1).toNat := rfl
  omega

theorem bit_clearBit_of {m : Mem} {j : Nat} (h : bit m j = false) (i : Nat) :
    bit (clearBit m i) j = false := by
  rw [bit_clearBit, h, Bool.and_false]

theorem bit_zeroed {m : Mem} {j : Nat} (h : bit m j = false) (o : Nat) :
    bit (wr32 m o 0) j = false := by
  unfold bit wr32
  split_ifs
  · exact Nat.zero_testBit _
  · exact Nat.zero_testBit _
  · exact Nat.zero_testBit _
  · exact Nat.zero_testBit _
  · exact h

/-! ## The bitmap that is lost -/

/-- Bit 11 is not in the bitmap of group `g`, or that bitmap is the next one to be written. Blocks
    of data are those of the disk `d`. -/
structure Doomed (g : Nat) (d : Disk) (s : FreeState) : Prop where
  layout : Layout s.fs
  data : ∀ n, IsData n → s.fs.disk n = d n
  lost : bit (s.fs.disk (blockBitmapAt g)).mem 11 = false ∨ s.lastBgd = g

/-- What is going to be written does not have the bit either. -/
structure Spoilt (g : Nat) (d : Disk) (s : FreeState) : Prop extends Doomed g d s where
  cached : ∃ r, s.bitmap = some r ∧ r < 3 ∧ (s.lastBgd = g → bit (s.mem r) 11 = false)

/-- It is a pointer block, in whatever group. -/
structure Poised (g : Nat) (d : Disk) (r : Nat) (s : FreeState) : Prop extends Doomed g d s where
  bitmap : s.bitmap = some r
  lt : r < 3
  pointers : bit (s.mem r) 11 = false

section Lost

variable {g depth arr base k r : Nat} {d : Disk} {s s' t : FreeState} {blocks : UInt32}

theorem Poised.spoilt (h : Poised g d r s) : Spoilt g d s where
  toDoomed := h.toDoomed
  cached := ⟨r, h.bitmap, h.lt, fun _ => h.pointers⟩

/-- The next write. -/
theorem Spoilt.flush (h : Spoilt g d s) (hrun : flush s = some s') :
    s' = { s with fs := flushed s } ∧ Doomed g d s' ∧
      bit (s'.fs.disk (blockBitmapAt g)).mem 11 = false := by
  obtain ⟨r, hbitmap, -, hbit⟩ := h.cached
  unfold LossOs.Ext2.flush at hrun
  split_ifs at hrun with hcond
  have hlast : s.lastBgd < 8 := hcond.resolve_left (by rw [hbitmap]; exact Option.some_ne_none r)
  obtain rfl : { s with fs := flushed s } = s' := Option.some.inj hrun
  have hfs : flushed s = s.fs.writeBlocks (blockBitmapAt s.lastBgd) (s.mem r) := by
    rw [flushed_some hbitmap, h.layout.blockBitmap _ hlast]
  have hlost : bit ((flushed s).disk (blockBitmapAt g)).mem 11 = false := by
    rw [hfs, writeBlocks_disk]
    by_cases hg : s.lastBgd = g
    · rw [hg, Function.update_self, bit_blockOf (by decide)]
      exact hbit hg
    · rw [Function.update_of_ne fun heq => hg (blockBitmapAt_inj heq).symm]
      exact h.lost.resolve_right hg
  refine ⟨rfl, ⟨?_, fun n hn => ?_, Or.inl hlost⟩, hlost⟩
  · show Layout (flushed s)
    rw [hfs]
    exact ⟨h.layout.blockBitmap, h.layout.inodeBitmap, h.layout.inodeTable⟩
  · show (flushed s).disk n = d n
    rw [hfs, writeBlocks_disk, Function.update_of_ne (hn.ne_blockBitmapAt s.lastBgd)]
    exact h.data n hn

/-- What dropping a block leaves. -/
structure DropLeaves (g : Nat) (d : Disk) (depth arr k : Nat) (s s' : FreeState) : Prop where
  spoilt : Spoilt g d s'
  bitmap : s'.bitmap = s.bitmap ∨ s'.bitmap = some depth
  bits : ∀ r, r ≠ depth → bit (s.mem r) 11 = false → bit (s'.mem r) 11 = false
  locations : s'.mem 3 = if arr = 3 then wr32 (s.mem 3) (k * 4) 0 else s.mem 3

theorem countFree_layout {fs : Fs} (hl : Layout fs) (grp : Nat) : Layout (countFree grp fs) := by
  apply hl.of_geometry
  unfold countFree
  rw [superBlock_geometry, modifyDesc_blocks_geometry]

theorem Spoilt.clearAndCount (h : Spoilt g d s) (depth arr k b : Nat) :
    DropLeaves g d depth arr k s (clearAndCount arr k b s) := by
  obtain ⟨r, hbitmap, hlt, hbit⟩ := h.cached
  have hcleared : ∀ r', bit (s.mem r') 11 = false →
      bit ((s.setMem r (clearBit (s.mem r) (b % 256))).mem r') 11 = false := by
    intro r' hr'
    by_cases heq : r' = r
    · subst heq
      rw [setMem_same]
      exact bit_clearBit_of hr' _
    · rwa [setMem_of_ne heq]
  have hbits : ∀ r', bit (s.mem r') 11 = false →
      bit ((LossOs.Ext2.clearAndCount arr k b s).mem r') 11 = false := by
    intro r' hr'
    unfold LossOs.Ext2.clearAndCount
    rw [hbitmap]
    dsimp only
    by_cases heq : r' = arr
    · subst heq
      rw [setMem_same]
      exact bit_zeroed (hcleared r' hr') _
    · rw [setMem_of_ne heq]
      exact hcleared r' hr'
  have hsame := clearAndCount_bitmap s arr k b
  have hlast := clearAndCount_lastBgd s arr k b
  refine ⟨⟨⟨?_, fun n hn => ?_, ?_⟩, r, by rw [hsame, hbitmap], hlt, fun hg => ?_⟩, Or.inl hsame,
    fun r' _ => hbits r', ?_⟩
  · rw [clearAndCount_fs]
    exact countFree_layout h.layout _
  · rw [clearAndCount_fs]
    exact h.data n hn
  · rw [clearAndCount_fs, hlast]
    exact h.lost
  · exact hbits r (hbit (hlast.symm.trans hg))
  · unfold LossOs.Ext2.clearAndCount
    rw [hbitmap]
    dsimp only
    by_cases harr : arr = 3
    · subst harr
      rw [if_pos rfl, setMem_same]
      show wr32 ((s.setMem r _).mem 3) (k * 4) 0 = _
      rw [setMem_of_ne (Nat.ne_of_gt hlt)]
    · rw [if_neg harr, setMem_of_ne (Ne.symm harr)]
      exact setMem_of_ne (Nat.ne_of_gt hlt) s _

theorem Spoilt.selectBitmap {grp : Nat} (h : Spoilt g d s) (hdepth : depth < 3) (hgrp : grp < 8)
    (hrun : selectBitmap depth grp s = some s') : Spoilt g d s' ∧
      (s'.bitmap = s.bitmap ∨ s'.bitmap = some depth) ∧ ∀ r, r ≠ depth → s'.mem r = s.mem r := by
  unfold LossOs.Ext2.selectBitmap at hrun
  split_ifs at hrun with hload
  · obtain ⟨s₁, hflush, rfl⟩ := Option.map_eq_some_iff.mp hrun
    obtain ⟨rfl, hd, hlost⟩ := h.flush hflush
    refine ⟨⟨⟨hd.layout, hd.data, Or.inl hlost⟩, depth, rfl, hdepth, fun hg => ?_⟩, Or.inr rfl,
      fun r hr => ?_⟩
    · -- it has been read from the disk
      have hgrp' : grp = g := hg
      show bit (Function.update s.mem depth ((flushed s).readBlocks
        ((flushed s).bgdtCache grp).bgBlockBitmap.toNat) depth) 11 = false
      have hbitmap := hd.layout.blockBitmap grp hgrp
      dsimp only at hbitmap
      rw [Function.update_self, hbitmap, hgrp', bit_readBlocks (by decide)]
      exact hlost
    · show Function.update s.mem depth _ r = s.mem r
      rw [Function.update_of_ne hr]
  · obtain rfl := Option.some.inj hrun
    exact ⟨h, Or.inl rfl, fun _ _ => rfl⟩

theorem Spoilt.dropBlock (h : Spoilt g d s) (hdepth : depth < 3)
    (hrun : dropBlock depth arr k s = some s') : DropLeaves g d depth arr k s s' := by
  unfold LossOs.Ext2.dropBlock at hrun
  dsimp only at hrun
  split_ifs at hrun with hgrp
  obtain ⟨s₁, hselect, rfl⟩ := Option.map_eq_some_iff.mp hrun
  obtain ⟨hs₁, hbitmap, hmem⟩ := h.selectBitmap hdepth hgrp hselect
  have hleaves := hs₁.clearAndCount depth arr k (ptr (s.mem arr) k)
  refine ⟨hleaves.spoilt, ?_, fun r hr hbit => hleaves.bits r hr ?_, ?_⟩
  · rcases hleaves.bitmap with heq | heq
    · rwa [heq]
    · exact Or.inr heq
  · rwa [hmem r hr]
  · rw [hleaves.locations, hmem 3 (by omega)]

/-! ## The calls inside -/

/-- A call with depth 0 that has a bitmap writes it. -/
theorem Spoilt.deallocate0 (h : Spoilt g d s) (harr : arr ≠ 3) (hblocks : blocks ≠ 0)
    (hrun : deallocate0 arr base blocks s = some s') : Doomed g d s' ∧
      (∀ r, r ≠ 0 → bit (s.mem r) 11 = false → bit (s'.mem r) 11 = false) ∧
      s'.mem 3 = s.mem 3 := by
  unfold LossOs.Ext2.deallocate0 withRounds at hrun
  rw [if_neg hblocks] at hrun
  obtain ⟨t, hloop, hflush⟩ := Option.bind_eq_some_iff.mp hrun
  obtain ⟨-, ht, hbits, hmem⟩ := loopWhile_inv (I := fun _ t => Spoilt g d t ∧
    (∀ r, r ≠ 0 → bit (s.mem r) 11 = false → bit (t.mem r) 11 = false) ∧ t.mem 3 = s.mem 3)
    (fun i t t' _ ⟨ht, hbits, hmem⟩ _ hround => by
      unfold round0 at hround
      split_ifs at hround
      · obtain rfl := Option.some.inj hround
        exact ⟨ht, hbits, hmem⟩
      · have hleaves := ht.dropBlock (by decide) hround
        refine ⟨hleaves.spoilt, fun r hr hbit => hleaves.bits r hr (hbits r hr hbit), ?_⟩
        rw [hleaves.locations, if_neg harr, hmem])
    ⟨h, fun _ _ hbit => hbit, rfl⟩ hloop
  obtain ⟨rfl, hd, -⟩ := ht.flush hflush
  exact ⟨hd, hbits, hmem⟩

/-- The caller's bitmap is a pointer block before and after. -/
theorem Poised.call_deallocate0 (h : Poised g d r s) (hr : r ≠ 0) (harr : arr ≠ 3)
    (hblocks : blocks ≠ 0) (hrun : call (LossOs.Ext2.deallocate0 arr base blocks) s = some s') :
    Poised g d r s' ∧ s'.mem 3 = s.mem 3 := by
  obtain ⟨t, ht, rfl⟩ := Option.map_eq_some_iff.mp hrun
  obtain ⟨hd, hbits, hmem⟩ := h.spoilt.deallocate0 harr hblocks ht
  exact ⟨⟨⟨hd.layout, hd.data, hd.lost⟩, h.bitmap, h.lt, hbits r hr h.pointers⟩, hmem⟩

theorem count_ne_zero (h : blocks ≠ 0) : (if blocks > 128 then (128 : UInt32) else blocks) ≠ 0 := by
  split_ifs
  · decide
  · exact h

/-- A round of depth 1, in which what is read takes the place of the bitmap or leaves it. -/
theorem Poised.round1 {i : Nat} (h : Poised g d r (s.setMem 1 (s.fs.readBlocks
      (ptr (s.mem arr) (base + i))))) (hr : r ≠ 0) (hblocks : blocks ≠ 0)
    (hrun : round1 arr base blocks i s = some s') :
    Spoilt g d s' ∧ (s'.bitmap = some r ∨ s'.bitmap = some 1) ∧
      (1 < r → bit (s'.mem r) 11 = false) ∧
      s'.mem 3 = if arr = 3 then wr32 (s.mem 3) ((base + i) * 4) 0 else s.mem 3 := by
  unfold LossOs.Ext2.round1 at hrun
  obtain ⟨t, hcall, hdrop⟩ := Option.bind_eq_some_iff.mp hrun
  obtain ⟨ht, hmem⟩ := h.call_deallocate0 hr (by decide) (count_ne_zero hblocks) hcall
  have hleaves := ht.spoilt.dropBlock (by decide) hdrop
  refine ⟨hleaves.spoilt, ?_, fun hr1 => hleaves.bits r (Nat.ne_of_gt hr1) ht.pointers, ?_⟩
  · rw [← ht.bitmap]
    exact hleaves.bitmap
  · rw [hleaves.locations, hmem, setMem_of_ne (by decide)]

/-- The calls that depth 2 makes. -/
theorem Poised.call_deallocate1 {j : Nat} (h : Poised g d 2 s)
    (hrun : call (deallocate1 2 j 1) s = some s') : Poised g d 2 s' ∧ s'.mem 3 = s.mem 3 := by
  obtain ⟨t', ht', rfl⟩ := Option.map_eq_some_iff.mp hrun
  unfold deallocate1 withRounds at ht'
  rw [if_neg (by decide)] at ht'
  obtain ⟨t, hloop, hflush⟩ := Option.bind_eq_some_iff.mp ht'
  have hread : Poised g d 2 (s.setMem 1 (s.fs.readBlocks (ptr (s.mem 2) (j + 0)))) :=
    ⟨⟨h.layout, h.data, h.lost⟩, h.bitmap, h.lt, by rw [setMem_of_ne (by decide)]; exact h.pointers⟩
  -- one location, so one round at most
  have ht : Spoilt g d t ∧ bit (t.mem 2) 11 = false ∧ t.mem 3 = s.mem 3 := by
    cases hc : isLocation 2 j 0 s with
    | false =>
      rw [loopWhile_stop hc] at hloop
      obtain rfl := Option.some.inj hloop
      exact ⟨h.spoilt, h.pointers, rfl⟩
    | true =>
      rw [show (1 : UInt32).toNat = 0 + 1 from rfl, loopWhile_next hc] at hloop
      obtain ⟨t₁, hround, hrest⟩ := Option.bind_eq_some_iff.mp hloop
      obtain rfl : t₁ = t := Option.some.inj hrest
      obtain ⟨hspoilt, -, hbit, hmem⟩ := hread.round1 (by decide) (by decide) hround
      exact ⟨hspoilt, hbit (by decide), hmem⟩
  obtain ⟨rfl, hd, -⟩ := ht.1.flush hflush
  exact ⟨⟨⟨hd.layout, hd.data, hd.lost⟩, h.bitmap, h.lt, ht.2.1⟩, ht.2.2⟩

/-! ## The rounds for further locations -/

/-- What a round does whose own buffer is the bitmap: it has read pointers into it. -/
def RoundSpoils (g : Nat) (d : Disk) (depth : Nat) (f : Nat → FreeState → Option FreeState) :
    Prop :=
  ∀ i s s', Doomed g d s → s.bitmap = some depth →
    IsData (ptr (s.mem 3) i) → ptr (d (ptr (s.mem 3) i)).mem 0 < 2048 → f i s = some s' →
    Spoilt g d s' ∧ s'.bitmap = some depth ∧ s'.mem 3 = wr32 (s.mem 3) (i * 4) 0

/-- The buffer of the call, with the pointers in it. -/
theorem Doomed.read {i : Nat} (h : Doomed g d s) (hbitmap : s.bitmap = some depth)
    (hlt : depth < 3) (hdata : IsData (ptr (s.mem 3) i))
    (hptr : ptr (d (ptr (s.mem 3) i)).mem 0 < 2048) :
    Poised g d depth (s.setMem depth (s.fs.readBlocks (ptr (s.mem 3) (0 + i)))) := by
  refine ⟨⟨h.layout, h.data, h.lost⟩, hbitmap, hlt, ?_⟩
  rw [setMem_same, Nat.zero_add]
  apply bit_of_ptr
  rw [ptr_readBlocks s.fs _ (by decide), h.data _ hdata]
  exact hptr

theorem round1_spoils (hblocks : blocks ≠ 0) : RoundSpoils g d 1 (round1 3 0 blocks) := by
  intro i s s' hd hbitmap hdata hptr hrun
  obtain ⟨hs', hbitmap', -, hmem⟩ :=
    (hd.read hbitmap (by decide) hdata hptr).round1 (by decide) hblocks hrun
  rw [if_pos rfl, Nat.zero_add] at hmem
  exact ⟨hs', hbitmap'.elim id id, hmem⟩

theorem round2_spoils : RoundSpoils g d 2 (round2 3 0 blocks) := by
  intro i s s' hd hbitmap hdata hptr hrun
  have hread := hd.read hbitmap (by decide) hdata hptr
  unfold round2 at hrun
  obtain ⟨t, hloop, hdrop⟩ := Option.bind_eq_some_iff.mp hrun
  obtain ⟨-, ht, hmem⟩ := loopWhile_inv (I := fun _ t => Poised g d 2 t ∧ t.mem 3 = s.mem 3)
    (fun j t t' _ ⟨ht, hmem⟩ _ hcall => by
      obtain ⟨ht', hmem'⟩ := ht.call_deallocate1 hcall
      exact ⟨ht', hmem'.trans hmem⟩)
    ⟨hread, setMem_of_ne (by decide) s _⟩ hloop
  have hleaves := ht.spoilt.dropBlock (by decide) hdrop
  refine ⟨hleaves.spoilt, hleaves.bitmap.elim (fun heq => heq.trans ht.bitmap) id, ?_⟩
  rw [hleaves.locations, if_pos rfl, hmem, Nat.zero_add]

/-- Once there is a second round, the bitmap of the group of the first location loses its bit. -/
theorem withRounds_lost {f : Nat → FreeState → Option FreeState} {a : Nat} {L : List Nat}
    {p : Nat → Nat} (hf : RoundSpoils g d depth f) (hp : ∀ i, p i = ptr (s.mem 3) i)
    (hdata : ∀ i < blocks.toNat, p i ≠ 0 → IsData (p i) ∧ ptr (d (p i)).mem 0 < 2048)
    (htwo : 1 < blocks.toNat) (h0 : p 0 ≠ 0) (h1 : p 1 ≠ 0) (hround : f 0 s = some t)
    (ht : Single depth 3 0 a L s t) (hd : Doomed g d t)
    (hrun : withRounds blocks (loopWhile (isLocation 3 0) f blocks.toNat 0) s = some s') :
    bit (s'.fs.disk (blockBitmapAt g)).mem 11 = false := by
  obtain ⟨k, hk⟩ : ∃ k, blocks.toNat = k + 2 := ⟨blocks.toNat - 2, by omega⟩
  have hrest : ∀ j, 1 ≤ j → ptr (t.mem 3) j = p j := fun j hj => by
    rw [ht.zeroed, ptr_zeroed, if_neg (by omega), hp]
  have hfirst : isLocation 3 0 0 s = true := decide_eq_true (by rw [Nat.zero_add, ← hp]; exact h0)
  have hsecond : isLocation 3 0 1 t = true :=
    decide_eq_true (by rw [Nat.zero_add, hrest 1 (Nat.le_refl 1)]; exact h1)
  unfold withRounds at hrun
  rw [if_neg (blocks_ne_zero (by omega)), hk, loopWhile_next hfirst, hround] at hrun
  obtain ⟨t', hloop, hflush⟩ := Option.bind_eq_some_iff.mp hrun
  rw [Option.bind_some, loopWhile_next hsecond] at hloop
  obtain ⟨t₁, hround₁, hloop⟩ := Option.bind_eq_some_iff.mp hloop
  -- every round behind the first one has pointers in the place of the bitmap
  have hstep : ∀ i t t', i < blocks.toNat → Doomed g d t → t.bitmap = some depth →
      (∀ j, i ≤ j → ptr (t.mem 3) j = p j) → isLocation 3 0 i t = true → f i t = some t' →
      Spoilt g d t' ∧ t'.bitmap = some depth ∧ ∀ j, i + 1 ≤ j → ptr (t'.mem 3) j = p j := by
    intro i t t' hi hdt hbitmap hlocs hc hrun
    have hloc := of_decide_eq_true hc
    have hi' := hlocs i (Nat.le_refl i)
    rw [Nat.zero_add, hi'] at hloc
    obtain ⟨hdata, hptr⟩ := hdata i hi hloc
    obtain ⟨hs', hbitmap', hmem⟩ :=
      hf i t t' hdt hbitmap (by rwa [hi']) (by rwa [hi']) hrun
    refine ⟨hs', hbitmap', fun j hj => ?_⟩
    rw [hmem, ptr_zeroed, if_neg (by omega)]
    exact hlocs j (by omega)
  obtain ⟨hspoilt, hbitmap, hlocs⟩ :=
    hstep 1 t t₁ (by omega) hd ht.bitmap hrest hsecond hround₁
  obtain ⟨-, hlast, -, -⟩ := loopWhile_inv (I := fun i t => Spoilt g d t ∧ t.bitmap = some depth ∧
    ∀ j, i ≤ j → ptr (t.mem 3) j = p j)
    (fun i t t' hi ⟨hspoilt, hbitmap, hlocs⟩ hc hrun =>
      hstep i t t' (by omega) hspoilt.toDoomed hbitmap hlocs hc hrun)
    ⟨hspoilt, hbitmap, hlocs⟩ hloop
  exact (hlast.flush hflush).2.2

end Lost

end LossOs.Ext2
