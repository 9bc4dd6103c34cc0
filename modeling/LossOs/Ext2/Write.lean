/-
  The two paths of `write`.

  `Hole`: the new record goes behind a record with room. `Grow`: the parent gets a new
  block with the new record in it, and its inode-table block is written back as it was read
  at the start, with the parent changed. Each path returns -1 when it finds no inode (or no
  block for the parent), and otherwise ends in one of these two (`writeHole_spec`,
  `writeGrow_spec`).
-/
import LossOs.Ext2.Create
import LossOs.Ext2.Consistent

namespace LossOs.Ext2

open LossOs.Lib

/-! ## A hole in the parent -/

/-- From `fs` to `fs'` inode `i` was built and its record put behind the one at offset `off`
    of block `b`. -/
structure Hole (request : EXT2DriverRequest) (b off : Nat) (fs fs' : Fs) (i : Nat) (ni : Mem)
    (L X : List Nat) : Prop where
  took : Took fs fs' i L (b :: X) (isDirRequest request)
  slots : SameSlots fs.disk fs'.disk i
  slotSelf : slot fs'.disk i = cutNode ni
  made : Made request i fs.disk fs'.disk ni L X
  block : fs'.disk b = blockOf (insertEntry request i off (fs.readBlocks b))

theorem IsData.ne_super {b : Nat} (h : IsData b) : b ≠ 1 ∧ b ≠ 2 := by
  have := h.2.1
  omega

theorem writeHole_spec (request : EXT2DriverRequest) {fs : Fs} (hr : Ready fs)
    (hz : FreeSlots fs.disk) {b : Nat} (hb : IsData b) (hu : blockUsed fs.disk b = true)
    (off : Nat) :
    ((∀ i, IsInode i → inodeUsed fs.disk i = true) ∧ writeHole request b off fs = (-1, fs)) ∨
    ∃ i fs' ni L X, writeHole request b off fs = (0, fs') ∧
      Hole request b off fs fs' i ni L X := by
  unfold writeHole
  rcases allocateNode_spec hr with ⟨he, hall⟩ | ⟨i, fs₁, he, hi⟩
  · left
    rw [he]
    exact ⟨hall, rfl⟩
  · right
    obtain ⟨ni, L, X, htook, hslots, hself, hmade⟩ :=
      createNode_spec request hr (Grab.refl fs) hi (hz i hi.isInode hi.fresh)
    rw [List.nil_append] at htook
    have hbL : b ∉ L := htook.not_mem_of_used hu
    rw [he]
    dsimp only
    rw [if_neg hi.ne_zero]
    generalize createNode request i fs₁ = fs₂ at htook hslots hself hmade ⊢
    have htook' := (htook.writeData hb (insertEntry request i off (fs.readBlocks b))).sync
    have hkeep : ∀ n, n ≠ b → n ≠ 1 → n ≠ 2 → (syncMetadata (fs₂.writeBlocks b
        (insertEntry request i off (fs.readBlocks b)))).disk n = fs₂.disk n := by
      intro n hn h1 h2
      rw [syncMetadata_disk h1 h2, writeBlocks_disk, Function.update_of_ne hn]
    refine ⟨i, _, ni, L, X, rfl, htook', fun j o ho => ?_, ?_, hmade.congr fun c hc => ?_, ?_⟩
    · rw [hkeep _ (hb.ne_inodeBlockAt j).symm (inodeBlockAt_ne j).1 (inodeBlockAt_ne j).2]
      exact hslots j o ho
    · rw [← hself]
      exact slot_congr (hkeep _ (hb.ne_inodeBlockAt i).symm (inodeBlockAt_ne i).1
        (inodeBlockAt_ne i).2)
    · have hd := htook.data c hc
      exact hkeep c (fun h => hbL (h ▸ hc)) hd.ne_super.1 hd.ne_super.2
    · rw [syncMetadata_disk hb.ne_super.1 hb.ne_super.2, writeBlocks_disk, Function.update_self]

/-! ## A new block for the parent -/

/-- In a ready state, where block 0 is in use, the sixth copy of the search does what the
    others do. -/
theorem growSearch_eq {fs : Fs} (hr : Ready fs) (g : Nat) :
    growSearch (List.range' g (8 - g)) fs = (searchBlock g fs).getD (0, fs) := by
  unfold searchBlock
  have hlt : ∀ bg ∈ List.range' g (8 - g), bg < 8 := fun bg h => by
    have := List.mem_range'_1.mp h; omega
  generalize List.range' g (8 - g) = bgs at hlt
  induction bgs with
  | nil => rfl
  | cons bg bgs ih =>
    have hbg := hlt bg (by simp)
    rw [List.findSome?_cons]
    have ih := ih fun c hc => hlt c (List.mem_cons_of_mem _ hc)
    unfold growSearch
    by_cases hcnt : (fs.bgdtCache bg).bgFreeBlocksCount > 0
    · have hne : (fs.bgdtCache bg).bgFreeBlocksCount ≠ 0 := fun h => by
        rw [h] at hcnt; exact absurd hcnt (by decide)
      rw [if_pos hcnt, if_pos hne]
      cases hf : firstClear (fs.readBlocks (fs.bgdtCache bg).bgBlockBitmap.toNat) 256 with
      | none =>
        have hgrp : growGroup bg fs = (0, fs) := by
          unfold growGroup
          simp only [hf]
        rw [hgrp]
        simp only [hf, Option.map_none, ne_eq, not_true_eq_false, if_false]
        exact ih
      | some idx =>
        obtain ⟨h256, -, hclear, -⟩ := firstClear_eq_some hf
        rw [hr.layout.blockBitmap bg hbg, bit_readBlocks (by omega)] at hclear
        have h0 : bg * 256 + idx ≠ 0 := by
          intro h0
          have hm := hr.metaUsed 0 (by decide)
          unfold blockUsed at hm
          obtain ⟨rfl, rfl⟩ : bg = 0 ∧ idx = 0 := by omega
          rw [hclear] at hm
          cases hm
        have hgrp : growGroup bg fs = (bg * 256 + idx,
            takeBit bg idx (fs.readBlocks (fs.bgdtCache bg).bgBlockBitmap.toNat) fs) := by
          unfold growGroup
          simp only [hf]
          rw [if_pos h0]
        rw [hgrp]
        simp only [hf, Option.map_some, if_pos h0, Option.getD_some]
    · have heq : ¬ (fs.bgdtCache bg).bgFreeBlocksCount ≠ 0 := fun h => hcnt (by
        rw [gt_iff_lt, UInt16.lt_iff_toNat_lt]
        have : (fs.bgdtCache bg).bgFreeBlocksCount.toNat ≠ 0 := fun hc => h (UInt16.toNat_inj.mp hc)
        show 0 < _
        omega)
      rw [if_neg hcnt, if_neg heq]
      exact ih

/-- Outside the parent's size, count and new pointer the table block stays as it was. -/
theorem appendBlock_of_not_mem {buf : Mem} {slot nb o : Nat} (h : o < slot + 2 ∨ slot + 10 ≤ o)
    (h' : o < slot + (10 + 4 * iBlocks (view buf slot)) ∨
      slot + (10 + 4 * iBlocks (view buf slot)) + 4 ≤ o) :
    appendBlock buf slot nb o = buf o := by
  unfold appendBlock
  rw [wr32_of_not_mem (by omega), wr32_of_not_mem (by omega), wr32_of_not_mem h']

/-- The parent after the append: one block more, 512 bytes more. -/
theorem appendBlock_fields (buf : Mem) (slot : Nat) {nb : Nat} (hnb : nb < 4294967296)
    (hn : iBlocks (view buf slot) < 4294967295) :
    iMode (view (appendBlock buf slot nb) slot) = iMode (view buf slot) ∧
    iBlocks (view (appendBlock buf slot nb) slot) = iBlocks (view buf slot) + 1 ∧
    ∀ j, iBlock (view (appendBlock buf slot nb) slot) j =
      if j = iBlocks (view buf slot) then nb else iBlock (view buf slot) j := by
  refine ⟨?_, ?_, fun j => ?_⟩
  · apply rd16_congr
    intro o _ ho
    rw [view_apply, view_apply, appendBlock_of_not_mem (by omega) (by omega)]
  · unfold iBlocks
    rw [rd32_view]
    unfold appendBlock
    rw [rd32_wr32_of_ne (by omega)]
    exact rd32_wr32_of_lt (by omega)
  · unfold iBlock
    rw [rd32_view, rd32_view]
    unfold appendBlock
    rw [rd32_wr32_of_ne (by omega), rd32_wr32_of_ne (by omega)]
    by_cases hj : j = iBlocks (view buf slot)
    · rw [if_pos hj, hj, rd32_wr32_of_lt hnb]
    · rw [if_neg hj, rd32_wr32_of_ne (by omega)]

/-- From `fs` to `fs'` inode `i` was built, the parent `p` got the block `nb` with the new
    record, and the table block of `p` was written back as `fs` had it, with `nb`
    appended. -/
structure Grow (request : EXT2DriverRequest) (p nb : Nat) (fs fs₀ fs' : Fs) (i : Nat) (ni : Mem)
    (L X : List Nat) : Prop where
  took : Took fs fs' i (nb :: L) X (isDirRequest request)
  parentTable : fs'.disk (inodeBlockAt p) =
    blockOf (appendBlock (fs.readBlocks (inodeBlockAt p)) (slotOffset p) nb)
  otherSlots : ∀ j, IsInode j → inodeBlockAt j ≠ inodeBlockAt p →
    slot fs'.disk j = if j = i then cutNode ni else slot fs.disk j
  made : Made request i fs₀.disk fs'.disk ni L X
  block : Tiles (fs'.disk nb).mem 0 [newRec request i 0 512] 512

/-- The last stores of the growth path: the new block and the table block of the parent. -/
def storeGrown (request : EXT2DriverRequest) (p nb i : Nat) (fs fs₂ : Fs) : Fs :=
  syncMetadata ((fs₂.writeBlocks nb (singleEntry request i fs₂.zeroBuf)).writeBlocks
    (inodeBlockAt p) (appendBlock (fs.readBlocks (inodeBlockAt p)) (slotOffset p) nb))

theorem storeGrown_disk (request : EXT2DriverRequest) (p nb i : Nat) (fs fs₂ : Fs) {n : Nat}
    (h1 : n ≠ 1) (h2 : n ≠ 2) : (storeGrown request p nb i fs fs₂).disk n =
      Function.update (Function.update fs₂.disk nb
        (blockOf (singleEntry request i fs₂.zeroBuf))) (inodeBlockAt p)
        (blockOf (appendBlock (fs.readBlocks (inodeBlockAt p)) (slotOffset p) nb)) n := by
  unfold storeGrown
  rw [syncMetadata_disk h1 h2, writeBlocks_disk, writeBlocks_disk]

theorem storeGrown_grow {request : EXT2DriverRequest} {p nb i : Nat} {fs fs₀ fs₂ : Fs} {ni : Mem}
    {L X : List Nat} (htook : Took fs fs₂ i (nb :: L) X (isDirRequest request))
    (hslots : SameSlots fs.disk fs₂.disk i) (hself : slot fs₂.disk i = cutNode ni)
    (hmade : Made request i fs₀.disk fs₂.disk ni L X) :
    Grow request p nb fs fs₀ (storeGrown request p nb i fs fs₂) i ni L X := by
  have hnb := htook.data nb (by simp)
  have hi := htook.isInode
  have hi32 : i < 4294967296 := by have := hi.2; omega
  refine ⟨((htook.writeNew (by simp) _).writeTable p _).sync, ?_, fun j hj hne => ?_,
    hmade.congr fun c hc => ?_, ?_⟩
  · rw [storeGrown_disk _ _ _ _ _ _ (inodeBlockAt_ne p).1 (inodeBlockAt_ne p).2,
      Function.update_self]
  · have hd : (storeGrown request p nb i fs fs₂).disk (inodeBlockAt j) =
        fs₂.disk (inodeBlockAt j) := by
      rw [storeGrown_disk _ _ _ _ _ _ (inodeBlockAt_ne j).1 (inodeBlockAt_ne j).2,
        Function.update_of_ne hne, Function.update_of_ne (hnb.ne_inodeBlockAt j).symm]
    rw [slot_congr hd]
    by_cases hji : j = i
    · rw [if_pos hji, hji, hself]
    · rw [if_neg hji, hslots.slot_eq hi hj hji]
  · have hd := htook.data c (List.mem_cons_of_mem _ hc)
    have hne : c ≠ nb := fun h => (List.nodup_cons.mp htook.nodup).1 (h ▸ hc)
    rw [storeGrown_disk _ _ _ _ _ _ hd.ne_super.1 hd.ne_super.2,
      Function.update_of_ne (hd.ne_inodeBlockAt p), Function.update_of_ne hne]
  · rw [storeGrown_disk _ _ _ _ _ _ hnb.ne_super.1 hnb.ne_super.2,
      Function.update_of_ne (hnb.ne_inodeBlockAt p), Function.update_self]
    exact (singleEntry_tiles hi32).congr fun o _ ho => mem_blockOf ho

theorem writeGrow_spec (request : EXT2DriverRequest) {fs : Fs} (hr : Ready fs)
    (hz : FreeSlots fs.disk) (hp : IsInode request.parentInode.toNat) :
    let p := request.parentInode.toNat
    (Exhausted fs.disk (inodeToBgd p) ∧
      writeGrow request (fs.readBlocks (inodeBlockAt p)) fs = (-1, fs)) ∨
    ∃ nb fs₀, Grab fs fs₀ [nb] ∧ 256 * inodeToBgd p ≤ nb ∧
      (∀ c < nb, 256 * inodeToBgd p ≤ c → blockUsed fs.disk c = true) ∧
      (((∀ i, IsInode i → inodeUsed fs.disk i = true) ∧
        writeGrow request (fs.readBlocks (inodeBlockAt p)) fs = (-1, fs₀)) ∨
      ∃ i fs' ni L X, writeGrow request (fs.readBlocks (inodeBlockAt p)) fs = (0, fs') ∧
        Grow request p nb fs fs₀ fs' i ni L X) := by
  intro p
  have hsearch := growSearch_eq hr (inodeToBgd p)
  have hidx := hr.layout.inodeBlock_eq hp
  rcases searchBlock_spec hr (inodeToBgd p) with ⟨hnone, hex⟩ | ⟨nb, fs₀, hsome, hge, hgrab, hfst⟩
  · left
    rw [hnone] at hsearch
    refine ⟨hex, ?_⟩
    unfold writeGrow
    dsimp only
    simp only [show growSearch (List.range' (inodeToBgd request.parentInode.toNat)
      (8 - inodeToBgd request.parentInode.toNat)) fs = (0, fs) from hsearch]
    rfl
  · right
    rw [hsome] at hsearch
    have hnb := hgrab.data nb (by simp)
    refine ⟨nb, fs₀, hgrab, hge, hfst, ?_⟩
    rcases allocateNode_spec (hgrab.ready hr) with ⟨he, hall⟩ | ⟨i, fs₁, he, hi⟩
    · left
      refine ⟨fun i hi => ?_, ?_⟩
      · rw [← hgrab.inodeUsed_eq hi]; exact hall i hi
      · unfold writeGrow
        dsimp only
        simp only [show growSearch (List.range' (inodeToBgd request.parentInode.toNat)
          (8 - inodeToBgd request.parentInode.toNat)) fs = (nb, fs₀) from hsearch, he,
          if_neg hnb.ne_zero, if_true]
    · right
      have hfree : inodeUsed fs.disk i = false := by
        rw [← hgrab.inodeUsed_eq hi.isInode]; exact hi.fresh
      obtain ⟨ni, L, X, htook, hslots, hself, hmade⟩ :=
        createNode_spec request hr hgrab hi (hz i hi.isInode hfree)
      rw [List.singleton_append] at htook
      have heq : writeGrow request (fs.readBlocks (inodeBlockAt p)) fs =
          (0, storeGrown request p nb i fs (createNode request i fs₁)) := by
        unfold writeGrow storeGrown
        dsimp only
        simp only [show growSearch (List.range' (inodeToBgd request.parentInode.toNat)
          (8 - inodeToBgd request.parentInode.toNat)) fs = (nb, fs₀) from hsearch, he,
          if_neg hnb.ne_zero, if_neg hi.ne_zero, hidx]
        rfl
      exact ⟨i, _, ni, L, X, heq, storeGrown_grow htook hslots hself hmade⟩

/-! ## All ways through `write` -/

/-- The first free inode. -/
def firstFreeInode (d : Disk) : Option Nat := (List.range' 1 896).find? fun i => !inodeUsed d i

/-- The first free block from group `g` on. -/
def firstFreeBlock (d : Disk) (g : Nat) : Option Nat :=
  (List.range' (256 * g) (2048 - 256 * g)).find? fun b => !blockUsed d b

/-- The block that goes to the parent itself, when the parent has to grow. -/
def growthBlock (request : EXT2DriverRequest) (d : Disk) : Option Nat :=
  match firstHit request d request.parentInode.toNat with
  | some _ => none
  | none => firstFreeBlock d (inodeToBgd request.parentInode.toNat)

/-- The free blocks from group `g` on that are left for the new inode. -/
def roomFrom (request : EXT2DriverRequest) (d : Disk) (g : Nat) : Finset Nat :=
  (freeFrom d g).filter fun b => growthBlock request d ≠ some b

theorem firstFreeInode_eq {d : Disk} {i : Nat} (hi : IsInode i) (hf : inodeUsed d i = false)
    (h : ∀ j, IsInode j → j < i → inodeUsed d j = true) : firstFreeInode d = some i := by
  have h1 := hi.1
  have h2 := hi.2
  unfold firstFreeInode
  rw [show 896 = (i - 1) + ((896 - i) + 1) by omega, ← List.range'_append_1, List.find?_append,
    List.find?_eq_none.mpr, List.range'_succ, List.find?_cons, show 1 + (i - 1) = i by omega, hf]
  · rfl
  · intro j hj
    have := List.mem_range'_1.mp hj
    simp [h j ⟨by omega, by omega⟩ (by omega)]

theorem firstFreeInode_eq_none {d : Disk} (h : ∀ i, IsInode i → inodeUsed d i = true) :
    firstFreeInode d = none := by
  refine List.find?_eq_none.mpr fun i hi => ?_
  have := List.mem_range'_1.mp hi
  simp [h i ⟨by omega, by omega⟩]

theorem firstFreeBlock_eq {d : Disk} {g b : Nat} (hb : b < 2048) (hg : 256 * g ≤ b)
    (hf : blockUsed d b = false) (h : ∀ c < b, 256 * g ≤ c → blockUsed d c = true) :
    firstFreeBlock d g = some b := by
  unfold firstFreeBlock
  rw [show 2048 - 256 * g = (b - 256 * g) + ((2048 - b - 1) + 1) by omega, ← List.range'_append_1,
    List.find?_append, List.find?_eq_none.mpr, List.range'_succ, List.find?_cons,
    show 256 * g + (b - 256 * g) = b by omega, hf]
  · rfl
  · intro c hc
    have := List.mem_range'_1.mp hc
    simp [h c (by omega) (by omega)]

theorem firstFreeBlock_eq_none {d : Disk} {g : Nat} (h : Exhausted d g) :
    firstFreeBlock d g = none := by
  refine List.find?_eq_none.mpr fun b hb => ?_
  have := List.mem_range'_1.mp hb
  simp [h b (by omega) (by omega)]

theorem mem_roomFrom {request : EXT2DriverRequest} {d : Disk} {g b : Nat} :
    b ∈ roomFrom request d g ↔
      (b < 2048 ∧ 256 * g ≤ b ∧ blockUsed d b = false) ∧ growthBlock request d ≠ some b := by
  unfold roomFrom
  rw [Finset.mem_filter, mem_freeFrom]

/-- A `write` over parent `p`, from `fs` to the return code and the state afterwards. -/
inductive Wrote (request : EXT2DriverRequest) (p : Nat) (fs : Fs) : Int → Fs → Prop
  | notDir : isDir fs.disk p = false → Wrote request p fs 2 fs
  | duplicate (b : Nat) (r : Rec) : isDir fs.disk p = true →
      firstHit request fs.disk p = some (b, r) → r.named request = true → Wrote request p fs 1 fs
  | noInode (b : Nat) (r : Rec) : isDir fs.disk p = true →
      firstHit request fs.disk p = some (b, r) → r.named request = false →
      (∀ i, IsInode i → inodeUsed fs.disk i = true) → Wrote request p fs (-1) fs
  | hole (b : Nat) (r : Rec) {i : Nat} {ni : Mem} {L X : List Nat} {fs' : Fs} :
      isDir fs.disk p = true → firstHit request fs.disk p = some (b, r) →
      r.named request = false → Hole request b r.off fs fs' i ni L X → Wrote request p fs 0 fs'
  | noBlock : isDir fs.disk p = true → firstHit request fs.disk p = none →
      Exhausted fs.disk (inodeToBgd p) → Wrote request p fs (-1) fs
  | halfGrown (nb : Nat) {fs₀ : Fs} : isDir fs.disk p = true →
      firstHit request fs.disk p = none → Grab fs fs₀ [nb] →
      (∀ i, IsInode i → inodeUsed fs.disk i = true) → Wrote request p fs (-1) fs₀
  | grow (nb : Nat) {i : Nat} {ni : Mem} {L X : List Nat} {fs₀ fs' : Fs} :
      isDir fs.disk p = true → firstHit request fs.disk p = none → Grab fs fs₀ [nb] →
      growthBlock request fs.disk = some nb → Grow request p nb fs fs₀ fs' i ni L X →
      Wrote request p fs 0 fs'

/-- What `write` needs of the parent: its records tile its blocks, which are data in use. -/
structure ParentOk (d : Disk) (p : Nat) : Prop extends DirOk d p where
  data : ∀ b ∈ dirBlocks (slot d p), IsData b ∧ blockUsed d b = true

theorem write_cases (request : EXT2DriverRequest) {fs : Fs} (hr : Ready fs)
    (hz : FreeSlots fs.disk) (hp : IsInode request.parentInode.toNat)
    (hok : isDir fs.disk request.parentInode.toNat = true →
      ParentOk fs.disk request.parentInode.toNat) :
    Wrote request request.parentInode.toNat fs (write request fs).1 (write request fs).2 := by
  cases hd : isDir fs.disk request.parentInode.toNat with
  | false =>
    rw [write_of_not_dir hr.layout hp hd]
    exact .notDir hd
  | true =>
    have hok := hok hd
    have heq := write_eq hr.layout hp hd hok.toDirOk
    cases hhit : firstHit request fs.disk request.parentInode.toNat with
    | some q =>
      obtain ⟨b, r⟩ := q
      rw [hhit] at heq
      dsimp only at heq
      by_cases hn : r.named request = true
      · rw [if_pos hn] at heq
        rw [heq]
        exact .duplicate b r hd hhit hn
      · rw [if_neg hn] at heq
        rw [Bool.not_eq_true] at hn
        have hb : b ∈ dirBlocks (slot fs.disk request.parentInode.toNat) :=
          (mem_dirRecords.mp (List.mem_of_find?_eq_some hhit)).1
        obtain ⟨h1, h2⟩ := hok.data b hb
        rcases writeHole_spec request hr hz h1 h2 r.off with
          ⟨hall, he⟩ | ⟨i, fs', ni, L, X, he, hhole⟩
        · rw [heq, he]
          exact .noInode b r hd hhit hn hall
        · rw [heq, he]
          exact .hole b r hd hhit hn hhole
    | none =>
      rw [hhit] at heq
      dsimp only at heq
      rcases writeGrow_spec request hr hz hp with
        ⟨hex, he⟩ | ⟨nb, fs₀, hgrab, hge, hfst, ⟨hall, he⟩ | ⟨i, fs', ni, L, X, he, hgrow⟩⟩
      · rw [heq, he]
        exact .noBlock hd hhit hex
      · rw [heq, he]
        exact .halfGrown nb hd hhit hgrab hall
      · rw [heq, he]
        refine .grow nb hd hhit hgrab ?_ hgrow
        unfold growthBlock
        rw [hhit]
        exact firstFreeBlock_eq (hgrab.data nb (by simp)).1 hge (hgrab.fresh nb (by simp)) hfst

section Outcome

variable {request : EXT2DriverRequest} {fs fs₀ fs' : Fs} {p b nb i off : Nat} {r : Rec} {ni : Mem}
  {L X : List Nat}

theorem Took.firstFreeInode {dir : Bool} (h : Took fs fs' i L X dir) :
    firstFreeInode fs.disk = some i :=
  firstFreeInode_eq h.isInode h.freshInode h.first

theorem roomFrom_of_hit {q : Nat × Rec}
    (h : firstHit request fs.disk request.parentInode.toNat = some q) (g : Nat) :
    roomFrom request fs.disk g = freeFrom fs.disk g := by
  ext c
  rw [mem_roomFrom, mem_freeFrom]
  unfold growthBlock
  rw [h]
  simp

theorem Grab.freeFrom_eq {M : List Nat} (hg : Grab fs fs₀ M) (g : Nat) :
    freeFrom fs₀.disk g = (freeFrom fs.disk g).filter fun b => b ∉ M := by
  ext c
  rw [Finset.mem_filter, mem_freeFrom, mem_freeFrom]
  by_cases hc : c < 2048
  · rw [hg.used c hc, Bool.or_eq_false_iff, decide_eq_false_iff_not]
    tauto
  · exact iff_of_false (fun h => hc h.1) fun h => hc h.1.1

theorem roomFrom_of_grab (hg : Grab fs fs₀ [nb]) (h : growthBlock request fs.disk = some nb)
    (g : Nat) : roomFrom request fs.disk g = freeFrom fs₀.disk g := by
  rw [hg.freeFrom_eq]
  unfold roomFrom
  rw [h]
  apply Finset.filter_congr
  intro b _
  rw [List.mem_singleton, ne_eq, Option.some.injEq, eq_comm]

/-- The fallback is taken when, and only when, a directory finds no free block. -/
theorem Made.fallback_iff {d₀ d : Disk} (h : Made request i d₀ d ni L X)
    (hL : ∀ c ∈ L, IsData c ∧ blockUsed d₀ c = false) :
    X = [] ↔ (isDirRequest request = true → (freeFrom d₀ (inodeToBgd i)).Nonempty) := by
  cases h with
  | file t hreg => exact iff_of_true rfl fun hd => by rw [hreg] at hd; cases hd
  | dir b _ hge =>
    obtain ⟨h1, h2⟩ := hL b (by simp)
    exact iff_of_true rfl fun _ => ⟨b, mem_freeFrom.mpr ⟨h1.1, hge, h2⟩⟩
  | fallback hd hex =>
    apply iff_of_false (by simp)
    intro hc
    obtain ⟨c, hc⟩ := hc hd
    obtain ⟨h1, h2, h3⟩ := mem_freeFrom.mp hc
    rw [hex c h1 h2] at h3
    cases h3

theorem Hole.room_iff (h : Hole request b off fs fs' i ni L X) :
    X = [] ↔ (isDirRequest request = true → (freeFrom fs.disk (inodeToBgd i)).Nonempty) :=
  h.made.fallback_iff fun c hc => ⟨h.took.data c hc, h.took.fresh c hc⟩

theorem Grow.room_iff (h : Grow request p nb fs fs₀ fs' i ni L X) (hg : Grab fs fs₀ [nb]) :
    X = [] ↔ (isDirRequest request = true → (freeFrom fs₀.disk (inodeToBgd i)).Nonempty) := by
  apply h.made.fallback_iff
  intro c hc
  have hd := h.took.data c (List.mem_cons_of_mem _ hc)
  refine ⟨hd, ?_⟩
  have hne : c ≠ nb := fun hcn => (List.nodup_cons.mp h.took.nodup).1 (hcn ▸ hc)
  rw [hg.used c hd.1, h.took.fresh c (List.mem_cons_of_mem _ hc)]
  simp [hne]

end Outcome

/-! ## The two successful ways -/

theorem firstFreeInode_some {d : Disk} {i : Nat} (h : firstFreeInode d = some i) :
    IsInode i ∧ inodeUsed d i = false := by
  have := List.mem_range'_1.mp (List.mem_of_find?_eq_some h)
  exact ⟨⟨by omega, by omega⟩, by simpa using List.find?_some h⟩

section Success

variable {request : EXT2DriverRequest} {fs : Fs} {i : Nat}

/-- With room behind a record and a free inode `write` takes the hole path. -/
theorem write_hole (request : EXT2DriverRequest) (hr : Ready fs) (hz : FreeSlots fs.disk)
    (hp : IsInode request.parentInode.toNat)
    (hd : isDir fs.disk request.parentInode.toNat = true)
    (hok : ParentOk fs.disk request.parentInode.toNat) {q : Nat × Rec}
    (hhit : firstHit request fs.disk request.parentInode.toNat = some q)
    (hn : q.2.named request = false) (hi : firstFreeInode fs.disk = some i) :
    (write request fs).1 = 0 ∧
      ∃ ni L X, Hole request q.1 q.2.off fs (write request fs).2 i ni L X := by
  have hw := write_cases request hr hz hp fun _ => hok
  generalize write request fs = res at hw ⊢
  obtain ⟨code, fs'⟩ := res
  dsimp only at hw ⊢
  obtain ⟨h1, h2⟩ := firstFreeInode_some hi
  cases hw with
  | notDir h => rw [hd] at h; cases h
  | duplicate b r _ h hn' =>
    rw [hhit, Option.some.injEq] at h
    rw [h, hn'] at hn; cases hn
  | noInode b r _ _ _ hall => rw [hall i h1] at h2; cases h2
  | hole b r _ h _ hhole =>
    rw [hhit, Option.some.injEq] at h
    have hi' := hhole.took.firstFreeInode
    rw [hi, Option.some.injEq] at hi'
    subst h hi'
    exact ⟨rfl, _, _, _, hhole⟩
  | noBlock _ h => rw [hhit] at h; cases h
  | halfGrown nb _ h => rw [hhit] at h; cases h
  | grow nb _ h => rw [hhit] at h; cases h

/-- Without room, but with a free block and a free inode, it takes the growth path. -/
theorem write_grow (request : EXT2DriverRequest) (hr : Ready fs) (hz : FreeSlots fs.disk)
    (hp : IsInode request.parentInode.toNat)
    (hd : isDir fs.disk request.parentInode.toNat = true)
    (hok : ParentOk fs.disk request.parentInode.toNat)
    (hmiss : firstHit request fs.disk request.parentInode.toNat = none) {nb : Nat}
    (hnb : growthBlock request fs.disk = some nb) (hi : firstFreeInode fs.disk = some i) :
    (write request fs).1 = 0 ∧ ∃ fs₀ ni L X, Grab fs fs₀ [nb] ∧
      Grow request request.parentInode.toNat nb fs fs₀ (write request fs).2 i ni L X := by
  have hw := write_cases request hr hz hp fun _ => hok
  generalize write request fs = res at hw ⊢
  obtain ⟨code, fs'⟩ := res
  dsimp only at hw ⊢
  obtain ⟨h1, h2⟩ := firstFreeInode_some hi
  cases hw with
  | notDir h => rw [hd] at h; cases h
  | duplicate b r _ h => rw [hmiss] at h; cases h
  | noInode b r _ h => rw [hmiss] at h; cases h
  | hole b r _ h => rw [hmiss] at h; cases h
  | noBlock _ _ hex =>
    unfold growthBlock at hnb
    rw [hmiss] at hnb
    exact absurd ((firstFreeBlock_eq_none hex).symm.trans hnb) nofun
  | halfGrown _ _ _ _ hall => rw [hall i h1] at h2; cases h2
  | grow nb' _ _ hgrab hnb' hgrow =>
    rw [hnb, Option.some.injEq] at hnb'
    have hi' := hgrow.took.firstFreeInode
    rw [hi, Option.some.injEq] at hi'
    subst hnb' hi'
    exact ⟨rfl, _, _, _, _, hgrab, hgrow⟩

end Success

end LossOs.Ext2
