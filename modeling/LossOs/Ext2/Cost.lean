/-
  What a file costs.

  A file of `n` data blocks takes `pointerBlocks n` more for its pointers: none up to 12, one for
  the single indirect block up to 140, and from there on the double indirect block and one more for
  every 128 data blocks. The three loops of `allocate_node_blocks` stop exactly there
  (`write_cost`), and the counters of the groups and of the superblock pay for no other block.
-/
import LossOs.Ext2.Totals
import LossOs.Ext2.RootBlock

namespace LossOs.Ext2

open LossOs.Lib

/-- The pointer blocks of a file with `n` data blocks. -/
def pointerBlocks (n : Nat) : Nat :=
  if n ≤ 12 then 0 else if n ≤ 140 then 1 else 2 + (n - 140 + 127) / 128

theorem blocksNeeded_eq (n : Nat) : blocksNeeded n = n + pointerBlocks n := by
  unfold blocksNeeded pointerBlocks
  split
  · rfl
  · split
    · rfl
    · omega

/-- From `fs` to `fs'` the new file in inode `i` has been paid for: its `n` data blocks and their
    pointer blocks, and one inode. -/
structure Charged (n : Nat) (fs fs' : Fs) (i : Nat) : Prop where
  superBlocks : fs'.superBlock.sFreeBlocksCount =
    fs.superBlock.sFreeBlocksCount - UInt32.ofNat (n + pointerBlocks n)
  groupBlocks : freeBlocksTotal fs' + (n + pointerBlocks n) = freeBlocksTotal fs
  single : iBlock (slot fs'.disk i) 12 ≠ 0 ↔ 12 < n
  double : iBlock (slot fs'.disk i) 13 ≠ 0 ↔ 140 < n
  superInodes : fs'.superBlock.sFreeInodesCount = fs.superBlock.sFreeInodesCount - 1
  groupInodes : freeInodesTotal fs' + 1 = freeInodesTotal fs
  inode : ∀ j, IsInode j → inodeUsed fs'.disk j = (inodeUsed fs.disk j || decide (j = i))

section Shapes

variable {t : FileTree} {n : Nat}

/-- A full tree has a single indirect block when the direct pointers do not suffice. -/
theorem FileTree.Shape.single_iff (h : t.Shape n) (hfull : t.data.length = n) :
    t.single ≠ none ↔ 12 < n := by
  constructor
  · intro hs
    obtain ⟨p, hp⟩ := Option.ne_none_iff_exists'.mp hs
    exact (h.single p hp).1
  · intro hn hs
    have hdouble : t.double = none := by
      cases hq : t.double with
      | none => rfl
      | some q =>
        obtain ⟨-, -, -, p, hp, -⟩ := h.double q hq
        rw [hs] at hp
        cases hp
    have hdirect := h.direct
    unfold FileTree.data at hfull
    rw [hs, hdouble, Option.elim_none, Option.elim_none, List.append_nil, List.append_nil] at hfull
    omega

/-- It has a double indirect block when the single one does not suffice either. -/
theorem FileTree.Shape.double_iff (h : t.Shape n) (hfull : t.data.length = n) :
    t.double ≠ none ↔ 140 < n := by
  constructor
  · intro hd
    obtain ⟨q, hq⟩ := Option.ne_none_iff_exists'.mp hd
    exact (h.double q hq).1
  · intro hn hd
    obtain ⟨p, hp⟩ := Option.ne_none_iff_exists'.mp ((h.single_iff hfull).mpr (by omega))
    obtain ⟨-, hdirect, hlen⟩ := h.single p hp
    unfold FileTree.data at hfull
    rw [hp, hd, Option.elim_none, Option.elim_some, List.append_nil, List.length_append] at hfull
    omega

end Shapes

section Pointers

variable {t : FileTree} {d : Disk} {node : Mem}

theorem FileTree.Holds.iBlock_single (h : t.Holds d node) (h0 : ∀ b ∈ t.blocks, b ≠ 0) :
    iBlock node 12 ≠ 0 ↔ t.single ≠ none := by
  rw [h.single]
  cases hs : t.single with
  | none => simp
  | some p => simpa using h0 p.1 (FileTree.mem_single hs).1

theorem FileTree.Holds.iBlock_double (h : t.Holds d node) (h0 : ∀ b ∈ t.blocks, b ≠ 0) :
    iBlock node 13 ≠ 0 ↔ t.double ≠ none := by
  rw [h.double]
  cases hd : t.double with
  | none => simp
  | some q => simpa using h0 q.1 (FileTree.mem_double hd).1

end Pointers

section Cost

variable {fs fs' : Fs} {i : Nat} {L X : List Nat} {dir : Bool}

/-- The groups lose as many blocks and inodes as an allocation takes. -/
theorem Took.totals (h : Took fs fs' i L X dir) (hc : Counters fs) :
    freeBlocksTotal fs' + L.length = freeBlocksTotal fs ∧
      freeInodesTotal fs' + 1 = freeInodesTotal fs := by
  have hc' := h.counters hc
  rw [hc.freeBlocksTotal, hc'.freeBlocksTotal, hc.freeInodesTotal, hc'.freeInodesTotal]
  exact ⟨freeBlocks_taken h.nodup (fun b hb => ⟨(h.data b hb).1, h.fresh b hb⟩) h.blocks,
    freeInodes_taken h.isInode h.freshInode h.inodes⟩

/-- A file that `write` puts behind a record costs its blocks, their pointer blocks and one inode,
    when the groups from that of its inode on have room for it. -/
theorem write_cost (request : EXT2DriverRequest) {fs : Fs} (hc : Consistent fs)
    (hp : IsDirectory fs.disk request.parentInode.toNat) (hreg : isDirRequest request = false)
    {q : Nat × Rec} (hhit : firstHit request fs.disk request.parentInode.toNat = some q)
    (hn : q.2.named request = false) {i : Nat} (hi : firstFreeInode fs.disk = some i)
    (hroom : exactBlocks request + pointerBlocks (exactBlocks request) ≤
      (freeFrom fs.disk (inodeToBgd i)).card) :
    (write request fs).1 = 0 ∧ Charged (exactBlocks request) fs (write request fs).2 i := by
  rw [← blocksNeeded_eq] at hroom
  have hcount : blockCount request = exactBlocks request :=
    blockCount_exact hroom (card_freeFrom_le fs.disk _)
  obtain ⟨hzero, ni, L, X, hhole⟩ := write_hole request hc.ready hc.freeSlot hp.isInode hp.dir
    (hc.parentOk hp.isInode hp.dir) hhit hn hi
  refine ⟨hzero, ?_⟩
  have htook := hhole.took
  obtain ⟨hblocks, hinodes⟩ := htook.totals hc.ready.counters
  cases hhole.made with
  | dir b hdir => rw [hreg] at hdir; cases hdir
  | fallback hdir => rw [hreg] at hdir; cases hdir
  | file t _ hat hge hfull _ =>
    have hdata : t.data.length = exactBlocks request := by
      rw [← hcount] at hroom ⊢
      exact hfull.mpr hroom
    have hshape : t.Shape (exactBlocks request) := hcount ▸ hat.shape
    have hlen : t.blocks.length = exactBlocks request + pointerBlocks (exactBlocks request) := by
      rw [← blocksNeeded_eq]
      exact hshape.length_blocks.2.1 hdata
    have h0 : ∀ b ∈ t.blocks, b ≠ 0 := fun b hb => (htook.data b hb).ne_zero
    have hnode : ∀ j < 15, iBlock (slot (write request fs).2.disk i) j = iBlock ni j :=
      fun j hj => iBlock_congr (fun o ho => by rw [hhole.slotSelf, cutNode_of_lt ho]) hj
    rw [hlen] at hblocks
    refine ⟨?_, hblocks, ?_, ?_, ?_, hinodes, htook.inodes⟩
    · rw [htook.super, hlen]
    · rw [hnode 12 (by decide), hat.holds.iBlock_single h0, hshape.single_iff hdata]
    · rw [hnode 13 (by decide), hat.holds.iBlock_double h0, hshape.double_iff hdata]
    · rw [htook.super]

/-- A first file of 141 blocks, one more than the single indirect block leads to. -/
theorem write_cost_fresh : pointerBlocks (exactBlocks (pageRequest 72000)) = 3 ∧
    Charged 141 freshFs (write (pageRequest 72000) freshFs).2 2 := by
  have hf := isFresh_freshFs.formatted
  have hblocks : exactBlocks (pageRequest 72000) = 141 := by decide
  have hroom : exactBlocks (pageRequest 72000) + pointerBlocks (exactBlocks (pageRequest 72000)) ≤
      (freeFrom freshFs.disk (inodeToBgd 2)).card :=
    (by decide : _ ≤ 234).trans hf.rootBlock.room
  refine ⟨by decide, ?_⟩
  rw [← hblocks]
  exact (write_cost (pageRequest 72000) hf.consistent (hf.isDirectory_iff.mpr rfl) (by decide)
    (hf.stop (by decide) (by decide)).firstHit (by decide) hf.firstFreeInode hroom).2

end Cost

end LossOs.Ext2
