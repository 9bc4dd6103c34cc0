/-
  A file that is stored in part.

  `allocate_node_blocks` returns nothing. When it runs out of blocks it stops, and `write` goes
  on as if the file were stored. The new inode holds the whole file if and only if the blocks
  from its group on suffice and, when the parent has grown, it does not lie in the parent's
  table block (`write_complete_iff`). A size whose block count wraps around asks for more blocks
  than there are. Nothing is assumed of what the directory blocks hold.
-/
import LossOs.Ext2.Overflow

namespace LossOs.Ext2

open LossOs.Lib

/-- The free blocks from group `g` on that are left for the new inode. -/
def blocksLeft (request : EXT2DriverRequest) (fs : Fs) (g : Nat) : Finset Nat :=
  (freeFrom fs.disk g).filter fun b => parentBlock request fs ≠ some b

/-- The file fits into inode `i`: the blocks from its group on suffice, and a parent that grows
    is not written back over it. -/
structure FileFits (request : EXT2DriverRequest) (fs : Fs) (i : Nat) : Prop where
  room : blocksNeeded (exactBlocks request) ≤ (blocksLeft request fs (inodeToBgd i)).card
  kept : scanParent request fs = none →
    inodeBlockAt i ≠ inodeBlockAt request.parentInode.toNat

/-- A `write` that returns 0 has stored the whole file, which every `read` that finds it and
    returns 0 yields; where the blocks do not suffice it does not return 0. -/
structure Complete (request : EXT2DriverRequest) (fs : Fs) : Prop where
  stored : (write request fs).1 = 0 → ∃ i t, firstFreeInode fs.disk = some i ∧
    Stored request (write request fs).2.disk i t
  read : (write request fs).1 = 0 → ∀ i, firstFreeInode fs.disk = some i →
    ∀ (rd : EXT2DriverRequest) (stack : Mem) (e : Entry), e.inode = i →
      (readEntry rd ((write request fs).2.withStack stack) (some e)).1 = 0 →
      ∀ k < iSize (slot (write request fs).2.disk i),
        (readEntry rd ((write request fs).2.withStack stack) (some e)).2 k = request.buf k
  short : ∀ i, firstFreeInode fs.disk = some i →
    (blocksLeft request fs (inodeToBgd i)).card < blocksNeeded (exactBlocks request) →
      (write request fs).1 ≠ 0

/-- From `fs` to `fs'` the file was built in inode `i`, in the node `ni` and the blocks `L`, and
    then the parent was written back. -/
structure Built (request : EXT2DriverRequest) (fs fs' : Fs) (i : Nat) (ni : Mem) (L X : List Nat) :
    Prop where
  layout : Layout fs'
  isInode : IsInode i
  made : ∃ d₀, Made request i d₀ fs'.disk ni L X ∧ ∀ g, freeFrom d₀ g = blocksLeft request fs g
  blocks : ∀ b ∈ L, IsData b ∧ blockUsed fs'.disk b = true
  kept : (scanParent request fs = none →
    inodeBlockAt i ≠ inodeBlockAt request.parentInode.toNat) → slot fs'.disk i = cutNode ni
  lost : scanParent request fs = none →
    inodeBlockAt i = inodeBlockAt request.parentInode.toNat → iMode (slot fs'.disk i) < 0x4000

section Built

variable {request : EXT2DriverRequest} {fs fs₀ fs' : Fs} {b nb off i : Nat} {ni : Mem}
  {L X : List Nat}

theorem Hole.built (h : Hole request b off fs fs' i ni L X) (hl : Layout fs) {q : Nat × Scan}
    (hs : scanParent request fs = some q) : Built request fs fs' i ni L X := by
  refine ⟨h.took.layout hl, h.took.isInode, ⟨fs.disk, h.made, fun g => ?_⟩, h.took.used_of_mem,
    fun _ => h.slotSelf, fun hn => by rw [hs] at hn; cases hn⟩
  unfold blocksLeft
  rw [parentBlock_of_scan hs]
  exact (Finset.filter_true_of_mem fun _ _ => nofun).symm

theorem Grow.built (h : Grow request request.parentInode.toNat nb fs fs₀ fs' i ni L X)
    (hg : Grab fs fs₀ [nb]) (hh : Hosts request.parentInode.toNat fs)
    (hpb : parentBlock request fs = some nb) : Built request fs fs' i ni L X := by
  have hp := h.took.isInode
  have hused := h.took.used_of_mem
  refine ⟨h.took.layout hh.ready.layout, hp, ⟨fs₀.disk, h.made, fun g => ?_⟩,
    fun b hb => hused b (List.mem_cons_of_mem _ hb), fun hk => ?_, fun _ ht => ?_⟩
  · rw [hg.freeFrom_eq]
    unfold blocksLeft
    rw [hpb]
    apply Finset.filter_congr
    intro b _
    rw [List.mem_singleton, ne_eq, Option.some.injEq, eq_comm]
  · have hs : scanParent request fs = none := by
      unfold parentBlock at hpb
      split at hpb
      · cases hpb
      · assumption
    rw [h.otherSlots i hp (hk hs), if_pos rfl]
  · exact h.mode_lost hh.freeSlot hh.dir hh.size (hused nb List.mem_cons_self).1.1 ht

/-- The inode holds the whole file if and only if the file fits. -/
theorem Built.stored_iff (h : Built request fs fs' i ni L X) (hreg : isDirRequest request = false) :
    (∃ t, Stored request fs'.disk i t) ↔ FileFits request fs i := by
  obtain ⟨d₀, hmade, hleft⟩ := h.made
  by_cases hk : scanParent request fs = none →
      inodeBlockAt i ≠ inodeBlockAt request.parentInode.toNat
  · rw [hmade.stored_iff hreg (h.kept hk) h.blocks, hleft]
    constructor
    · rintro ⟨he, hroom⟩
      exact ⟨by rwa [he] at hroom, hk⟩
    · intro hf
      have hle : (blocksLeft request fs (inodeToBgd i)).card ≤ 2048 := by
        rw [← hleft]
        exact card_freeFrom_le _ _
      have he := blockCount_exact hf.room hle
      exact ⟨he, by rw [he]; exact hf.room⟩
  · refine iff_of_false ?_ fun hf => hk hf.kept
    rintro ⟨t, ht⟩
    have hlost : scanParent request fs = none ∧
        inodeBlockAt i = inodeBlockAt request.parentInode.toNat := by
      by_contra hc
      exact hk fun hs ht => hc ⟨hs, ht⟩
    have := h.lost hlost.1 hlost.2
    rw [ht.mode] at this
    exact absurd this (by decide)

/-- What `write` returns, and what it has built when it returns 0. -/
theorem write_built (h : Hosts request.parentInode.toNat fs) :
    ((write request fs).1 ≠ 0 ∧ ∀ i, firstFreeInode fs.disk = some i → ¬ Builds request fs) ∨
    ((write request fs).1 = 0 ∧ Builds request fs ∧ ∃ i ni L X, firstFreeInode fs.disk = some i ∧
      Built request fs (write request fs).2 i ni L X) := by
  have hd := h.dir.dir
  have hw := h.scanned
  generalize LossOs.Ext2.write request fs = res at hw ⊢
  obtain ⟨code, fs'⟩ := res
  dsimp only at hw ⊢
  -- no inode is left, so none is free first
  have hnone : (∀ i, IsInode i → inodeUsed fs.disk i = true) →
      ∀ i, firstFreeInode fs.disk = some i → ¬ Builds request fs := fun hall i hi => by
    rw [firstFreeInode_eq_none hall] at hi
    cases hi
  cases hw with
  | stop b sc hs hsc =>
    refine Or.inl ⟨by decide, fun i _ hb => ?_⟩
    rcases hb.2 with ⟨b', off, hs'⟩ | ⟨hs', -⟩
    · rw [hs, Option.some.injEq, Prod.mk.injEq] at hs'
      exact hsc off hs'.2
    · rw [hs] at hs'
      cases hs'
  | noInode b off hs hall => exact Or.inl ⟨by decide, hnone hall⟩
  | hole b off hs hhole =>
    exact Or.inr ⟨rfl, ⟨hd, Or.inl ⟨b, off, hs⟩⟩, _, _, _, _, hhole.took.firstFreeInode,
      hhole.built h.ready.layout hs⟩
  | noBlock hs hnb =>
    refine Or.inl ⟨by decide, fun i _ hb => ?_⟩
    rcases hb.2 with ⟨b', off, hs'⟩ | ⟨-, nb, hnb'⟩
    · rw [hs] at hs'
      cases hs'
    · rw [hnb] at hnb'
      cases hnb'
  | halfGrown nb _ _ _ hall => exact Or.inl ⟨by decide, hnone hall⟩
  | grow nb hs hnb hgrab hgrow =>
    exact Or.inr ⟨rfl, ⟨hd, Or.inr ⟨hs, nb, hnb⟩⟩, _, _, _, _, hgrow.took.firstFreeInode,
      hgrow.built hgrab h hnb⟩

/-- A stored file is all that `read` returns. -/
theorem Stored.readEntry {t : FileTree} (h : Stored request fs.disk i t) (hl : Layout fs)
    (hi : IsInode i) {rd : EXT2DriverRequest} {stack : Mem} {e : Entry} (he : e.inode = i)
    (h0 : (readEntry rd (fs.withStack stack) (some e)).1 = 0) :
    ∀ k < iSize (slot fs.disk i),
      (LossOs.Ext2.readEntry rd (fs.withStack stack) (some e)).2 k = request.buf k := by
  subst he
  intro k hk
  rw [h.size] at hk
  rw [← withStack_disk fs stack] at h
  replace hl := hl.withStack stack
  generalize fs.withStack stack = fs' at *
  have hnode : ∀ o < 70, view (fs'.readBlocks (fs'.inodeBlock e.inode)) (slotOffset e.inode) o =
      slot fs'.disk e.inode o := fun o ho => hl.node_apply hi ho
  unfold LossOs.Ext2.readEntry at h0 ⊢
  dsimp only at h0 ⊢
  split at h0
  · cases h0
  · split at h0
    · cases h0
    · rename_i h1 h2
      have hcopy := h.copyFile hnode rd.buf k
      rw [if_pos hk] at hcopy
      rw [if_neg h1, if_neg h2]
      dsimp only
      rw [hcopy]

/-- When an inode is built, `write` is complete if and only if the file fits. -/
theorem Built.complete_iff (h : Built request fs (write request fs).2 i ni L X)
    (h0 : (write request fs).1 = 0) (hi : firstFreeInode fs.disk = some i)
    (hreg : isDirRequest request = false) : Complete request fs ↔ FileFits request fs i := by
  have huniq : ∀ {j}, firstFreeInode fs.disk = some j → j = i := fun hj =>
    Option.some.inj (hj.symm.trans hi)
  rw [← h.stored_iff hreg]
  constructor
  · intro hc
    obtain ⟨j, t, hj, ht⟩ := hc.stored h0
    exact ⟨t, huniq hj ▸ ht⟩
  · intro hst
    have hfit := (h.stored_iff hreg).mp hst
    obtain ⟨t, ht⟩ := hst
    refine ⟨fun _ => ⟨i, t, hi, ht⟩, fun _ j hj rd stack e he hcode => ?_, fun j hj hlt => ?_⟩
    · rw [huniq hj] at he ⊢
      exact ht.readEntry h.layout h.isInode he hcode
    · rw [huniq hj] at hlt
      exact absurd hfit.room (by omega)

end Built

/-- `write` of a regular file is complete if and only if the file fits wherever an inode is
    built for it. -/
theorem write_complete_iff {request : EXT2DriverRequest} (hreg : isDirRequest request = false)
    {fs : Fs} (hr : Ready fs) (hp : IsInode request.parentInode.toNat)
    (hh : isDir fs.disk request.parentInode.toNat = true → Hosts request.parentInode.toNat fs) :
    Complete request fs ↔ (Builds request fs → ∀ i, firstFreeInode fs.disk = some i →
      FileFits request fs i) := by
  have hfail : (write request fs).1 ≠ 0 → Complete request fs := fun h =>
    ⟨fun h0 => absurd h0 h, fun h0 => absurd h0 h, fun _ _ _ => h⟩
  cases hd : isDir fs.disk request.parentInode.toNat with
  | false =>
    refine iff_of_true (hfail ?_) fun hb => ?_
    · rw [write_of_not_dir hr.layout hp hd]
      exact show (2 : Int) ≠ 0 by decide
    · have := hb.1
      rw [hd] at this
      cases this
  | true =>
    rcases write_built (hh hd) with ⟨hcode, hno⟩ | ⟨h0, hb, i, ni, L, X, hi, hbuilt⟩
    · exact iff_of_true (hfail hcode) fun hb i hi => absurd hb (hno i hi)
    · rw [hbuilt.complete_iff h0 hi hreg]
      constructor
      · intro hf _ j hj
        rwa [Option.some.inj (hj.symm.trans hi)]
      · exact fun h => h hb i hi

/-! ## Three ways to fall short -/

theorem not_complete {request : EXT2DriverRequest} {fs : Fs}
    (h : Hosts request.parentInode.toNat fs) (hreg : isDirRequest request = false)
    (h0 : (write request fs).1 = 0)
    (hno : ∀ i, firstFreeInode fs.disk = some i → ¬ FileFits request fs i) :
    ¬ Complete request fs := by
  rcases write_built h with ⟨hcode, -⟩ | ⟨-, -, i, ni, L, X, hi, hbuilt⟩
  · exact absurd h0 hcode
  · rw [hbuilt.complete_iff h0 hi hreg]
    exact hno i hi

/-- No file of more blocks than the disk has fits. -/
theorem FileFits.blocks_le {request : EXT2DriverRequest} {fs : Fs} {i : Nat}
    (h : FileFits request fs i) : exactBlocks request ≤ 2048 := by
  have hle : (blocksLeft request fs (inodeToBgd i)).card ≤ 2048 :=
    (Finset.card_filter_le _ _).trans (card_freeFrom_le _ _)
  exact (le_blocksNeeded _).trans (h.room.trans hle)

/-- A file of a megabyte and one byte. -/
def largeRequest : EXT2DriverRequest := { rootRequest [97] [] false with bufferSize := 1048577 }

/-- A file of `2^32 - 1` bytes, whose block count wraps around to 0. -/
def hugeRequest : EXT2DriverRequest := { rootRequest [97] [] false with bufferSize := 4294967295 }

/-- A file that is larger than the disk, one whose block count wraps around, and an empty one
    that makes the root directory grow: `write` returns 0, and they are not stored. -/
theorem write_incomplete :
    ((write largeRequest freshFs).1 = 0 ∧ ¬ Complete largeRequest freshFs) ∧
    ((write hugeRequest freshFs).1 = 0 ∧ blockCount hugeRequest = 0 ∧
      ¬ Complete hugeRequest freshFs) ∧
    (write (longNth 0) longFs).1 = 0 ∧ ¬ Complete (longNth 0) longFs := by
  have hf := isFresh_freshFs.formatted
  have hroot : Hosts 1 freshFs := hf.consistent.hosts (hf.isDirectory_iff.mpr rfl)
  have hlarge := (hf.write_first largeRequest rfl (by decide) (by decide)).1
  have hhuge := (hf.write_first hugeRequest rfl (by decide) (by decide)).1
  have hlong := (longDir_longFs.step (by decide)).1
  refine ⟨⟨hlarge, not_complete hroot (by decide) hlarge fun i _ hfit => ?_⟩,
    ⟨hhuge, by decide, not_complete hroot (by decide) hhuge fun i _ hfit => ?_⟩, hlong,
    not_complete (longDir_longFs.consistent.hosts longDir_longFs.dir) (isDirRequest_longNth 0) hlong
      fun i hi hfit => ?_⟩
  · exact absurd hfit.blocks_le (by decide)
  · exact absurd hfit.blocks_le (by decide)
  · obtain ⟨hmiss, -, h3⟩ := longDir_longFs.next (by decide)
    obtain rfl : 3 = i := Option.some.inj (h3.symm.trans hi)
    exact hfit.kept (scanParent_eq_none longDir_longFs.consistent longDir_longFs.dir hmiss) rfl

theorem write_complete_iff_fresh : Complete (rootRequest [97] [7, 8, 9] false) freshFs ↔
    (Builds (rootRequest [97] [7, 8, 9] false) freshFs →
      ∀ i, firstFreeInode freshFs.disk = some i →
        FileFits (rootRequest [97] [7, 8, 9] false) freshFs i) := by
  have hf := isFresh_freshFs.formatted
  exact write_complete_iff (by decide) hf.consistent.ready (by decide) fun _ =>
    hf.consistent.hosts (hf.isDirectory_iff.mpr rfl)

end LossOs.Ext2
