/-
  Calls that fail.

  `delete` changes nothing unless it returns 0. `write` changes nothing either, with one
  exception: when the parent has to grow, it gets its block before the inode search, and when
  that finds no inode the block stays taken (`call_failed_iff`). The state in which this happens
  needs no damage: `fullFs` is a consistent file system whose inodes are all in use.
-/
import LossOs.Ext2.Exclusive
import LossOs.Ext2.Growth
import LossOs.Ext2.Runs

namespace LossOs.Ext2

open LossOs.Lib

/-- Nothing that a later call can see has changed. -/
structure Untouched (fs fs' : Fs) : Prop where
  blockBitmaps : ∀ g < 8, fs'.disk (blockBitmapAt g) = fs.disk (blockBitmapAt g)
  inodeBitmaps : ∀ g < 8, fs'.disk (inodeBitmapAt g) = fs.disk (inodeBitmapAt g)
  cachedGroups : fs'.bgdtCache = fs.bgdtCache
  cachedSuper : fs'.superBlock = fs.superBlock
  superOnDisk : fs'.disk 1 = fs.disk 1
  groupsOnDisk : fs'.disk 2 = fs.disk 2
  inodeTables : ∀ i, IsInode i → fs'.disk (inodeBlockAt i) = fs.disk (inodeBlockAt i)
  entries : ∀ p, entries fs'.disk p = entries fs.disk p

theorem Untouched.refl (fs : Fs) : Untouched fs fs :=
  ⟨fun _ _ => rfl, fun _ _ => rfl, rfl, rfl, rfl, rfl, fun _ _ => rfl, fun _ => rfl⟩

/-- `write` takes a block for the parent and then finds no inode: the parent is a directory with
    neither the name nor room, a block is free from its group on, and every inode is in use. -/
structure HalfGrows (request : EXT2DriverRequest) (fs : Fs) : Prop where
  dir : isDir fs.disk request.parentInode.toNat = true
  noRoom : scanParent request fs = none
  block : ∃ nb, parentBlock request fs = some nb
  noInode : ∀ i, IsInode i → inodeUsed fs.disk i = true

section Write

variable {request : EXT2DriverRequest} {fs : Fs}

/-- The hole path takes the inode first, so it fails before it has changed anything. -/
theorem writeHole_failed (hr : Ready fs) (blk off : Nat)
    (h : (writeHole request blk off fs).1 ≠ 0) : (writeHole request blk off fs).2 = fs := by
  unfold writeHole at h ⊢
  dsimp only at h ⊢
  rcases allocateNode_spec hr with ⟨he, -⟩ | ⟨i, fs₁, he, hi⟩
  · simp only [he, if_true]
  · simp only [he, if_neg hi.ne_zero] at h
    exact absurd rfl h

/-- The growth path takes the block first. -/
theorem writeGrow_failed (hr : Ready fs)
    (hscan : scanParent request fs = none) (buf : Mem) (h : (writeGrow request buf fs).1 ≠ 0) :
    (writeGrow request buf fs).2 = fs ∨
      (∀ i, IsInode i → inodeUsed fs.disk i = true) ∧
      ∃ nb, parentBlock request fs = some nb ∧ Grab fs (writeGrow request buf fs).2 [nb] := by
  unfold writeGrow at h ⊢
  dsimp only at h ⊢
  rcases growSearch_cases hr hscan with ⟨-, hs⟩ | ⟨nb, fs₀, hnb, hgrab, hne, hs⟩
  · left
    simp only [hs, if_true]
  · right
    simp only [hs, if_neg hne] at h ⊢
    rcases allocateNode_spec (hgrab.ready hr) with ⟨he, hall⟩ | ⟨i, fs₁, he, hi⟩
    · simp only [he, if_true]
      exact ⟨fun i hi => by rw [← hgrab.inodeUsed_eq hi]; exact hall i hi, nb, hnb, hgrab⟩
    · simp only [he, if_neg hi.ne_zero] at h
      exact absurd rfl h

/-- A `write` that fails changes nothing, or leaves the parent's block taken. -/
theorem write_failed (hr : Ready fs) (hp : IsInode request.parentInode.toNat)
    (h : (write request fs).1 ≠ 0) :
    (write request fs).2 = fs ∨
      HalfGrows request fs ∧ ∃ nb, Grab fs (write request fs).2 [nb] := by
  cases hd : isDir fs.disk request.parentInode.toNat with
  | false =>
    left
    rw [write_of_not_dir hr.layout hp hd]
  | true =>
    rw [write_of_dir hr.layout hp hd] at h ⊢
    cases hs : scanParent request fs with
    | some q =>
      left
      obtain ⟨b, sc⟩ := q
      rw [hs] at h
      cases sc with
      | done => rfl
      | duplicate => rfl
      | hole off => exact writeHole_failed hr b off h
    | none =>
      rw [hs] at h
      dsimp only at h ⊢
      rcases writeGrow_failed hr hs _ h with he | ⟨hall, nb, hnb, hgrab⟩
      · exact Or.inl he
      · exact Or.inr ⟨⟨hd, hs, ⟨nb, hnb⟩, hall⟩, nb, hgrab⟩

/-- When the block is taken and no inode is found, `write` fails with the block taken. -/
theorem HalfGrows.fails (h : HalfGrows request fs) (hr : Ready fs)
    (hp : IsInode request.parentInode.toNat) :
    ∃ nb fs₀, growSearch (List.range' (inodeToBgd request.parentInode.toNat)
        (8 - inodeToBgd request.parentInode.toNat)) fs = (nb, fs₀) ∧ Grab fs fs₀ [nb] ∧
      write request fs = (-1, fs₀) := by
  rw [write_of_dir hr.layout hp h.dir, h.noRoom]
  dsimp only
  unfold writeGrow
  dsimp only
  obtain ⟨nb, hnb⟩ := h.block
  rcases growSearch_cases hr h.noRoom with ⟨hnone, -⟩ | ⟨nb, fs₀, -, hgrab, hne, hs⟩
  · rw [hnb] at hnone; cases hnone
  · refine ⟨nb, fs₀, hs, hgrab, ?_⟩
    rcases allocateNode_spec (hgrab.ready hr) with ⟨he, -⟩ | ⟨i, fs₁, -, hi⟩
    · simp only [hs, if_neg hne, he, if_true]
    · have hu := h.noInode i hi.isInode
      rw [← hgrab.inodeUsed_eq hi.isInode, hi.fresh] at hu
      cases hu

end Write

/-- A `delete` that fails changes nothing. -/
theorem delete_failed {request : EXT2DriverRequest} {fs : Fs} (h : (delete request fs).1 ≠ 0) :
    (delete request fs).2 = fs := by
  unfold delete at h ⊢
  dsimp only at h ⊢
  split
  · rfl
  · rename_i h0
    rw [if_neg h0] at h
    split
    · rfl
    · rename_i h1
      rw [if_neg h1] at h
      split
      · rfl
      · rename_i r hr
        rw [hr] at h
        dsimp only at h
        split_ifs at h ⊢ <;> first | rfl | exact absurd rfl h

/-- A taken block is a change. -/
theorem Grab.not_untouched {fs fs' : Fs} {nb : Nat} (h : Grab fs fs' [nb]) :
    ¬ Untouched fs fs' := by
  intro hu
  have hb := (h.data nb (by simp)).1
  have h1 := h.used_of_mem (b := nb) (by simp)
  have h2 := h.fresh nb (by simp)
  unfold blockUsed at h1 h2
  rw [hu.blockBitmaps (nb / 256) (by omega), h2] at h1
  cases h1

/-- A call that fails changes nothing, if and only if it is not a `write` that takes a block for
    the parent and then finds no inode. -/
theorem call_failed_iff {c : Call} {fs : Fs} (hr : Ready fs)
    (hp : IsInode c.request.parentInode.toNat) :
    ((c.run fs).1 ≠ 0 → Untouched fs (c.run fs).2) ↔
      ∀ request, c = .write request → ¬ HalfGrows request fs := by
  cases c with
  | write request =>
    constructor
    · rintro h r hc hg
      cases hc
      obtain ⟨nb, fs₀, -, hgrab, he⟩ := hg.fails hr hp
      rw [Call.run_write, he] at h
      exact hgrab.not_untouched (h (show (-1 : Int) ≠ 0 by decide))
    · intro h hcode
      rw [Call.run_write] at hcode ⊢
      rcases write_failed hr hp hcode with he | ⟨hg, -⟩
      · rw [show (write request fs).2 = fs from he]
        exact Untouched.refl fs
      · exact absurd hg (h request rfl)
  | delete request =>
    refine iff_of_true (fun hcode => ?_) fun _ hc => by cases hc
    rw [Call.run_delete, delete_failed hcode]
    exact Untouched.refl fs

/-! ## No inode left -/

section GrabInode

variable {fs fs' : Fs} {i : Nat}

theorem GrabInode.isDirectory (h : GrabInode fs fs' i) (hz : ∀ o, slot fs.disk i o = 0) {p : Nat}
    (hp : IsDirectory fs'.disk p) : IsDirectory fs.disk p := by
  have hd : isDir fs.disk p = true := by
    rw [← hp.dir]
    exact isDir_congr (by rw [h.slot_eq])
  have hpi : p ≠ i := by
    rintro rfl
    rw [isDir_zero hz] at hd
    cases hd
  refine ⟨hp.isInode, ?_, hd⟩
  have := hp.used
  rw [h.used p hp.isInode] at this
  simpa [hpi] using this

/-- An inode that is taken and left empty reaches nothing. -/
theorem GrabInode.consistent (h : GrabInode fs fs' i) (hc : Consistent fs) : Consistent fs' := by
  have hz := hc.freeSlot i h.isInode h.fresh
  have hdir : ∀ p, IsDirectory fs'.disk p → IsDirectory fs.disk p := fun _ hp => h.isDirectory hz hp
  refine ⟨h.ready hc.ready, ?_, fun j hj hu => ?_, fun p hp => ?_, fun p hp => ?_⟩
  · refine hc.owned.grow (L := []) (fun _ => []) (by simp) (fun b _ => by simp [h.blockUsed_eq])
      (fun _ => ⟨List.nodup_nil, by simp⟩) (by simp) fun j hj hu => ?_
    rw [h.used j hj, Bool.or_eq_true, decide_eq_true_eq] at hu
    rcases hu with hu | rfl
    · refine Or.inl ⟨hu, ?_⟩
      rw [List.append_nil]
      exact reach_congr (h.slot_eq j) fun b hb => h.data_eq (hc.owned.data j hj hu b hb).1
    · exact Or.inr (reach_zero fun o => by rw [h.slot_eq]; exact hz o)
  · rw [h.used j hj, Bool.or_eq_false_iff] at hu
    intro o
    rw [h.slot_eq]
    exact hc.freeSlot j hj hu.1 o
  · have hok := hc.dirOk p (hdir p hp)
    refine ⟨by rw [h.slot_eq]; exact hok.size, fun b hb => ?_⟩
    rw [h.slot_eq] at hb
    rw [h.data_eq (hc.dirBlock (hdir p hp) hb).1]
    exact hok.blocks b hb
  · rw [h.slot_eq]
    exact hc.dirFull p (hdir p hp)

end GrabInode

/-- `allocate_node`, `n` times. -/
def takeInodes : Nat → Fs → Fs
  | 0, fs => fs
  | n + 1, fs => (allocateNode (takeInodes n fs)).2

/-- `n` calls take the inodes up to `n`, and nothing else. -/
theorem takeInodes_spec {fs : Fs} (hc : Consistent fs) (n : Nat) :
    Consistent (takeInodes n fs) ∧ (∀ j, slot (takeInodes n fs).disk j = slot fs.disk j) ∧
      (∀ c, IsData c → (takeInodes n fs).disk c = fs.disk c) ∧
      (∀ b, blockUsed (takeInodes n fs).disk b = blockUsed fs.disk b) ∧
      ∀ j, IsInode j → j ≤ n ∨ inodeUsed fs.disk j = true →
        inodeUsed (takeInodes n fs).disk j = true := by
  induction n with
  | zero =>
    exact ⟨hc, fun _ => rfl, fun _ _ => rfl, fun _ => rfl,
      fun j hj h => h.elim (fun h0 => by have := hj.1; omega) id⟩
  | succ n ih =>
    obtain ⟨h1, h2, h3, h4, h5⟩ := ih
    unfold takeInodes
    generalize takeInodes n fs = fs₁ at *
    rcases allocateNode_spec h1.ready with ⟨he, hall⟩ | ⟨i, fs₂, he, hi⟩
    · rw [he]
      exact ⟨h1, h2, h3, h4, fun j hj _ => hall j hj⟩
    · rw [he]
      refine ⟨hi.consistent h1, fun j => (hi.slot_eq j).trans (h2 j),
        fun c hcd => (hi.data_eq hcd).trans (h3 c hcd),
        fun b => (hi.blockUsed_eq b).trans (h4 b), fun j hj h => ?_⟩
      rw [hi.used j hj, Bool.or_eq_true, decide_eq_true_eq]
      -- either `j` was in use, or it is the inode that was free first
      by_cases hu : inodeUsed fs₁.disk j = true
      · exact Or.inl hu
      · right
        have hn : ¬ j ≤ n := fun hle => hu (h5 j hj (Or.inl hle))
        have hge : i ≤ j := by
          by_contra hlt
          exact hu (hi.first j hj (by omega))
        have hle : ¬ i ≤ n := fun hle => by
          have := h5 i hi.isInode (Or.inl hle)
          rw [hi.fresh] at this
          cases this
        rcases h with h | h
        · omega
        · exact absurd (h5 j hj (Or.inr h)) hu

/-- A file system with one long name, all of whose inodes are in use. -/
def fullFs : Fs := takeInodes 896 longFs

theorem scanParent_none_iff {request : EXT2DriverRequest} {fs : Fs} (hc : Consistent fs)
    (hp : IsDirectory fs.disk request.parentInode.toNat) : scanParent request fs = none ↔
      firstHit request fs.disk request.parentInode.toNat = none := by
  have hok := hc.dirOk _ hp
  unfold scanParent
  rw [scanDir_eq (dirPtrs_view hc.ready.layout hp.isInode hok.size) hok.blocks,
    Option.map_eq_none_iff]
  rfl

theorem scanParent_eq_none {request : EXT2DriverRequest} {fs : Fs} (hc : Consistent fs)
    (hp : IsDirectory fs.disk request.parentInode.toNat)
    (hmiss : firstHit request fs.disk request.parentInode.toNat = none) :
    scanParent request fs = none := (scanParent_none_iff hc hp).mpr hmiss

/-- When no inode is left the parent still gets the block that it had got before. -/
theorem HalfGrows.of_takeInodes {request : EXT2DriverRequest} {fs fs' : Fs} (hc : Consistent fs)
    (hp : IsDirectory fs.disk request.parentInode.toNat)
    (hmiss : firstHit request fs.disk request.parentInode.toNat = none) {nb : Nat}
    (hnb : growthBlock request fs.disk = some nb) (he : fs' = takeInodes 896 fs) :
    Consistent fs' ∧ HalfGrows request fs' := by
  obtain ⟨hc', hslot, hdata, hblocks, hinodes⟩ := takeInodes_spec hc 896
  rw [← he] at hc' hslot hdata hblocks hinodes
  have hp' : IsDirectory fs'.disk request.parentInode.toNat :=
    ⟨hp.isInode, hinodes _ hp.isInode (Or.inl hp.isInode.2),
      (isDir_congr (by rw [hslot])).trans hp.dir⟩
  have hmiss' : firstHit request fs'.disk request.parentInode.toNat = none := by
    rw [← hmiss]
    unfold firstHit dirRecords
    rw [hslot, List.flatMap_congr fun b hb => by rw [hdata b (hc.dirBlock hp hb).1]]
  have hscan := scanParent_eq_none hc' hp' hmiss'
  refine ⟨hc', hp'.dir, hscan, ⟨nb, ?_⟩, fun i hi => hinodes i hi (Or.inl hi.2)⟩
  unfold growthBlock at hnb
  rw [hmiss] at hnb
  unfold parentBlock
  rw [hscan, ← hnb]
  unfold firstFreeBlock
  rw [show blockUsed fs'.disk = blockUsed fs.disk from funext hblocks]

/-- The second long name takes block 22 for the root directory, and gets no inode. -/
theorem fullFs_halfGrows : Consistent fullFs ∧ HalfGrows (longName 98) fullFs := by
  obtain ⟨hc, hp, hmiss, hnb, -⟩ := longFs_grows
  exact HalfGrows.of_takeInodes hc hp hmiss hnb rfl

/-- `write` fails there and leaves a block taken. -/
theorem write_failed_fullFs : Consistent fullFs ∧ IsInode (longName 98).parentInode.toNat ∧
    (write (longName 98) fullFs).1 = -1 ∧
    ¬ Untouched fullFs (write (longName 98) fullFs).2 := by
  have h := fullFs_halfGrows
  generalize fullFs = fs at h ⊢
  obtain ⟨hc, hg⟩ := h
  obtain ⟨nb, fs₀, -, hgrab, he⟩ := hg.fails hc.ready (by decide)
  rw [he]
  exact ⟨hc, by decide, rfl, hgrab.not_untouched⟩

/-- In `longFs`, which has free inodes, the same call cannot fail half way. -/
theorem call_failed_longFs :
    ((((Call.write (longName 98)).run longFs).1 ≠ 0 →
        Untouched longFs ((Call.write (longName 98)).run longFs).2) ↔
      ∀ request, Call.write (longName 98) = .write request → ¬ HalfGrows request longFs) ∧
      ¬ HalfGrows (longName 98) longFs := by
  obtain ⟨hc, -, -, -, hi⟩ := longFs_grows
  refine ⟨call_failed_iff hc.ready (by decide), fun hg => ?_⟩
  obtain ⟨h1, h2⟩ := firstFreeInode_some hi
  rw [hg.noInode 3 h1] at h2
  cases h2

end LossOs.Ext2
