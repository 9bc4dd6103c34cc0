/-
  Exclusive ownership of blocks.

  `write` keeps it on both paths, with one exception: when a new directory finds no free block
  from its group on, `init_directory_table` falls back to a fixed block, which is then in use
  (`write_exclusive_iff`). Nothing is assumed of what the directory blocks hold.
-/
import LossOs.Ext2.Growth

namespace LossOs.Ext2

open LossOs.Lib

/-! ## The state in which the inode is built -/

/-- What the pass of `write` over the parent finds. -/
def scanParent (request : EXT2DriverRequest) (fs : Fs) : Option (Nat × Scan) :=
  scanDir request (view (fs.readBlocks (fs.inodeBlock request.parentInode.toNat))
    (slotOffset request.parentInode.toNat)) fs

/-- The block that goes to the parent itself. -/
def parentBlock (request : EXT2DriverRequest) (fs : Fs) : Option Nat :=
  match scanParent request fs with
  | some _ => none
  | none => firstFreeBlock fs.disk (inodeToBgd request.parentInode.toNat)

/-- `write` gets as far as taking an inode: the parent is a directory, without the name, and with
    room or a free block to grow. -/
def Builds (request : EXT2DriverRequest) (fs : Fs) : Prop :=
  isDir fs.disk request.parentInode.toNat = true ∧
    ((∃ b off, scanParent request fs = some (b, .hole off)) ∨
      scanParent request fs = none ∧ ∃ nb, parentBlock request fs = some nb)

/-- The new inode and the state in which `write` builds it. -/
def creation (request : EXT2DriverRequest) (fs : Fs) : Option (Nat × Fs) :=
  let parentInode := request.parentInode.toNat
  let parent := view (fs.readBlocks (fs.inodeBlock parentInode)) (slotOffset parentInode)
  if parentInode = 0 ∨ iMode parent &&& 0x4000 = 0 then none
  else match scanParent request fs with
    | some (_, .hole _) =>
        let (newIno, fs) := allocateNode fs
        if newIno = 0 then none else some (newIno, fs)
    | some (_, _) => none
    | none =>
        let parentBgd := inodeToBgd parentInode
        let (newblock, fs) := growSearch (List.range' parentBgd (8 - parentBgd)) fs
        if newblock = 0 then none
        else
          let (newIno, fs) := allocateNode fs
          if newIno = 0 then none else some (newIno, fs)

section Creation

variable {request : EXT2DriverRequest} {fs : Fs} {i : Nat}

/-- `write` over a directory goes the way that the pass over it says. -/
theorem write_of_dir (hl : Layout fs) (hp : IsInode request.parentInode.toNat)
    (hd : isDir fs.disk request.parentInode.toNat = true) :
    write request fs = match scanParent request fs with
      | some (blk, .hole off) => writeHole request blk off fs
      | some (_, _) => (1, fs)
      | none =>
          writeGrow request (fs.readBlocks (inodeBlockAt request.parentInode.toNat)) fs := by
  unfold write
  dsimp only
  rw [if_neg (by have := hp.1; omega), iMode_view hl hp, if_neg (isDir_eq_true.mp hd),
    ← hl.inodeBlock_eq hp]
  rfl

theorem parentBlock_of_scan {q : Nat × Scan} (h : scanParent request fs = some q) :
    parentBlock request fs = none := by
  unfold parentBlock; rw [h]

theorem parentBlock_of_none (h : scanParent request fs = none) : parentBlock request fs =
    firstFreeBlock fs.disk (inodeToBgd request.parentInode.toNat) := by
  unfold parentBlock; rw [h]

/-- The block for the parent, as the code searches it. -/
theorem growSearch_cases (hr : Ready fs) (hscan : scanParent request fs = none) :
    (parentBlock request fs = none ∧
      growSearch (List.range' (inodeToBgd request.parentInode.toNat)
        (8 - inodeToBgd request.parentInode.toNat)) fs = (0, fs)) ∨
    ∃ nb fs₀, parentBlock request fs = some nb ∧ Grab fs fs₀ [nb] ∧ nb ≠ 0 ∧
      growSearch (List.range' (inodeToBgd request.parentInode.toNat)
        (8 - inodeToBgd request.parentInode.toNat)) fs = (nb, fs₀) := by
  have hsearch := growSearch_eq hr (inodeToBgd request.parentInode.toNat)
  have hpb := parentBlock_of_none hscan
  rcases searchBlock_spec hr (inodeToBgd request.parentInode.toNat) with
    ⟨hnone, hex⟩ | ⟨nb, fs₀, hsome, hge, hgrab, hfst⟩
  · left
    rw [hnone] at hsearch
    refine ⟨?_, hsearch⟩
    rw [hpb]
    exact firstFreeBlock_eq_none hex
  · right
    rw [hsome] at hsearch
    have hnb := hgrab.data nb (by simp)
    refine ⟨nb, fs₀, ?_, hgrab, hnb.ne_zero, hsearch⟩
    rw [hpb]
    exact firstFreeBlock_eq hnb.1 hge (hgrab.fresh nb (by simp)) hfst

theorem allocateNode_first {fs₀ : Fs} {M : List Nat} (hr : Ready fs) (hg : Grab fs fs₀ M)
    (hi : firstFreeInode fs.disk = some i) :
    ∃ fs₁, allocateNode fs₀ = (i, fs₁) ∧ GrabInode fs₀ fs₁ i := by
  obtain ⟨h1, h2⟩ := firstFreeInode_some hi
  rcases allocateNode_spec (hg.ready hr) with ⟨-, hall⟩ | ⟨j, fs₁, he, hj⟩
  · have := hall i h1
    rw [hg.inodeUsed_eq h1, h2] at this
    cases this
  · have := firstFreeInode_eq hj.isInode (by rw [← hg.inodeUsed_eq hj.isInode]; exact hj.fresh)
      fun k hk hlt => by rw [← hg.inodeUsed_eq hk]; exact hj.first k hk hlt
    rw [hi, Option.some.injEq] at this
    subst this
    exact ⟨fs₁, he, hj⟩

/-- The inode is built in the state in which the parent's block and the inode are taken. -/
theorem creation_eq (hr : Ready fs) (hp : IsInode request.parentInode.toNat)
    (hb : Builds request fs) (hi : firstFreeInode fs.disk = some i) :
    ∃ fs₀ fs₁, creation request fs = some (i, fs₁) ∧
      Grab fs fs₀ (parentBlock request fs).toList ∧ GrabInode fs₀ fs₁ i := by
  obtain ⟨hd, hscan⟩ := hb
  have hdir : ¬ (request.parentInode.toNat = 0 ∨
      iMode (view (fs.readBlocks (fs.inodeBlock request.parentInode.toNat))
        (slotOffset request.parentInode.toNat)) &&& 0x4000 = 0) := by
    rw [iMode_view hr.layout hp]
    exact fun hc => hc.elim (by have := hp.1; omega) (isDir_eq_true.mp hd)
  unfold creation
  dsimp only
  rw [if_neg hdir]
  rcases hscan with ⟨b, off, hs⟩ | ⟨hs, nb, hpb⟩
  · obtain ⟨fs₁, he, hg⟩ := allocateNode_first hr (Grab.refl fs) hi
    rw [parentBlock_of_scan hs]
    refine ⟨fs, fs₁, ?_, Grab.refl fs, hg⟩
    simp only [hs, he, if_neg hg.ne_zero]
  · rcases growSearch_cases hr hs with ⟨hnone, -⟩ | ⟨nb', fs₀, hsome, hgrab, hne, hsearch⟩
    · rw [hpb] at hnone; cases hnone
    · obtain ⟨fs₁, he, hg⟩ := allocateNode_first hr hgrab hi
      rw [hsome]
      refine ⟨fs₀, fs₁, ?_, hgrab, hg⟩
      simp only [hs, hsearch, if_neg hne, he, if_neg hg.ne_zero]

/-- An inode is built only when there is one, and only where `Builds` says so. -/
theorem creation_some (hr : Ready fs) (hp : IsInode request.parentInode.toNat) {fs₁ : Fs}
    (h : creation request fs = some (i, fs₁)) :
    Builds request fs ∧ firstFreeInode fs.disk = some i := by
  unfold creation at h
  dsimp only at h
  split at h
  · cases h
  · rename_i hdir
    rw [not_or, iMode_view hr.layout hp] at hdir
    have hd := isDir_eq_true.mpr hdir.2
    cases hs : scanParent request fs with
    | some q =>
      obtain ⟨b, sc⟩ := q
      rw [hs] at h
      cases sc with
      | done => cases h
      | duplicate => cases h
      | hole off =>
        refine ⟨⟨hd, Or.inl ⟨b, off, hs⟩⟩, ?_⟩
        rcases allocateNode_spec hr with ⟨he, -⟩ | ⟨j, fs₂, he, hj⟩
        · simp [he] at h
        · simp only [he, if_neg hj.ne_zero, Option.some.injEq, Prod.mk.injEq] at h
          rw [← h.1]
          exact firstFreeInode_eq hj.isInode hj.fresh hj.first
    | none =>
      rw [hs] at h
      rcases growSearch_cases hr hs with ⟨-, hsearch⟩ | ⟨nb, fs₀, hsome, hgrab, hne, hsearch⟩
      · simp [hsearch] at h
      · refine ⟨⟨hd, Or.inr ⟨hs, nb, hsome⟩⟩, ?_⟩
        rcases allocateNode_spec (hgrab.ready hr) with ⟨he, -⟩ | ⟨j, fs₂, he, hj⟩
        · simp [hsearch, he] at h
        · simp only [hsearch, if_neg hne, he, if_neg hj.ne_zero, Option.some.injEq,
            Prod.mk.injEq] at h
          rw [← h.1]
          exact firstFreeInode_eq hj.isInode
            (by rw [← hgrab.inodeUsed_eq hj.isInode]; exact hj.fresh)
            fun k hk hlt => by rw [← hgrab.inodeUsed_eq hk]; exact hj.first k hk hlt

end Creation

/-! ## The directory block -/

/-- The free blocks from group `g` on that are left for a directory. -/
def DirBlockLeft (request : EXT2DriverRequest) (fs : Fs) (g : Nat) : Prop :=
  ∃ b ∈ freeFrom fs.disk g, parentBlock request fs ≠ some b

/-- The block that `init_directory_table` formats was free if and only if one was left. -/
theorem pickDirBlock_free_iff {request : EXT2DriverRequest} {fs fs₀ fs₁ : Fs} {i : Nat}
    (hr : Ready fs) (hg : Grab fs fs₀ (parentBlock request fs).toList)
    (hi : GrabInode fs₀ fs₁ i) :
    blockUsed fs₁.disk (pickDirBlock (inodeToBgd i) fs₁).1 = false ↔
      DirBlockLeft request fs (inodeToBgd i) := by
  have hused : ∀ b < 2048, blockUsed fs₁.disk b =
      (blockUsed fs.disk b || decide (parentBlock request fs = some b)) := by
    intro b hb
    rw [hi.blockUsed_eq, hg.used b hb]
    cases parentBlock request fs with
    | none => simp
    | some nb => simp [eq_comm]
  have hr₁ := hi.ready (hg.ready hr)
  rcases pickDirBlock_spec hr₁ (inodeToBgd i) with ⟨b, fs₂, hpick, hgrab, hge⟩ | ⟨hex, hpick⟩
  · have hb := hgrab.data b (by simp)
    have hf := hgrab.fresh b (by simp)
    have hf' := hf
    rw [hused b hb.1, Bool.or_eq_false_iff, decide_eq_false_iff_not] at hf'
    rw [hpick]
    exact iff_of_true hf ⟨b, mem_freeFrom.mpr ⟨hb.1, hge, hf'.1⟩, hf'.2⟩
  · have hfb := isData_fallbackBlock (inodeToBgd_lt hi.isInode)
    have hge : 256 * inodeToBgd i ≤ fallbackBlock (inodeToBgd i) := by
      unfold fallbackBlock
      split <;> omega
    rw [hpick]
    apply iff_of_false (by rw [hex _ hfb.1 hge]; decide)
    rintro ⟨b, hb, hne⟩
    obtain ⟨h1, h2, h3⟩ := mem_freeFrom.mp hb
    have := hex b h1 h2
    rw [hused b h1, h3] at this
    exact hne (by simpa using this)

/-! ## Ownership after `write` -/

/-- After `write` no block is reached twice, none of them is metadata, and the block that was
    formatted for a new directory was free when `init_directory_table` picked it. -/
structure Exclusive (request : EXT2DriverRequest) (fs : Fs) : Prop where
  owned : Ownership (write request fs).2.disk
  fresh : isDirRequest request = true → ∀ i fs₁, creation request fs = some (i, fs₁) →
    blockUsed fs₁.disk (pickDirBlock (inodeToBgd i) fs₁).1 = false

theorem Grab.owned {fs fs' : Fs} {L : List Nat} (h : Grab fs fs' L) (ho : Ownership fs.disk) :
    Ownership fs'.disk := by
  apply ho.shrink
  intro j hj hu
  rw [h.inodeUsed_eq hj] at hu
  refine ⟨hu, reach_congr (h.slot_eq j) fun c hcr => ?_, fun c hcr => ?_⟩
  · obtain ⟨h1, h2⟩ := ho.data j hj hu c hcr
    exact h.data_eq h1 (h.not_mem_of_used h2)
  · obtain ⟨h1, h2⟩ := ho.data j hj hu c hcr
    exact h.used_mono h1.1 h2

/-- The pass stops in a block of the parent. -/
theorem scanParent_mem {request : EXT2DriverRequest} {fs : Fs} (hl : Layout fs)
    (hp : IsInode request.parentInode.toNat)
    (h15 : iBlocks (slot fs.disk request.parentInode.toNat) ≤ 15) {b : Nat} {sc : Scan}
    (hs : scanParent request fs = some (b, sc)) :
    b ∈ dirBlocks (slot fs.disk request.parentInode.toNat) := by
  obtain ⟨c, hc, he⟩ := List.exists_of_findSome?_eq_some hs
  rw [show (List.range _).map _ = dirPtrs _ from rfl, dirPtrs_view hl hp h15] at hc
  split at he
  · cases he
  · rename_i hc0
    have hcb : c = b := by
      split at he
      · cases he
      · simpa using congrArg (fun q => q.1) (Option.some.inj he)
    rw [dirBlocks_eq, List.mem_filter]
    exact ⟨hcb ▸ hc, by simpa using hcb ▸ hc0⟩

/-- Without the fallback `write` keeps ownership. -/
theorem write_owned {request : EXT2DriverRequest} {fs : Fs} (hr : Ready fs)
    (ho : Ownership fs.disk) (hz : FreeSlots fs.disk) (hp : IsInode request.parentInode.toNat)
    (hn : iBlocks (slot fs.disk request.parentInode.toNat) < 15)
    (hleft : isDirRequest request = true → Builds request fs →
      ∀ i, firstFreeInode fs.disk = some i →
      DirBlockLeft request fs (inodeToBgd i)) : Ownership (write request fs).2.disk := by
  cases hd : isDir fs.disk request.parentInode.toNat with
  | false => rw [write_of_not_dir hr.layout hp hd]; exact ho
  | true =>
    have hdir := hz.isDirectory hp hd
    rw [write_of_dir hr.layout hp hd]
    cases hs : scanParent request fs with
    | some q =>
      obtain ⟨b, sc⟩ := q
      cases sc with
      | done => exact ho
      | duplicate => exact ho
      | hole off =>
        dsimp only
        have hb := scanParent_mem hr.layout hp (by omega) hs
        have hreach := hb
        rw [← reach_of_dir hd] at hreach
        obtain ⟨h1, h2⟩ := ho.data _ hp hdir.used b hreach
        rcases writeHole_spec request hr hz h1 h2 off with
          ⟨-, he⟩ | ⟨i, fs', ni, L, X, he, hhole⟩
        · rw [he]; exact ho
        · rw [he]
          have hX : X = [] := hhole.room_iff.mpr fun hreq => by
            obtain ⟨c, hc, -⟩ := hleft hreq ⟨hd, Or.inl ⟨b, off, hs⟩⟩ i hhole.took.firstFreeInode
            exact ⟨c, hc⟩
          subst hX
          exact hhole.owned ho hdir hb
    | none =>
      dsimp only
      have hpb : parentBlock request fs =
          firstFreeBlock fs.disk (inodeToBgd request.parentInode.toNat) := by
        unfold parentBlock; rw [hs]
      rcases writeGrow_spec request hr hz hp with
        ⟨-, he⟩ | ⟨nb, fs₀, hgrab, hge, hfst, ⟨-, he⟩ | ⟨i, fs', ni, L, X, he, hgrow⟩⟩
      · rw [he]; exact ho
      · rw [he]; exact hgrab.owned ho
      · rw [he]
        have hnb := firstFreeBlock_eq (hgrab.data nb (by simp)).1 hge
          (hgrab.fresh nb (by simp)) hfst
        rw [← hpb] at hnb
        have hX : X = [] := (hgrow.room_iff hgrab).mpr fun hreq => by
          obtain ⟨c, hc, hne⟩ := hleft hreq ⟨hd, Or.inr ⟨hs, nb, hnb⟩⟩ i hgrow.took.firstFreeInode
          obtain ⟨h1, h2, h3⟩ := mem_freeFrom.mp hc
          refine ⟨c, mem_freeFrom.mpr ⟨h1, h2, ?_⟩⟩
          have : c ≠ nb := fun hcn => hne (by rw [hnb, hcn])
          rw [hgrab.used c h1, h3]
          simp [this]
        subst hX
        exact hgrow.owned ho hz hdir hn

/-- Ownership stays exclusive if and only if a directory that is built finds a free block from
    the group of its inode on. -/
theorem write_exclusive_iff {request : EXT2DriverRequest} {fs : Fs} (hr : Ready fs)
    (ho : Ownership fs.disk) (hz : FreeSlots fs.disk) (hp : IsInode request.parentInode.toNat)
    (h12 : ∀ p, IsDirectory fs.disk p → iBlocks (slot fs.disk p) ≤ 12) :
    Exclusive request fs ↔ (isDirRequest request = true → Builds request fs →
      ∀ i, firstFreeInode fs.disk = some i → DirBlockLeft request fs (inodeToBgd i)) := by
  constructor
  · intro hx hreq hb i hi
    obtain ⟨fs₀, fs₁, hcr, hg, hgi⟩ := creation_eq hr hp hb hi
    exact (pickDirBlock_free_iff hr hg hgi).mp (hx.fresh hreq i fs₁ hcr)
  · intro hleft
    refine ⟨?_, fun hreq i fs₁ hcr => ?_⟩
    · cases hd : isDir fs.disk request.parentInode.toNat with
      | false => rw [write_of_not_dir hr.layout hp hd]; exact ho
      | true =>
        have := h12 _ (hz.isDirectory hp hd)
        exact write_owned hr ho hz hp (by omega) hleft
    · obtain ⟨hb, hi⟩ := creation_some hr hp hcr
      obtain ⟨fs₀, fs₂, hcr', hg, hgi⟩ := creation_eq hr hp hb hi
      rw [hcr, Option.some.injEq, Prod.mk.injEq] at hcr'
      obtain ⟨-, rfl⟩ := hcr'
      exact (pickDirBlock_free_iff hr hg hgi).mpr (hleft hreq hb i hi)

/-! ## A full disk -/

/-- A file of a megabyte, more than the disk has left. -/
def bigRequest : EXT2DriverRequest := { rootRequest [97] [] false with bufferSize := 1048576 }

/-- A fresh file system after that file, which is stored in part and takes every block. -/
def bigFs : Fs := (write bigRequest freshFs).2

theorem firstFile_bigFs : ∃ ni L, FirstEntry bigRequest freshFs bigFs ni L :=
  (isFresh_freshFs.formatted.write_first bigRequest rfl (by decide) (by decide)).2

theorem bigFs_full {b : Nat} (hb : b < 2048) : blockUsed bigFs.disk b = true := by
  obtain ⟨ni, L, h⟩ := firstFile_bigFs
  have hcount : blockCount bigRequest = 2048 := by decide
  rw [h.hole.took.blocks b hb]
  cases hf : blockUsed freshFs.disk b with
  | true => rfl
  | false =>
    have hfree : b ∈ freeFrom freshFs.disk (inodeToBgd 2) :=
      mem_freeFrom.mpr ⟨hb, Nat.zero_le _, hf⟩
    cases h.hole.made with
    | file t _ _ _ hfull hall =>
      rcases hall with hall | hall
      · have h1 := hfull.mp hall
        have h2 := card_freeFrom_le freshFs.disk (inodeToBgd 2)
        rw [hcount] at h1
        exact absurd (h1.trans h2) (by decide)
      · simp [hall b hfree]
    | dir c hd => exact absurd hd (by decide)

/-- On the full disk a new directory gets the block of the root directory. -/
theorem write_not_exclusive : Consistent bigFs ∧
    (∀ p, IsDirectory bigFs.disk p → iBlocks (slot bigFs.disk p) ≤ 12) ∧
    (write (rootRequest [98] [] true) bigFs).1 = 0 ∧
    IsDirectory (write (rootRequest [98] [] true) bigFs).2.disk 1 ∧
    IsDirectory (write (rootRequest [98] [] true) bigFs).2.disk 3 ∧
    21 ∈ reach (write (rootRequest [98] [] true) bigFs).2.disk 1 ∧
    21 ∈ reach (write (rootRequest [98] [] true) bigFs).2.disk 3 ∧
    ¬ Exclusive (rootRequest [98] [] true) bigFs := by
  have hf := isFresh_freshFs.formatted
  obtain ⟨ni, L, h⟩ := firstFile_bigFs
  have hc := h.created.consistent
  have hroot : IsDirectory bigFs.disk 1 := (h.isDirectory_iff hf (by decide)).mpr rfl
  have hdirs : ∀ p, IsDirectory bigFs.disk p → iBlocks (slot bigFs.disk p) ≤ 12 := by
    intro p hp
    obtain rfl := (h.isDirectory_iff hf (by decide)).mp hp
    rw [h.iBlocks_root hf]
    decide
  have hfree : firstFreeInode bigFs.disk = some 3 := by
    refine firstFreeInode_eq (by decide) ?_ fun j hj hlt => ?_
    · rw [h.created.inodes 3 (by decide), hf.inodes 3 (by decide)]
      rfl
    · rw [h.created.inodes j hj, hf.inodes j hj]
      have := hj.1
      simp only [Bool.or_eq_true, decide_eq_true_iff]
      omega
  have hhit : firstHit (rootRequest [98] [] true) bigFs.disk 1 =
      some (21, newRec bigRequest 2 24 488) := by
    unfold firstHit
    rw [h.blocks]
    unfold dirRecords
    rw [List.flatMap_singleton, h.records]
    decide
  obtain ⟨hcode, ni', L', X, hh⟩ := write_hole (rootRequest [98] [] true) hc.ready
    hc.freeSlot hroot.isInode hroot.dir (hc.parentOk hroot.isInode hroot.dir) hhit (by decide) hfree
  generalize hfs : (write (rootRequest [98] [] true) bigFs).2 = fs' at hh ⊢
  -- the new directory finds no free block
  have hnone : ∀ c, IsData c → blockUsed bigFs.disk c ≠ false := fun c hd => by
    rw [bigFs_full hd.1]; decide
  have hdir := hh.made.isDir_eq hh.slotSelf
  have hblock : dirBlocks (slot fs'.disk 3) = [21] := by
    cases hh.made with
    | file t hreg => exact absurd hreg (by decide)
    | dir b => exact absurd (hh.took.fresh b (by simp)) (hnone b (hh.took.data b (by simp)))
    | fallback _ _ hnode =>
      rw [dirBlocks_eq, hnode.dirPtrs_slot hh.slotSelf]
      rfl
  have hold : slot fs'.disk 1 = slot bigFs.disk 1 := hh.slot_eq (by decide) (by decide)
  have h1 : IsDirectory fs'.disk 1 := by
    refine ⟨by decide, ?_, (isDir_congr (by rw [hold])).trans hroot.dir⟩
    rw [hh.took.inodes 1 (by decide), hroot.used]
    rfl
  have h3 : IsDirectory fs'.disk 3 := by
    refine ⟨by decide, ?_, hdir⟩
    rw [hh.took.inodes 3 (by decide)]
    simp
  have hr1 : 21 ∈ reach fs'.disk 1 := by
    rw [reach_of_dir h1.dir, hold, h.blocks]
    simp
  have hr3 : 21 ∈ reach fs'.disk 3 := by
    rw [reach_of_dir h3.dir, hblock]
    simp
  refine ⟨hc, hdirs, hcode, h1, h3, hr1, hr3, fun hx => ?_⟩
  have hown := hx.owned
  rw [hfs] at hown
  exact hown.disjoint 1 3 h1.isInode h3.isInode h1.used h3.used (by decide) 21 hr1 hr3

theorem write_exclusive_iff_fresh : Exclusive (rootRequest [98] [] true) freshFs ↔
    (isDirRequest (rootRequest [98] [] true) = true → Builds (rootRequest [98] [] true) freshFs →
      ∀ i, firstFreeInode freshFs.disk = some i →
        DirBlockLeft (rootRequest [98] [] true) freshFs (inodeToBgd i)) := by
  have hf := isFresh_freshFs.formatted
  have hc := hf.consistent
  apply write_exclusive_iff hc.ready hc.owned hc.freeSlot (by decide)
  intro p hp
  rw [hf.isDirectory_iff.mp hp, hf.iBlocks_root]
  decide

end LossOs.Ext2
