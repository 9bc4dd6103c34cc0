/-
  How far a directory grows.

  Growth appends a pointer at the index `i_blocks`, which is not checked. As long as no call
  grows a directory that has 15 blocks, the calls into it change no slot of an inode but its own
  and that of the new inode, and its `i_blocks` stays at most 15 (`growth_inside`). Nothing is
  assumed of what the directory blocks hold. Fifteen names of 255 bytes fill a fresh root
  directory (`LongDir`), and the sixteenth goes over the slot of inode 2 (`growth_overflows`).
-/
import LossOs.Ext2.Failure

namespace LossOs.Ext2

open LossOs.Lib

/-- `write` grows a parent whose 15 pointers are all in use: it has neither the name nor room,
    and there are a free block and a free inode. -/
structure Overflows (request : EXT2DriverRequest) (fs : Fs) : Prop where
  noRoom : scanParent request fs = none
  block : ∃ nb, parentBlock request fs = some nb
  inode : ∃ i, firstFreeInode fs.disk = some i
  full : iBlocks (slot fs.disk request.parentInode.toNat) = 15

/-- The call changes no slot but that of the parent and that of an inode it allocates, and the
    parent does not outgrow its pointers. -/
structure StaysInside (request : EXT2DriverRequest) (fs fs' : Fs) : Prop where
  slots : ∀ j, IsInode j → j ≠ request.parentInode.toNat →
    ¬ (inodeUsed fs.disk j = false ∧ inodeUsed fs'.disk j = true) →
    slot fs'.disk j = slot fs.disk j
  size : iBlocks (slot fs'.disk request.parentInode.toNat) ≤ 15

/-- A state in which `p` is a directory within its pointers, all of which are to data in use. -/
structure Hosts (p : Nat) (fs : Fs) : Prop where
  ready : Ready fs
  freeSlot : FreeSlots fs.disk
  dir : IsDirectory fs.disk p
  size : iBlocks (slot fs.disk p) ≤ 15
  data : ∀ b ∈ dirBlocks (slot fs.disk p), IsData b ∧ blockUsed fs.disk b = true

/-- A `write` into directory `p` that does not outgrow it. -/
def IntoDir (p : Nat) (c : Call) (fs : Fs) : Prop :=
  ∃ request, c = .write request ∧ request.parentInode.toNat = p ∧ ¬ Overflows request fs

section Hosts

variable {request : EXT2DriverRequest} {fs fs₀ fs' : Fs} {p nb b off i : Nat} {ni : Mem}
  {L X : List Nat}

theorem Consistent.hosts (hc : Consistent fs) (hp : IsDirectory fs.disk p) : Hosts p fs :=
  ⟨hc.ready, hc.freeSlot, hp, (hc.dirOk p hp).size, fun _ hb =>
    ⟨(hc.dirBlock hp hb).1, (hc.dirBlock hp hb).2.1⟩⟩

theorem Hosts.withStack (h : Hosts p fs) (s : Mem) : Hosts p (fs.withStack s) :=
  ⟨h.ready.withStack s, h.freeSlot, h.dir, h.size, h.data⟩

theorem Hosts.unchanged (h : Hosts request.parentInode.toNat fs) : StaysInside request fs fs :=
  ⟨fun _ _ _ _ => rfl, h.size⟩

/-! ## Steps -/

theorem Hosts.hole (h : Hosts p fs) (hh : Hole request b off fs fs' i ni L X) : Hosts p fs' := by
  have hne : p ≠ i := by
    rintro rfl
    have := hh.took.freshInode
    rw [h.dir.used] at this
    cases this
  have hslot := hh.slot_eq h.dir.isInode hne
  refine ⟨hh.took.ready h.ready, fun j hj hu => ?_, ⟨h.dir.isInode, ?_, ?_⟩, ?_, fun c hc => ?_⟩
  · rw [hh.took.inodes j hj, Bool.or_eq_false_iff, decide_eq_false_iff_not] at hu
    rw [hh.slot_eq hj hu.2]
    exact h.freeSlot j hj hu.1
  · rw [hh.took.inodes p h.dir.isInode, h.dir.used]
    rfl
  · exact (isDir_congr (by rw [hslot])).trans h.dir.dir
  · rw [hslot]
    exact h.size
  · rw [hslot] at hc
    obtain ⟨h1, h2⟩ := h.data c hc
    exact ⟨h1, by rw [hh.took.blocks c h1.1, h2]; rfl⟩

theorem Hole.staysInside (hh : Hole request b off fs fs' i ni L X)
    (h : Hosts request.parentInode.toNat fs) : StaysInside request fs fs' := by
  refine ⟨fun j hj _ hold => hh.slot_eq hj fun hji => hold ?_, (h.hole hh).size⟩
  rw [hji]
  refine ⟨hh.took.freshInode, ?_⟩
  rw [hh.took.inodes i hh.took.isInode, decide_eq_true rfl, Bool.or_true]

theorem Hosts.grab (h : Hosts p fs) (hg : Grab fs fs' L) : Hosts p fs' := by
  refine ⟨hg.ready h.ready, fun j hj hu => ?_, ⟨h.dir.isInode, ?_, ?_⟩, ?_, fun c hc => ?_⟩
  · rw [hg.slot_eq]
    exact h.freeSlot j hj (by rw [← hg.inodeUsed_eq hj]; exact hu)
  · rw [hg.inodeUsed_eq h.dir.isInode]
    exact h.dir.used
  · exact (isDir_congr (by rw [hg.slot_eq])).trans h.dir.dir
  · rw [hg.slot_eq]
    exact h.size
  · rw [hg.slot_eq] at hc
    obtain ⟨h1, h2⟩ := h.data c hc
    exact ⟨h1, hg.used_mono h1.1 h2⟩

theorem Hosts.grow (h : Hosts p fs) (hn : iBlocks (slot fs.disk p) < 15)
    (hg : Grow request p nb fs fs₀ fs' i ni L X) : Hosts p fs' := by
  have hp := h.dir.isInode
  have hnb : IsData nb := hg.took.data nb List.mem_cons_self
  obtain ⟨hmode, hsize, -⟩ := hg.parent_fields hn.le hnb.1
  refine ⟨hg.took.ready h.ready, fun j hj hu => ?_, ⟨hp, ?_, ?_⟩, ?_, fun c hc => ?_⟩
  · rw [hg.took.inodes j hj, Bool.or_eq_false_iff, decide_eq_false_iff_not] at hu
    have hjp : j ≠ p := by
      rintro rfl
      rw [h.dir.used] at hu
      exact Bool.noConfusion hu.1
    rw [hg.slot_other hp hn hj hjp hu.2]
    exact h.freeSlot j hj hu.1
  · rw [hg.took.inodes p hp, h.dir.used]
    rfl
  · exact (isDir_congr hmode).trans h.dir.dir
  · rw [hsize]
    exact hn
  · rw [hg.blocks_eq hn hnb] at hc
    rcases List.mem_append.mp hc with hc | hc
    · obtain ⟨h1, h2⟩ := h.data c hc
      exact ⟨h1, by rw [hg.took.blocks c h1.1, h2]; rfl⟩
    · rw [List.mem_singleton.mp hc]
      exact hg.took.used_of_mem nb List.mem_cons_self

theorem Grow.staysInside (hg : Grow request request.parentInode.toNat nb fs fs₀ fs' i ni L X)
    (h : Hosts request.parentInode.toNat fs)
    (hn : iBlocks (slot fs.disk request.parentInode.toNat) < 15) : StaysInside request fs fs' := by
  refine ⟨fun j hj hjp hold => hg.slot_other h.dir.isInode hn hj hjp fun hji => hold ?_,
    (h.grow hn hg).size⟩
  rw [hji]
  refine ⟨hg.took.freshInode, ?_⟩
  rw [hg.took.inodes i hg.took.isInode, decide_eq_true rfl, Bool.or_true]

/-- A `write` over a directory, from `fs` to the return code and the state afterwards, by what its
    pass over the directory finds. -/
inductive Scanned (request : EXT2DriverRequest) (fs : Fs) : Int → Fs → Prop
  | stop (b : Nat) (sc : Scan) : scanParent request fs = some (b, sc) → (∀ off, sc ≠ .hole off) →
      Scanned request fs 1 fs
  | noInode (b off : Nat) : scanParent request fs = some (b, .hole off) →
      (∀ i, IsInode i → inodeUsed fs.disk i = true) → Scanned request fs (-1) fs
  | hole (b off : Nat) {i : Nat} {ni : Mem} {L X : List Nat} {fs' : Fs} :
      scanParent request fs = some (b, .hole off) → Hole request b off fs fs' i ni L X →
      Scanned request fs 0 fs'
  | noBlock : scanParent request fs = none → parentBlock request fs = none →
      Scanned request fs (-1) fs
  | halfGrown (nb : Nat) {fs₀ : Fs} : scanParent request fs = none →
      parentBlock request fs = some nb → Grab fs fs₀ [nb] →
      (∀ i, IsInode i → inodeUsed fs.disk i = true) → Scanned request fs (-1) fs₀
  | grow (nb : Nat) {i : Nat} {ni : Mem} {L X : List Nat} {fs₀ fs' : Fs} :
      scanParent request fs = none → parentBlock request fs = some nb → Grab fs fs₀ [nb] →
      Grow request request.parentInode.toNat nb fs fs₀ fs' i ni L X → Scanned request fs 0 fs'

theorem Hosts.scanned (h : Hosts request.parentInode.toNat fs) :
    Scanned request fs (write request fs).1 (write request fs).2 := by
  have hp := h.dir.isInode
  rw [write_of_dir h.ready.layout hp h.dir.dir]
  cases hs : scanParent request fs with
  | some q =>
    obtain ⟨b, sc⟩ := q
    cases sc with
    | done => exact .stop b .done hs nofun
    | duplicate => exact .stop b .duplicate hs nofun
    | hole off =>
      dsimp only
      obtain ⟨h1, h2⟩ := h.data b (scanParent_mem h.ready.layout hp h.size hs)
      rcases writeHole_spec request h.ready h.freeSlot h1 h2 off with
        ⟨hall, he⟩ | ⟨i, fs', ni, L, X, he, hhole⟩ <;> rw [he]
      · exact .noInode b off hs hall
      · exact .hole b off hs hhole
  | none =>
    dsimp only
    have hpb := parentBlock_of_none hs
    rcases writeGrow_spec request h.ready h.freeSlot hp with
      ⟨hex, he⟩ | ⟨nb, fs₀, hgrab, hge, hfst, hgrow⟩
    · rw [he]
      exact .noBlock hs (hpb.trans (firstFreeBlock_eq_none hex))
    · have hnb : parentBlock request fs = some nb := hpb.trans
        (firstFreeBlock_eq (hgrab.data nb (by simp)).1 hge (hgrab.fresh nb (by simp)) hfst)
      rcases hgrow with ⟨hall, he⟩ | ⟨i, fs', ni, L, X, he, hgrow⟩ <;> rw [he]
      · exact .halfGrown nb hs hnb hgrab hall
      · exact .grow nb hs hnb hgrab hgrow

/-- A `write` into a directory within its pointers keeps it so, and stays inside, unless it
    grows a directory that has 15 blocks. -/
theorem Hosts.write (h : Hosts request.parentInode.toNat fs) (hok : ¬ Overflows request fs) :
    Hosts request.parentInode.toNat (write request fs).2 ∧
      StaysInside request fs (write request fs).2 := by
  have hw := h.scanned
  generalize LossOs.Ext2.write request fs = res at hw ⊢
  obtain ⟨code, fs'⟩ := res
  dsimp only at hw ⊢
  cases hw with
  | stop => exact ⟨h, h.unchanged⟩
  | noInode => exact ⟨h, h.unchanged⟩
  | hole b off hs hhole => exact ⟨h.hole hhole, hhole.staysInside h⟩
  | noBlock => exact ⟨h, h.unchanged⟩
  | halfGrown nb hs hnb hgrab =>
    refine ⟨h.grab hgrab, fun j _ _ _ => hgrab.slot_eq j, ?_⟩
    rw [hgrab.slot_eq]
    exact h.size
  | grow nb hs hnb hgrab hgrow =>
    have hn : iBlocks (slot fs.disk request.parentInode.toNat) < 15 := lt_of_le_of_ne h.size
      fun hfull => hok ⟨hs, ⟨nb, hnb⟩, ⟨_, hgrow.took.firstFreeInode⟩, hfull⟩
    exact ⟨h.grow hn hgrow, hgrow.staysInside h hn⟩

/-- A directory that has 15 blocks and grows has 16. -/
theorem Overflows.sixteen (ho : Overflows request fs) (h : Hosts request.parentInode.toNat fs) :
    ∃ nb fs₀ i ni L X, Grow request request.parentInode.toNat nb fs fs₀ (write request fs).2 i ni
      L X ∧ iBlocks (slot (write request fs).2.disk request.parentInode.toNat) = 16 := by
  obtain ⟨nb', hnb'⟩ := ho.block
  obtain ⟨i', hi'⟩ := ho.inode
  obtain ⟨h1, h2⟩ := firstFreeInode_some hi'
  have hno := ho.noRoom
  have hw := h.scanned
  generalize LossOs.Ext2.write request fs = res at hw ⊢
  obtain ⟨code, fs'⟩ := res
  dsimp only at hw ⊢
  cases hw with
  | stop b sc hs => rw [hno] at hs; cases hs
  | noInode b off hs => rw [hno] at hs; cases hs
  | hole b off hs => rw [hno] at hs; cases hs
  | noBlock _ hnb => rw [hnb] at hnb'; cases hnb'
  | halfGrown nb _ _ _ hall => rw [hall i' h1] at h2; cases h2
  | grow nb _ _ hgrab hgrow =>
    refine ⟨nb, _, _, _, _, _, hgrow, ?_⟩
    rw [(hgrow.parent_fields ho.full.le (hgrab.data nb (by simp)).1).2.1, ho.full]

theorem write_inside_iff (h : Hosts request.parentInode.toNat fs) :
    StaysInside request fs (write request fs).2 ↔ ¬ Overflows request fs := by
  refine ⟨fun hs ho => ?_, fun hok => (h.write hok).2⟩
  obtain ⟨-, -, -, -, -, -, -, h16⟩ := ho.sixteen h
  have := hs.size
  rw [h16] at this
  exact absurd this (by decide)

end Hosts

/-! ## Runs -/

/-- In a run of calls into one directory that never grow it past its pointers, it stays within
    them, and the next call stays inside if and only if it does not grow it past them either. -/
theorem growth_inside {p : Nat} {fs₀ fs : Fs} (h : Hosts p fs₀) (hrun : Run (IntoDir p) fs₀ fs) :
    iBlocks (slot fs.disk p) ≤ 15 ∧
      ∀ request stack, request.parentInode.toNat = p →
        (StaysInside request (fs.withStack stack) (write request (fs.withStack stack)).2 ↔
          ¬ Overflows request (fs.withStack stack)) := by
  have hh : Hosts p fs := by
    refine hrun.invariant (fun _ s h => h.withStack s) (fun c fs h hok => ?_) h
    obtain ⟨request, rfl, rfl, hok⟩ := hok
    exact (h.write hok).1
  refine ⟨hh.size, fun request stack hp => ?_⟩
  subst hp
  exact write_inside_iff (hh.withStack stack)

/-! ## Long names -/

/-- The name of 255 bytes that is written after `n` others. -/
def longNth (n : Nat) : EXT2DriverRequest := longName (UInt8.ofNat (98 + n))

/-- The root directory with `n + 1` blocks, each with one long name in it. -/
structure LongDir (n : Nat) (fs : Fs) : Prop where
  consistent : Consistent fs
  dir : IsDirectory fs.disk 1
  size : iBlocks (slot fs.disk 1) = n + 1
  noRoom : ∀ k, n ≤ k → k < 100 → firstHit (longNth k) fs.disk 1 = none
  blocks : ∀ b < 2048, blockUsed fs.disk b = decide (b < 22 + n ∨ 256 ≤ b ∧ b % 256 < 18)
  inodes : ∀ j, IsInode j → inodeUsed fs.disk j = decide (j < 3 + n)
  file : iMode (slot fs.disk 2) = 0x8000

theorem longNth_ne {k n : Nat} (hk : k < 100) (hn : n < k) :
    requestName (longNth k) ≠ requestName (longNth n) := by
  unfold longNth
  rw [requestName_longName, requestName_longName]
  intro hc
  have hbyte := (List.replicate_right_inj (by decide)).mp hc
  have := congrArg UInt8.toNat hbyte
  rw [UInt8.toNat_ofNat_of_lt' (by show 98 + k < 256; omega),
    UInt8.toNat_ofNat_of_lt' (by show 98 + n < 256; omega)] at this
  omega

theorem isDirRequest_longNth (n : Nat) : isDirRequest (longNth n) = false :=
  isDirRequest_longName _

section LongDir

variable {n : Nat} {fs : Fs}

/-- What the next long name finds: no room, a free block and a free inode. -/
theorem LongDir.next (h : LongDir n fs) (hn : n < 15) :
    firstHit (longNth n) fs.disk 1 = none ∧ growthBlock (longNth n) fs.disk = some (22 + n) ∧
      firstFreeInode fs.disk = some (3 + n) := by
  have hmiss := h.noRoom n le_rfl (by omega)
  refine ⟨hmiss, ?_, ?_⟩
  · unfold growthBlock
    rw [show firstHit (longNth n) fs.disk (longNth n).parentInode.toNat = none from hmiss]
    refine firstFreeBlock_eq (by omega) (by show 256 * inodeToBgd 1 ≤ _; exact Nat.zero_le _) ?_
      fun c hc _ => ?_
    · rw [h.blocks _ (by omega), decide_eq_false_iff_not]
      omega
    · rw [h.blocks c (by omega), decide_eq_true_iff]
      exact Or.inl hc
  · refine firstFreeInode_eq ⟨by omega, by omega⟩ ?_ fun j hj hlt => ?_
    · rw [h.inodes _ ⟨by omega, by omega⟩, decide_eq_false_iff_not]
      omega
    · rw [h.inodes j hj, decide_eq_true_iff]
      exact hlt

/-- As long as a pointer is free, the next long name makes the directory grow. -/
theorem LongDir.grow (h : LongDir n fs) (hn : n < 14) : (write (longNth n) fs).1 = 0 ∧
    ∃ fs₀ ni, Grow (longNth n) 1 (22 + n) fs fs₀ (write (longNth n) fs).2 (3 + n) ni [] [] := by
  obtain ⟨hmiss, hnb, hi⟩ := h.next (by omega)
  have hc := h.consistent
  obtain ⟨h0, fs₀, ni, L, X, hgrab, hgrow⟩ := write_grow (longNth n) hc.ready hc.freeSlot
    h.dir.isInode h.dir.dir (hc.parentOk h.dir.isInode h.dir.dir) hmiss hnb hi
  have hX : X = [] := (hgrow.room_iff hgrab).mpr fun hd => by
    rw [isDirRequest_longNth] at hd; cases hd
  obtain rfl : L = [] := hgrow.made.blocks_nil (isDirRequest_longNth n)
    (by show (((0 : UInt32) + 512 - 1) / 512).toNat = 0; decide)
  subst hX
  exact ⟨h0, fs₀, ni, hgrow⟩

/-- It fills one more block. -/
theorem LongDir.step (h : LongDir n fs) (hn : n < 14) :
    (write (longNth n) fs).1 = 0 ∧ LongDir (n + 1) (write (longNth n) fs).2 := by
  obtain ⟨h0, fs₀, ni, hgrow⟩ := h.grow hn
  have hc := h.consistent
  have hsize : iBlocks (slot fs.disk 1) < 15 := by rw [h.size]; omega
  refine ⟨h0, ?_⟩
  generalize (write (longNth n) fs).2 = fs' at hgrow ⊢
  have hdata : IsData (22 + n) := hgrow.took.data _ List.mem_cons_self
  have hcr := hgrow.created hc h.dir hsize (h.noRoom n le_rfl (by omega))
  refine ⟨hcr.consistent, (hcr.isDirectory_iff (by omega)).mpr h.dir, ?_, fun k hk hlt => ?_,
    fun b hb => ?_, fun j hj => ?_, ?_⟩
  · exact (hgrow.parent_fields hsize.le hdata.1).2.1.trans (congrArg (· + 1) h.size)
  · -- a record of the old blocks is as before, and the new one fills its block
    have hold : dirRecords fs'.disk (dirBlocks (slot fs.disk 1)) =
        dirRecords fs.disk (dirBlocks (slot fs.disk 1)) :=
      List.flatMap_congr fun c hcb => by
        obtain ⟨h1, h2, -⟩ := hc.dirBlock h.dir hcb
        rw [hgrow.data_eq h1 h2]
    have hnew : ∀ q ∈ dirRecords fs'.disk [22 + n],
        ¬ (q.2.named (longNth k) || q.2.roomy (longNth k)) = true := by
      intro q hq
      obtain ⟨h1, h2⟩ := mem_dirRecords.mp hq
      rw [List.mem_singleton.mp h1, hgrow.block.blockRecords_eq, List.mem_singleton] at h2
      rw [h2, Bool.or_eq_true, not_or, named_iff, roomy_iff, newRec_size,
        show (longNth n).nameLen = 255 from nameLen_longName _,
        show (longNth k).nameLen = 255 from nameLen_longName _]
      exact ⟨fun hcn => longNth_ne hlt hk hcn.2.symm, fun hcn => absurd hcn.2 (by
        show ¬ getEntryRecordLen 255 + getEntryRecordLen 255 ≤ 512; decide)⟩
    unfold firstHit
    rw [hgrow.blocks_eq hsize hdata, dirRecords_append, List.find?_append, hold,
      show (dirRecords fs.disk (dirBlocks (slot fs.disk 1))).find? _ = none
        from h.noRoom k (by omega) hlt, List.find?_eq_none.mpr hnew]
    rfl
  · rw [hgrow.took.blocks b hb, h.blocks b hb, ← Bool.decide_or, decide_eq_decide,
      List.mem_singleton]
    omega
  · rw [hgrow.took.inodes j hj, h.inodes j hj, ← Bool.decide_or, decide_eq_decide]
    omega
  · rw [hcr.others 2 (by decide) (by omega) (by decide)]
    exact h.file

end LongDir

theorem Made.file_mode {request : EXT2DriverRequest} {i : Nat} {d₀ d : Disk} {ni : Mem}
    {L X : List Nat} (h : Made request i d₀ d ni L X) (hreg : isDirRequest request = false) :
    iMode ni = 0x8000 := by
  cases h with
  | file t _ hat => exact hat.mode
  | dir b hdir => rw [hreg] at hdir; cases hdir
  | fallback hdir => rw [hreg] at hdir; cases hdir

theorem longDir_longFs : LongDir 0 longFs := by
  have hf := isFresh_freshFs.formatted
  obtain ⟨ni, h⟩ := firstFile_longFs
  have hcr := h.created
  refine ⟨hcr.consistent, (h.isDirectory_iff hf rfl).mpr rfl, h.iBlocks_root hf,
    fun k _ hk => ?_, fun b hb => ?_, fun j hj => ?_, ?_⟩
  · refine h.no_room (nameLen_longName _) (nameLen_longName _) ?_
    unfold longNth
    rw [requestName_longName, requestName_longName]
    intro hc
    have := congrArg UInt8.toNat ((List.replicate_right_inj (by decide)).mp hc)
    rw [UInt8.toNat_ofNat_of_lt' (by show 98 + k < 256; omega)] at this
    exact absurd this (by show ¬ 98 + k = 97; omega)
  · rw [h.hole.took.blocks b hb, hf.blocks b hb]
    simp only [List.not_mem_nil, decide_false, Bool.or_false, Nat.add_zero]
  · rw [hcr.inodes j hj, hf.inodes j hj, ← Bool.decide_or, decide_eq_decide]
    have := hj.1
    omega
  · rw [h.hole.slotSelf, show iMode (cutNode ni) = iMode ni from iMode_congr fun o ho => if_pos ho]
    exact h.hole.made.file_mode rfl

/-- Fifteen long names fill the root directory of a fresh file system. -/
theorem longDir_run {n : Nat} (hn : n ≤ 14) : ∃ fs, Run (IntoDir 1) freshFs fs ∧ LongDir n fs := by
  induction n with
  | zero =>
    refine ⟨longFs, (Run.refl freshFs).write ⟨longName 97, rfl, rfl, fun ho => ?_⟩, longDir_longFs⟩
    have := ho.full
    rw [show (longName 97).parentInode.toNat = 1 from rfl,
      isFresh_freshFs.formatted.iBlocks_root] at this
    exact absurd this (by decide)
  | succ n ih =>
    obtain ⟨fs, hrun, h⟩ := ih (by omega)
    refine ⟨(write (longNth n) fs).2, hrun.write ⟨longNth n, rfl, rfl, fun ho => ?_⟩,
      (h.step (by omega)).2⟩
    have := ho.full
    rw [show (longNth n).parentInode.toNat = 1 from rfl, h.size] at this
    omega

/-- The next name grows a directory whose pointers are all in use. -/
theorem LongDir.overflows {fs : Fs} (h : LongDir 14 fs) : Overflows (longNth 14) fs := by
  obtain ⟨hmiss, hnb, hi⟩ := h.next (by decide)
  have hscan : scanParent (longNth 14) fs = none := scanParent_eq_none h.consistent h.dir hmiss
  refine ⟨hscan, ⟨36, ?_⟩, ⟨17, hi⟩, h.size⟩
  unfold growthBlock at hnb
  rw [show firstHit (longNth 14) fs.disk (longNth 14).parentInode.toNat = none from hmiss] at hnb
  unfold parentBlock
  rw [hscan]
  exact hnb

/-- The sixteenth long name in the root directory of a fresh file system gives it a sixteenth
    block, whose number is written over the mode of inode 2. -/
theorem growth_overflows : ∃ fs, Run (IntoDir 1) freshFs fs ∧
    (longNth 14).parentInode.toNat = 1 ∧ inodeUsed fs.disk 2 = true ∧
    iMode (slot fs.disk 2) = 0x8000 ∧ iMode (slot (write (longNth 14) fs).2.disk 2) < 2048 ∧
    iBlocks (slot (write (longNth 14) fs).2.disk 1) = 16 ∧
    ¬ StaysInside (longNth 14) fs (write (longNth 14) fs).2 := by
  obtain ⟨fs, hrun, h⟩ := longDir_run (n := 14) le_rfl
  have hhosts : Hosts (longNth 14).parentInode.toNat fs := h.consistent.hosts h.dir
  have ho := h.overflows
  obtain ⟨nb, fs₀, i, ni, L, X, hgrow, h16⟩ := ho.sixteen hhosts
  have hnb := (hgrow.took.data nb List.mem_cons_self).1
  refine ⟨fs, hrun, rfl, ?_, h.file, ?_, h16, fun hs => (write_inside_iff hhosts).mp hs ho⟩
  · rw [h.inodes 2 (by decide)]
    rfl
  · rw [hgrow.pointer_over hnb (j := 2) rfl (by rw [ho.full]; rfl)]
    exact hnb

/-- Up to the fifteenth it stays inside. -/
theorem growth_inside_long : ∃ fs, Run (IntoDir 1) freshFs fs ∧ LongDir 14 fs ∧
    iBlocks (slot fs.disk 1) ≤ 15 ∧
    ∀ request stack, request.parentInode.toNat = 1 →
      (StaysInside request (fs.withStack stack) (write request (fs.withStack stack)).2 ↔
        ¬ Overflows request (fs.withStack stack)) := by
  obtain ⟨fs, hrun, h⟩ := longDir_run (n := 14) le_rfl
  exact ⟨fs, hrun, h, growth_inside (isFresh_freshFs.formatted.consistent.hosts
    (isFresh_freshFs.formatted.isDirectory_iff.mpr rfl)) hrun⟩

end LossOs.Ext2
