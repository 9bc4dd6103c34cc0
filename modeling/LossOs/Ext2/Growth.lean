/-
  What is lost when the parent directory has to grow.

  The growth path of `write` reads the parent's inode-table block at the start and writes it
  back at the end, after the new inode has been stored. A new inode in the same table block is
  overwritten by its old, empty slot; in any other block it is stored as it was built
  (`write_grow_kept_iff`).
-/
import LossOs.Ext2.RoundTrip

namespace LossOs.Ext2

open LossOs.Lib

/-- The new inode `i` is stored as it was requested: a file with all its bytes, which `read`
    returns, or a directory with a block of its own. -/
structure Kept (request : EXT2DriverRequest) (fs fs' : Fs) (i : Nat) : Prop where
  file : isDirRequest request = false → (∃ t, Stored request fs'.disk i t) ∧
    ∀ (rd : EXT2DriverRequest) (stack : Mem), rd.parentInode = request.parentInode →
      requestName rd = requestName request → request.bufferSize ≤ rd.bufferSize →
        (read rd (fs'.withStack stack)).1 = 0 ∧
        ∀ k < request.bufferSize.toNat, (read rd (fs'.withStack stack)).2 k = request.buf k
  dir : isDirRequest request = true →
    ∃ b, StoredDir request fs'.disk i b ∧ blockUsed fs.disk b = false

/-- The blocks that the new inode needs: those of the file, or one for a directory. -/
def needed (request : EXT2DriverRequest) : Nat :=
  if isDirRequest request then 1 else blocksNeeded (exactBlocks request)

section Grow

variable {request : EXT2DriverRequest} {fs fs₀ fs' : Fs} {p nb i : Nat} {ni : Mem} {L X : List Nat}

/-- The pointers of the parent as the next call sees them. The 16th lies behind the array. -/
theorem Grow.parentPtrs (h : Grow request p nb fs fs₀ fs' i ni L X)
    (hn : iBlocks (slot fs.disk p) ≤ 15) (hnb : nb < 2048) (s : Mem) :
    dirPtrs (view ((fs'.withStack s).readBlocks (inodeBlockAt p)) (slotOffset p)) =
      dirPtrs (slot fs.disk p) ++ [nb] := by
  have hle := slotOffset_le p
  have hraw : ∀ o < 512, (fs'.withStack s).readBlocks (inodeBlockAt p) o =
      appendBlock (fs.readBlocks (inodeBlockAt p)) (slotOffset p) nb o := by
    intro o ho
    rw [readBlocks_of_lt _ _ ho, withStack_disk, h.parentTable, mem_blockOf ho]
  obtain ⟨-, f2, f3⟩ := appendBlock_fields (fs.readBlocks (inodeBlockAt p))
    (slotOffset p) (show nb < 4294967296 by omega) (by rw [iBlocks_parent]; omega)
  rw [iBlocks_parent] at f2 f3
  have hcount : iBlocks (view ((fs'.withStack s).readBlocks (inodeBlockAt p)) (slotOffset p)) =
      iBlocks (slot fs.disk p) + 1 := by
    rw [← f2]
    exact rd32_congr fun o _ ho => hraw _ (by omega)
  have hptr : ∀ j ≤ 15, iBlock (view ((fs'.withStack s).readBlocks (inodeBlockAt p))
      (slotOffset p)) j = if j = iBlocks (slot fs.disk p) then nb
        else iBlock (view (fs.readBlocks (inodeBlockAt p)) (slotOffset p)) j := by
    intro j hj
    rw [← f3]
    exact rd32_congr fun o _ ho => hraw _ (by omega)
  unfold dirPtrs
  rw [hcount, List.range_succ, List.map_append, List.map_singleton, hptr _ hn, if_pos rfl]
  refine congrArg (· ++ [nb]) (List.map_congr_left fun j hj => ?_)
  have := List.mem_range.mp hj
  rw [hptr j (by omega), if_neg (by omega), iBlock_congr (slot_readBlocks fs p) (by omega)]

/-- The mode of an inode in the parent's table block, in the block that is written back. -/
theorem Grow.iMode_same_table (h : Grow request p nb fs fs₀ fs' i ni L X) {j : Nat}
    (ht : inodeBlockAt j = inodeBlockAt p) :
    iMode (slot fs'.disk j) = rd16 (appendBlock (fs.readBlocks (inodeBlockAt p)) (slotOffset p) nb)
      (slotOffset j) := by
  have hnew : fs'.disk (inodeBlockAt j) = blockOf (appendBlock (fs.readBlocks (inodeBlockAt p))
      (slotOffset p) nb) := by rw [ht]; exact h.parentTable
  rw [← Nat.add_zero (slotOffset j), ← rd16_view]
  exact rd16_congr fun o _ ho => slot_of_block hnew o (by omega)

/-- The 16th pointer of the parent is the mode of the next inode. -/
theorem Grow.pointer_over (h : Grow request p nb fs fs₀ fs' i ni L X) (hnb : nb < 2048) {j : Nat}
    (ht : inodeBlockAt j = inodeBlockAt p)
    (hlap : slotOffset j = slotOffset p + (10 + 4 * iBlocks (slot fs.disk p))) :
    iMode (slot fs'.disk j) = nb := by
  have h32 : rd32 (appendBlock (fs.readBlocks (inodeBlockAt p)) (slotOffset p) nb)
      (slotOffset j) = nb := by
    unfold appendBlock
    rw [iBlocks_parent]
    dsimp only
    rw [← hlap, rd32_wr32_of_ne (by omega), rd32_wr32_of_ne (by omega), rd32_wr32_of_lt (by omega)]
  rw [h.iMode_same_table ht]
  unfold rd32 at h32
  unfold rd16
  omega

/-- In the parent's table block the new inode gets neither of the two modes. -/
theorem Grow.mode_lost (h : Grow request p nb fs fs₀ fs' i ni L X) (hz : FreeSlots fs.disk)
    (hp : IsDirectory fs.disk p) (hn : iBlocks (slot fs.disk p) ≤ 15) (hnb : nb < 2048)
    (ht : inodeBlockAt i = inodeBlockAt p) : iMode (slot fs'.disk i) < 0x4000 := by
  have hip := h.ne_parent hp
  have hoff : slotOffset i ≠ slotOffset p := fun hc =>
    hip (inode_ext h.took.isInode hp.isInode ht hc)
  have hle := slotOffset_le i
  have hold : ∀ o < 70, fs.readBlocks (inodeBlockAt p) (slotOffset i + o) = 0 := by
    intro o ho
    rw [← hz i h.took.isInode h.took.freshInode o, ← slot_readBlocks fs i o ho, ht]
    rfl
  by_cases hlap : slotOffset i = slotOffset p + (10 + 4 * iBlocks (slot fs.disk p))
  · rw [h.pointer_over hnb ht hlap]
    omega
  · rw [h.iMode_same_table ht, rd16_eq_zero fun o h1 h2 => ?_]
    · decide
    · unfold slotOffset at hlap hoff h1 h2 hold
      rw [appendBlock_of_not_mem (by unfold slotOffset; omega)
        (by rw [iBlocks_parent]; unfold slotOffset; omega)]
      have := hold (o - 70 * (inodeToLocal i % 7)) (by omega)
      rwa [Nat.add_sub_cancel' h1] at this

theorem Kept.mode {request : EXT2DriverRequest} {fs fs' : Fs} {i : Nat}
    (h : Kept request fs fs' i) : 0x4000 ≤ iMode (slot fs'.disk i) := by
  cases hd : isDirRequest request with
  | false =>
    obtain ⟨t, ht⟩ := (h.file hd).1
    rw [ht.mode]; decide
  | true =>
    obtain ⟨b, hb, -⟩ := h.dir hd
    rw [hb.mode]

/-- Outside the parent's table block the new inode is stored. -/
theorem Grow.kept (h : Grow request p nb fs fs₀ fs' i ni L X) (hg : Grab fs fs₀ [nb])
    (hc : Consistent fs) (hpe : p = request.parentInode.toNat) (hp : IsDirectory fs.disk p)
    (hmiss : firstHit request fs.disk p = none)
    (hroom : needed request ≤ (freeFrom fs₀.disk (inodeToBgd i)).card)
    (ht : inodeBlockAt i ≠ inodeBlockAt p) : Kept request fs fs' i := by
  have hn := (hc.dirOk p hp).size
  have hnb : IsData nb := h.took.data nb (by simp)
  have hL : ∀ b ∈ L, IsData b ∧ blockUsed fs'.disk b = true := fun b hb =>
    h.took.used_of_mem b (List.mem_cons_of_mem _ hb)
  have hslot : slot fs'.disk i = cutNode ni := by
    rw [h.otherSlots i h.took.isInode ht, if_pos rfl]
  refine ⟨fun hreg => ?_, fun hdir => ?_⟩
  · have hreq : blocksNeeded (exactBlocks request) ≤ (freeFrom fs₀.disk (inodeToBgd i)).card := by
      unfold needed at hroom
      rwa [hreg, if_neg (by decide)] at hroom
    have hcount := blockCount_exact hreq (card_freeFrom_le _ _)
    obtain ⟨t, hst⟩ := (h.made.stored_iff hreg hslot hL).mpr ⟨hcount, by rw [hcount]; exact hreq⟩
    have hX : X = [] := (h.room_iff hg).mpr fun hd => by rw [hreg] at hd; cases hd
    subst hX
    refine ⟨⟨t, hst⟩, fun rd stack hpar hname hsize => ?_⟩
    rw [← hpar] at hpe
    subst hpe
    have hl : Layout (fs'.withStack stack) := by
      have := h.took.layout hc.ready.layout
      exact ⟨this.blockBitmap, this.inodeBitmap, this.inodeTable⟩
    have hdir : isDir fs'.disk rd.parentInode.toNat = true :=
      (isDir_congr (h.parent_fields hn hnb.1).1).trans hp.dir
    have hfull := hc.dirFull _ hp
    have hold : ∀ c ∈ dirPtrs (slot fs.disk rd.parentInode.toNat),
        fs'.disk c = fs.disk c ∧ IsDirBlock (fs.disk c) := by
      intro c hcb
      rw [← dirBlocks_of_full hfull] at hcb
      obtain ⟨h1, h2, h3⟩ := hc.dirBlock hp hcb
      exact ⟨h.data_eq h1 h2, h3⟩
    have hnames : ∀ a ∈ blockEntries fs.disk (dirPtrs (slot fs.disk rd.parentInode.toNat)),
        a.name ≠ requestName rd := by
      rw [hname, ← dirBlocks_of_full hfull]
      apply blockEntries_name_ne
      intro q hq
      have := List.find?_eq_none.mp hmiss q hq
      simp only [Bool.or_eq_true, not_or, Bool.not_eq_true] at this
      exact this.1
    have hlast : live [newRec request i 0 512] = [newEntry request i] :=
      live_cons_of_ne (r := newRec request i 0 512)
        (by have := h.took.isInode.1; show i ≠ 0; omega) []
    have hread := read_stored (e := newEntry request i) hl hp.isInode hdir
      (by rw [hl.inodeBlock_eq hp.isInode]; exact h.parentPtrs hn hnb.1 stack)
      (fun b hb => (List.mem_append.mp hb).elim (hfull b) fun hb => by
        rw [List.mem_singleton.mp hb]; exact hnb.ne_zero)
      (fun b hb => (List.mem_append.mp hb).elim
        (fun hb => by rw [withStack_disk, (hold b hb).1]; exact (hold b hb).2) fun hb => by
        rw [List.mem_singleton.mp hb]; exact ⟨_, h.block⟩)
      (by
        rw [withStack_disk, blockEntries_append, blockEntries_congr fun c hcb => (hold c hcb).1,
          List.find?_append, List.find?_eq_none.mpr fun a ha => by simpa using hnames a ha,
          blockEntries_cons, h.block.blockRecords_eq, hlast]
        simp [newEntry, hname, blockEntries])
      rfl (requestFileType_file hreg) h.took.isInode hst (UInt32.le_iff_toNat_le.mp hsize)
    exact ⟨hread.1, fun k hk => by rw [hread.2 k, if_pos hk]⟩
  · have hX : X = [] := (h.room_iff hg).mpr fun _ => Finset.card_pos.mp (by
      unfold needed at hroom
      rwa [hdir, if_pos rfl] at hroom)
    subst hX
    obtain ⟨b, hb, hst⟩ := h.made.storedDir hdir hslot hL
    exact ⟨b, hst, h.took.fresh b (List.mem_cons_of_mem _ hb)⟩

end Grow

/-- A `write` that grows the parent keeps the new inode if and only if it does not lie in the
    parent's inode-table block. -/
theorem write_grow_kept_iff (request : EXT2DriverRequest) {fs : Fs} (hc : Consistent fs)
    (hp : IsDirectory fs.disk request.parentInode.toNat)
    (hmiss : firstHit request fs.disk request.parentInode.toNat = none) {nb i : Nat}
    (hnb : growthBlock request fs.disk = some nb) (hi : firstFreeInode fs.disk = some i)
    (hroom : needed request ≤ (roomFrom request fs.disk (inodeToBgd i)).card) :
    (write request fs).1 = 0 ∧
    blockRecords ((write request fs).2.disk nb) = [newRec request i 0 512] ∧
    (Kept request fs (write request fs).2 i ↔
      inodeBlockAt i ≠ inodeBlockAt request.parentInode.toNat) := by
  obtain ⟨h0, fs₀, ni, L, X, hgrab, hgrow⟩ :=
    write_grow request hc.ready hc.freeSlot hp.isInode hp.dir
    (hc.parentOk hp.isInode hp.dir) hmiss hnb hi
  refine ⟨h0, hgrow.block.blockRecords_eq, fun hk ht => ?_, fun ht => ?_⟩
  · have := hgrow.mode_lost hc.freeSlot hp (hc.dirOk _ hp).size (hgrab.data nb (by simp)).1 ht
    have := hk.mode
    omega
  · rw [roomFrom_of_grab hgrab hnb] at hroom
    exact hgrow.kept hgrab hc rfl hp hmiss hroom ht

/-! ## Two long names -/

/-- Two names of 255 bytes do not fit into the first block of the root directory. -/
theorem FirstEntry.no_room {a b : EXT2DriverRequest} {fs fs' : Fs} {ni : Mem} {L : List Nat}
    (h : FirstEntry a fs fs' ni L)
    (ha : a.nameLen = 255) (hb : b.nameLen = 255) (hab : requestName b ≠ requestName a) :
    firstHit b fs'.disk 1 = none := by
  have hlen : ∀ request : EXT2DriverRequest, request.nameLen = 255 →
      (requestName request).length = 255 := fun request hr => by
    rw [length_requestName, hr]; rfl
  have hneed : getEntryRecordLen b.nameLen = 264 := by rw [hb]; rfl
  have hunnamed : ∀ r : Rec, r.name.length ≤ 2 → r.named b = false := by
    intro r hr
    rw [← Bool.not_eq_true, named_iff]
    rintro ⟨-, hc⟩
    rw [hc, hlen b hb] at hr
    omega
  refine List.find?_eq_none.mpr fun q hq => ?_
  obtain ⟨h1, h2⟩ := mem_dirRecords.mp hq
  rw [h.blocks, List.mem_singleton] at h1
  rw [h1, h.records] at h2
  rw [Bool.or_eq_true, not_or, Bool.not_eq_true, Bool.not_eq_true]
  simp only [List.mem_cons, List.not_mem_nil, or_false] at h2
  rcases h2 with h2 | h2 | h2
  · rw [h2]
    exact ⟨hunnamed _ (by decide), dot_not_roomy⟩
  · rw [h2]
    refine ⟨hunnamed _ (by decide), ?_⟩
    rw [← Bool.not_eq_true, roomy_iff, hneed]
    decide
  · rw [h2]
    refine ⟨?_, ?_⟩
    · rw [← Bool.not_eq_true, named_iff]
      exact fun hc => hab hc.2.symm
    · have hsize : (newRec a 2 24 488).size = 264 := by rw [newRec_size, ha]; rfl
      rw [← Bool.not_eq_true, roomy_iff, hneed, hsize]
      rintro ⟨-, hc⟩
      simp [newRec] at hc

/-- A file without data whose name is 255 times the byte `c`. -/
def longName (c : UInt8) : EXT2DriverRequest := rootRequest (List.replicate 255 c) [] false

theorem requestName_longName (c : UInt8) : requestName (longName c) = List.replicate 255 c :=
  requestName_root (by rw [List.length_replicate]; decide)

theorem nameLen_longName (c : UInt8) : (longName c).nameLen = 255 := by
  unfold longName rootRequest
  rw [List.length_replicate]
  rfl

theorem isDirRequest_longName (c : UInt8) : isDirRequest (longName c) = false := Bool.and_false _

theorem needed_longName (c : UInt8) : needed (longName c) = 0 := by
  have h1 := isDirRequest_longName c
  have h2 : (longName c).bufferSize.toNat = 0 := rfl
  unfold needed exactBlocks
  rw [h1, h2]
  rfl

/-- A fresh file system with one such file. -/
def longFs : Fs := (write (longName 97) freshFs).2

theorem firstFile_longFs : ∃ ni, FirstEntry (longName 97) freshFs longFs ni [] := by
  obtain ⟨-, ni, L, h⟩ := isFresh_freshFs.formatted.write_first (longName 97) rfl
    (by rw [requestName_longName]; decide) (by rw [requestName_longName]; decide)
  obtain rfl := h.hole.made.blocks_nil (by decide) (by decide)
  exact ⟨ni, h⟩

/-- What `write` finds there for the second long name: no room, block 22, and inode 3. -/
theorem longFs_grows : Consistent longFs ∧ IsDirectory longFs.disk 1 ∧
    firstHit (longName 98) longFs.disk 1 = none ∧
    growthBlock (longName 98) longFs.disk = some 22 ∧ firstFreeInode longFs.disk = some 3 := by
  have hf := isFresh_freshFs.formatted
  obtain ⟨ni, h⟩ := firstFile_longFs
  have hcr := h.created
  have hused : ∀ b < 2048, blockUsed longFs.disk b = blockUsed freshFs.disk b := fun b hb => by
    rw [h.hole.took.blocks b hb]
    simp
  have hmiss : firstHit (longName 98) longFs.disk 1 = none :=
    h.no_room (nameLen_longName _) (nameLen_longName _)
      (by rw [requestName_longName, requestName_longName]; decide)
  refine ⟨hcr.consistent, (hcr.isDirectory_iff (by decide)).mpr (hf.isDirectory_iff.mpr rfl),
    hmiss, ?_, ?_⟩
  · unfold growthBlock
    rw [show firstHit (longName 98) longFs.disk (longName 98).parentInode.toNat = none from hmiss]
    refine firstFreeBlock_eq (by decide) (by decide) ?_ fun c hc _ => ?_
    · rw [hused 22 (by decide), hf.blocks 22 (by decide)]
      rfl
    · rw [hused c (by omega), hf.blocks c (by omega), decide_eq_true_iff]
      omega
  · refine firstFreeInode_eq (by decide) ?_ fun j hj hlt => ?_
    · rw [hcr.inodes 3 (by decide), hf.inodes 3 (by decide)]
      rfl
    · rw [hcr.inodes j hj, hf.inodes j hj]
      have := hj.1
      simp only [Bool.or_eq_true, decide_eq_true_iff]
      omega

/-- Inode 3 lies in the table block of the root directory, and is lost. -/
theorem write_grow_loses : Consistent longFs ∧ IsDirectory longFs.disk 1 ∧
    firstHit (longName 98) longFs.disk 1 = none ∧ (write (longName 98) longFs).1 = 0 ∧
    needed (longName 98) ≤ (roomFrom (longName 98) longFs.disk (inodeToBgd 3)).card ∧
    blockRecords ((write (longName 98) longFs).2.disk 22) = [newRec (longName 98) 3 0 512] ∧
    ¬ Kept (longName 98) longFs (write (longName 98) longFs).2 3 := by
  obtain ⟨hc, hp, hmiss, hnb, hi⟩ := longFs_grows
  obtain ⟨h0, fs₀, ni, L, X, hgrab, hgrow⟩ := write_grow (longName 98) hc.ready
    hc.freeSlot hp.isInode hp.dir (hc.parentOk hp.isInode hp.dir) hmiss hnb hi
  refine ⟨hc, hp, hmiss, h0, needed_longName 98 ▸ Nat.zero_le _, hgrow.block.blockRecords_eq,
    fun hk => ?_⟩
  have := hgrow.mode_lost hc.freeSlot hp (hc.dirOk _ hp).size (by decide) rfl
  have := hk.mode
  omega

theorem write_grow_kept_iff_longFs : (write (longName 98) longFs).1 = 0 ∧
    blockRecords ((write (longName 98) longFs).2.disk 22) = [newRec (longName 98) 3 0 512] ∧
    (Kept (longName 98) longFs (write (longName 98) longFs).2 3 ↔
      inodeBlockAt 3 ≠ inodeBlockAt 1) := by
  obtain ⟨hc, hp, hmiss, hnb, hi⟩ := longFs_grows
  exact write_grow_kept_iff (longName 98) hc hp hmiss hnb hi
    (needed_longName 98 ▸ Nat.zero_le _)

end LossOs.Ext2
