/-
  Freeing a directory.

  `write` appends the blocks of a directory to all 15 pointers of its inode. `deallocate_node`
  takes the thirteenth for a block of pointers, whatever the mode says: from 13 blocks on it takes
  the first words of the records in that block for block numbers. In a run of writes these are the
  inode, the lengths and the type of a live record, none of them 0, so that one block too many is
  counted as freed (`deallocateNode_super_long`), and the directory is freed exactly if and only if
  it has 12 blocks at most (`dir_freed_iff`).
-/
import LossOs.Ext2.Listing

namespace LossOs.Ext2

open LossOs.Lib

/-- The call is a `write` that keeps to the pointers and blocks there are. -/
def Writes (c : Call) (fs : Fs) : Prop := (∃ request, c = .write request) ∧ Within c fs

/-- `deallocate_node` of directory `p` clears the bits of its blocks and of no other, and raises the
    counters by their number. -/
structure FreesExactly (fs : Fs) (p : Nat) : Prop where
  bits : ∀ b < 2048, blockUsed (deallocateNode p fs).disk b =
    (blockUsed fs.disk b && !decide (b ∈ dirPtrs (slot fs.disk p)))
  groups : ∀ g, ((deallocateNode p fs).bgdtCache g).bgFreeBlocksCount =
    (fs.bgdtCache g).bgFreeBlocksCount +
      UInt16.ofNat ((dirPtrs (slot fs.disk p)).countP fun b => b / 256 = g)
  super : (deallocateNode p fs).superBlock.sFreeBlocksCount =
    fs.superBlock.sFreeBlocksCount + UInt32.ofNat (iBlocks (slot fs.disk p))

/-! ## Records in a run of writes -/

/-- All records of the blocks `bs` are live and have a type. -/
def AllLive (d : Disk) (bs : List Nat) : Prop :=
  ∀ b ∈ bs, ∀ r ∈ blockRecords (d b), r.inode ≠ 0 ∧ r.fileType ≠ 0

/-- A consistent state in which no directory has a dead record. -/
structure Undeleted (fs : Fs) : Prop where
  consistent : Consistent fs
  live : ∀ p, IsDirectory fs.disk p → AllLive fs.disk (dirBlocks (slot fs.disk p))

section AllLive

variable {request : EXT2DriverRequest} {fs fs₀ fs' : Fs} {d d' : Disk} {bs cs L : List Nat}
  {i p : Nat} {ni : Mem}

theorem AllLive.congr (h : AllLive d bs) (hd : ∀ b ∈ bs, d' b = d b) : AllLive d' bs := by
  intro b hb
  rw [hd b hb]
  exact h b hb

theorem newRec_type (request : EXT2DriverRequest) (i off len : Nat) :
    (newRec request i off len).fileType ≠ 0 := by
  unfold newRec requestFileType
  dsimp only
  split
  · decide
  · decide

theorem Inserted.allLive (h : Inserted request i d d' bs cs) (hi : i ≠ 0) (hf : AllLive d bs) :
    AllLive d' cs := by
  intro b hb r hr
  cases h with
  | @hole pre post b₀ xs ys q hbs hrs hq _ _ hnew hsame =>
    by_cases hb₀ : b = b₀
    · subst hb₀
      have hold := hf b hb
      rw [hrs] at hold
      rw [hnew] at hr
      rcases List.mem_append.mp hr with hr | hr
      · exact hold r (List.mem_append_left _ hr)
      rcases List.mem_cons.mp hr with rfl | hr
      · exact hold q (by simp)
      rcases List.mem_cons.mp hr with rfl | hr
      · exact ⟨hi, newRec_type request i _ _⟩
      · exact hold r (by simp [hr])
    · have hmem : b ∈ pre ++ post := by
        rw [hbs] at hb
        simpa [hb₀] using hb
      rw [hsame b hmem] at hr
      exact hf b hb r hr
  | @grow nb _ hnew hsame =>
    rcases List.mem_append.mp hb with hb | hb
    · rw [hsame b hb] at hr
      exact hf b hb r hr
    · rw [List.mem_singleton.mp hb, hnew, List.mem_singleton] at hr
      rw [hr]
      exact ⟨hi, newRec_type request i _ _⟩

theorem Undeleted.withStack (h : Undeleted fs) (s : Mem) : Undeleted (fs.withStack s) :=
  ⟨h.consistent.withStack s, h.live⟩

theorem Quiet.undeleted (h : Quiet fs fs') (hs : Undeleted fs) : Undeleted fs' := by
  refine ⟨h.consistent, fun p hp => ?_⟩
  have hp' := h.isDirectory_iff.mp hp
  rw [h.slots p]
  exact (hs.live p hp').congr fun b hb => h.dirBlock_eq hs.consistent hp' hb

theorem Created.undeleted (h : Created request fs fs' request.parentInode.toNat i ni L)
    (hs : Undeleted fs) (hp : IsDirectory fs.disk request.parentInode.toNat) : Undeleted fs' := by
  refine ⟨h.consistent, fun q hq => ?_⟩
  by_cases hqi : q = i
  · subst hqi
    obtain ⟨-, -, b, hbs, hrec⟩ := h.newDir hq
    have hp0 : request.parentInode.toNat ≠ 0 := by
      have := hp.isInode.1
      omega
    intro c hc r hr
    rw [hbs, List.mem_singleton] at hc
    rw [hc, hrec] at hr
    unfold dotRecords at hr
    rcases List.mem_cons.mp hr with rfl | hr
    · exact ⟨h.ne_zero, by simp⟩
    · rw [List.mem_singleton.mp hr]
      exact ⟨hp0, by simp⟩
  · have hq' := (h.isDirectory_iff hqi).mp hq
    by_cases hqp : q = request.parentInode.toNat
    · subst hqp
      exact h.parent.allLive h.ne_zero (hs.live _ hp)
    · rw [h.others q hq.isInode hqi hqp]
      exact (hs.live q hq').congr fun b hb => h.dirBlock_eq hs.consistent hp hq' hqp hb

theorem Undeleted.write (hs : Undeleted fs) (hok : Within (.write request) fs) :
    Undeleted (LossOs.Ext2.write request fs).2 := by
  have h896 : request.parentInode.toNat ≤ 896 := hok.parent
  rcases write_call hs.consistent h896 (hok.write _ rfl) with ⟨-, hq⟩ | ⟨-, hp, -, i, ni, L, hnew⟩
  · exact hq.undeleted hs
  · exact hnew.undeleted hs hp

theorem Formatted.undeleted (h : Formatted fs) : Undeleted fs := by
  refine ⟨h.consistent, fun p hp b hb r hr => ?_⟩
  obtain rfl := h.isDirectory_iff.mp hp
  rw [h.rootBlocks, List.mem_singleton] at hb
  rw [hb, h.rootRecords] at hr
  rcases List.mem_cons.mp hr with rfl | hr
  · decide
  · rw [List.mem_singleton.mp hr]
    decide

/-- In every run of writes from a fresh file system, no directory has a dead record. -/
theorem undeleted_run (h : IsFresh fs₀) (hrun : Run Writes fs₀ fs) : Undeleted fs := by
  refine hrun.invariant (fun _ s h => h.withStack s) (fun c fs hs hok => ?_) h.formatted.undeleted
  obtain ⟨⟨request, rfl⟩, hok⟩ := hok
  exact hs.write hok

end AllLive

/-! ## The counters -/

section Counters

variable {fs fs' : Fs} {p : Nat} {node : Mem}

@[simp] theorem freeBlock_super (fs : Fs) (b : Nat) : (freeBlock fs b).superBlock.sFreeBlocksCount =
    fs.superBlock.sFreeBlocksCount + 1 := rfl

theorem freeBlock_group (fs : Fs) (b g : Nat) : ((freeBlock fs b).bgdtCache g).bgFreeBlocksCount =
    (fs.bgdtCache g).bgFreeBlocksCount + if b / 256 = g then 1 else 0 := by
  unfold freeBlock
  by_cases h : b / 256 = g
  · subst h
    simp [modifyDesc_same]
  · simp [modifyDesc_of_ne (Ne.symm h), h]

/-- Wherever the blocks lie, each of them is counted in the superblock. -/
theorem foldl_freeBlock_super (L : List Nat) (fs : Fs) :
    (L.foldl freeBlock fs).superBlock.sFreeBlocksCount =
      fs.superBlock.sFreeBlocksCount + UInt32.ofNat L.length := by
  induction L generalizing fs with
  | nil => simp
  | cons b L ih =>
    rw [List.foldl_cons, ih, freeBlock_super, List.length_cons, UInt32.ofNat_add, UInt32.add_assoc]
    congr 1
    exact UInt32.add_comm ..

theorem foldl_freeBlock_group (L : List Nat) (fs : Fs) (g : Nat) :
    ((L.foldl freeBlock fs).bgdtCache g).bgFreeBlocksCount =
      (fs.bgdtCache g).bgFreeBlocksCount + UInt16.ofNat (L.countP fun b => b / 256 = g) := by
  induction L generalizing fs with
  | nil => simp
  | cons b L ih =>
    rw [List.foldl_cons, ih, freeBlock_group, List.countP_cons, UInt16.ofNat_add, UInt16.add_assoc]
    congr 1
    rw [UInt16.add_comm]
    by_cases h : b / 256 = g
    · simp [h]
    · simp [h]

theorem dropInode_super (fs : Fs) (i : Nat) (buf : Mem) :
    (dropInode i buf fs).superBlock.sFreeBlocksCount = fs.superBlock.sFreeBlocksCount := rfl

theorem dropInode_group (fs : Fs) (i : Nat) (buf : Mem) (g : Nat) :
    ((dropInode i buf fs).bgdtCache g).bgFreeBlocksCount = (fs.bgdtCache g).bgFreeBlocksCount := by
  rw [dropInode_bgdtCache]
  split
  · next h => rw [h]
  · rfl

theorem dropDir_group (bg : Nat) (node : Mem) (fs : Fs) (g : Nat) :
    ((dropDir bg node fs).bgdtCache g).bgFreeBlocksCount = (fs.bgdtCache g).bgFreeBlocksCount := by
  rw [dropDir_desc]

/-- Freeing a directory of at most 12 blocks. -/
theorem freesExactly_of_le (hl : Layout fs) (hp : IsInode p)
    (hn : iBlocks (slot fs.disk p) ≤ 12) (hfull : ∀ b ∈ dirPtrs (slot fs.disk p), b ≠ 0)
    (hdata : ∀ b ∈ dirPtrs (slot fs.disk p), IsData b) : FreesExactly fs p := by
  have hfb : fileBlocks fs.disk (slot fs.disk p) = dirPtrs (slot fs.disk p) :=
    (fileBlocks_of_le hn).trans (dirBlocks_of_full hfull)
  have hfreed := deallocateNode_spec hl hp (by rwa [hfb])
  rw [hfb] at hfreed
  refine ⟨hfreed.blocks, fun g => ?_, ?_⟩
  · have hp0 : p ≠ 0 := by
      have := hp.1
      omega
    have hnode : ∀ o < 70, view (fs.readBlocks (fs.inodeBlock p)) (slotOffset p) o =
        slot fs.disk p o := fun o ho => hl.node_apply hp ho
    rw [deallocateNode_eq hp0, dropInode_group,
      ← dropDir_group (inodeToBgd p) (view (fs.readBlocks (fs.inodeBlock p)) (slotOffset p)) fs g]
    generalize view (fs.readBlocks (fs.inodeBlock p)) (slotOffset p) = node at hnode
    have hld := dropDir_layout (inodeToBgd p) node hl
    generalize dropDir (inodeToBgd p) node fs = fs₁ at hld ⊢
    have hfb₁ : fileBlocks fs₁.disk node = dirPtrs (slot fs.disk p) := by
      have hptrs := dirPtrs_congr hnode (by omega)
      rw [fileBlocks_of_le (by rwa [iBlocks_congr hnode]), ← dirBlocks, dirBlocks_eq, hptrs,
        ← dirBlocks_eq, dirBlocks_of_full hfull]
    rw [freeNodeBlocks_eq hld (by rwa [hfb₁]), hfb₁, foldl_freeBlock_group]
  · rw [hfreed.super]
    dsimp only
    rw [show (dirPtrs (slot fs.disk p)).length = iBlocks (slot fs.disk p) by simp [dirPtrs]]

theorem length_nonzero {f : Nat → Nat} {n : Nat} (h : ∀ j < n, f j ≠ 0) :
    (nonzero f n).length = n := by
  unfold nonzero
  rw [List.filter_eq_self.mpr, List.length_map, List.length_range]
  intro b hb
  obtain ⟨j, hj, rfl⟩ := List.mem_map.mp hb
  exact decide_eq_true (h j (List.mem_range.mp hj))

/-- Freeing a directory of more blocks, whose thirteenth starts with words that are not 0: it counts
    one block more than there are. -/
theorem deallocateNode_super_long (hl : Layout fs) (hp : IsInode p)
    (hn : 12 < iBlocks (slot fs.disk p)) (h15 : iBlocks (slot fs.disk p) ≤ 15)
    (hfull : ∀ j < iBlocks (slot fs.disk p), iBlock (slot fs.disk p) j ≠ 0)
    (hdata : ∀ j < iBlocks (slot fs.disk p), IsData (iBlock (slot fs.disk p) j))
    (hword : ∀ j < 3, ptr (fs.disk (iBlock (slot fs.disk p) 12)).mem j ≠ 0) :
    (deallocateNode p fs).superBlock.sFreeBlocksCount =
      fs.superBlock.sFreeBlocksCount + UInt32.ofNat (iBlocks (slot fs.disk p) + 1) := by
  have hp0 : p ≠ 0 := by
    have := hp.1
    omega
  have hnode : ∀ o < 70, view (fs.readBlocks (fs.inodeBlock p)) (slotOffset p) o =
      slot fs.disk p o := fun o ho => hl.node_apply hp ho
  rw [deallocateNode_eq hp0, dropInode_super,
    ← dropDir_superBlock (inodeToBgd p) (view (fs.readBlocks (fs.inodeBlock p)) (slotOffset p)) fs]
  generalize view (fs.readBlocks (fs.inodeBlock p)) (slotOffset p) = node at hnode
  have hld := dropDir_layout (inodeToBgd p) node hl
  have hdd := dropDir_disk (inodeToBgd p) node fs
  generalize dropDir (inodeToBgd p) node fs = fs₁ at hld hdd ⊢
  have hcount : iBlocks node = iBlocks (slot fs.disk p) := iBlocks_congr hnode
  have hptr : ∀ j < 15, iBlock node j = iBlock (slot fs.disk p) j :=
    fun j hj => iBlock_congr hnode hj
  generalize iBlocks (slot fs.disk p) = n at hn h15 hfull hdata hcount ⊢
  unfold freeNodeBlocks
  dsimp only
  rw [hcount, Nat.min_eq_left hn.le, freePtrs_eq]
  -- the first twelve
  have h12 : ∀ j < 12, iBlock node j ≠ 0 := fun j hj => by
    rw [hptr j (by omega)]
    exact hfull j (by omega)
  have hlen := length_nonzero h12
  have hlt : ∀ b ∈ nonzero (iBlock node) 12, b < 2048 := by
    intro b hb
    obtain ⟨-, j, hj, rfl⟩ := mem_nonzero.mp hb
    rw [hptr j (by omega)]
    exact (hdata j (by omega)).1
  have hrel := freeBlocks_release hld hlt
  have hsuper := foldl_freeBlock_super (nonzero (iBlock node) 12) fs₁
  generalize (nonzero (iBlock node) 12).foldl freeBlock fs₁ = fs₂ at hrel hsuper ⊢
  rw [hlen] at hsuper
  -- the words of the thirteenth
  have hdisk : fs₂.disk (iBlock node 12) = fs.disk (iBlock (slot fs.disk p) 12) := by
    rw [hptr 12 (by decide), hrel.data_eq (hdata 12 hn), hdd]
  have hrest : ∀ j < n - 12, ptr (fs₂.readBlocks (iBlock node 12)) j ≠ 0 := fun j hj => by
    rw [ptr_readBlocks fs₂ _ (by omega), hdisk]
    exact hword j (by omega)
  have hsingle : freeSingle node (n - 12) fs₂ = (0, freeBlock
      ((nonzero (ptr (fs₂.readBlocks (iBlock node 12))) (n - 12)).foldl freeBlock fs₂)
      (iBlock node 12)) := by
    unfold freeSingle
    rw [if_pos ⟨by omega, by rw [hptr 12 (by decide)]; exact hfull 12 hn⟩]
    dsimp only
    rw [if_pos (by omega : n - 12 < 128), if_neg (lt_irrefl _), freePtrs_eq]
  rw [hsingle]
  dsimp only
  unfold freeDoubleIndirect
  rw [if_neg (fun h => absurd h.1 (lt_irrefl 0)), freeBlock_super, foldl_freeBlock_super,
    length_nonzero hrest, hsuper, UInt32.add_assoc, UInt32.add_assoc]
  congr 1
  rw [← UInt32.add_assoc, ← UInt32.ofNat_add, show 12 + (n - 12) = n by omega, UInt32.ofNat_add]
  rfl

end Counters

/-! ## Freeing -/

section Freeing

variable {fs₀ fs : Fs} {p : Nat}

/-- A block whose first record is live and has a type starts with three words that are not 0. -/
theorem first_words {b : Block} (h : IsDirBlock b)
    (hlive : ∀ r ∈ blockRecords b, r.inode ≠ 0 ∧ r.fileType ≠ 0) : ∀ j < 3, ptr b.mem j ≠ 0 := by
  have ht := h.tiles
  cases hrs : blockRecords b with
  | nil =>
    rw [hrs] at ht
    exact absurd (show 0 = 512 from ht) (by decide)
  | cons r rs =>
    rw [hrs] at ht
    obtain ⟨hr, -, hsize, -⟩ := ht
    obtain ⟨hino, htype⟩ := hlive r (by rw [hrs]; exact List.mem_cons_self)
    have hpos : r.recLen ≠ 0 := by
      have := size_le_entryRecLen r
      omega
    rw [← hr] at hino htype hpos
    have h0 : rd32 b.mem 0 ≠ 0 := hino
    have h1 : rd16 b.mem 4 ≠ 0 := hpos
    have h2 : (b.mem 8).toNat ≠ 0 := htype
    intro j hj
    unfold ptr
    unfold rd16 at h1
    obtain rfl | rfl | rfl : j = 0 ∨ j = 1 ∨ j = 2 := by omega
    · exact h0
    · show rd32 b.mem 4 ≠ 0
      unfold rd32
      omega
    · show rd32 b.mem 8 ≠ 0
      unfold rd32
      omega

/-- A directory without a dead record is freed exactly if and only if it has 12 blocks at most. -/
theorem Undeleted.freesExactly_iff (h : Undeleted fs) (hp : IsDirectory fs.disk p) :
    FreesExactly fs p ↔ iBlocks (slot fs.disk p) ≤ 12 := by
  have hc := h.consistent
  have hl := hc.ready.layout
  have h15 := (hc.dirOk p hp).size
  have hfull := hc.dirFull p hp
  have hblocks := dirBlocks_of_full hfull
  have hmem : ∀ j < iBlocks (slot fs.disk p),
      iBlock (slot fs.disk p) j ∈ dirBlocks (slot fs.disk p) := by
    intro j hj
    rw [hblocks]
    exact List.mem_map_of_mem (List.mem_range.mpr hj)
  constructor
  · intro hf
    by_contra hn
    have hlong := deallocateNode_super_long hl hp.isInode (not_le.mp hn) h15
      (fun j hj => (mem_nonzero.mp (hmem j hj)).1) (fun j hj => (hc.dirBlock hp (hmem j hj)).1)
      (first_words (hc.dirBlock hp (hmem 12 (not_le.mp hn))).2.2
        (h.live p hp _ (hmem 12 (not_le.mp hn))))
    rw [hf.super, UInt32.add_right_inj] at hlong
    have := congrArg UInt32.toNat hlong
    rw [UInt32.toNat_ofNat_of_lt' (by show _ < 4294967296; omega),
      UInt32.toNat_ofNat_of_lt' (by show _ < 4294967296; omega)] at this
    omega
  · intro hn
    apply freesExactly_of_le hl hp.isInode hn hfull
    intro b hb
    rw [← hblocks] at hb
    exact (hc.dirBlock hp hb).1

/-- In every run of writes from a fresh file system, `deallocate_node` frees a directory exactly if
    and only if it has 12 blocks at most. -/
theorem dir_freed_iff (h : IsFresh fs₀) (hrun : Run Writes fs₀ fs) (stack : Mem)
    (hp : IsDirectory fs.disk p) :
    FreesExactly (fs.withStack stack) p ↔ iBlocks (slot fs.disk p) ≤ 12 :=
  ((undeleted_run h hrun).withStack stack).freesExactly_iff hp

/-- Long names are written within the pointers. -/
theorem longDir_writes {n : Nat} (hn : n ≤ 14) : ∃ fs, Run Writes freshFs fs ∧ LongDir n fs := by
  induction n with
  | zero => exact ⟨longFs, (Run.refl freshFs).write ⟨⟨_, rfl⟩, within_longName⟩, longDir_longFs⟩
  | succ n ih =>
    obtain ⟨fs, hrun, h⟩ := ih (by omega)
    exact ⟨_, hrun.write ⟨⟨_, rfl⟩, h.within (by omega)⟩, (h.step (by omega)).2⟩

/-- After twelve of them the root directory has 12 blocks, and is freed exactly. -/
theorem dir_freed_long : ∃ fs, Run Writes freshFs fs ∧ iBlocks (slot fs.disk 1) = 12 ∧
    FreesExactly (fs.withStack fun _ => 3) 1 := by
  obtain ⟨fs, hrun, h⟩ := longDir_writes (n := 11) (by decide)
  exact ⟨fs, hrun, h.size,
    (dir_freed_iff isFresh_freshFs hrun (fun _ => 3) h.dir).mpr h.size.le⟩

/-- After thirteen of them the root directory has 13 blocks, and is not freed exactly. -/
theorem dir_not_freed : ∃ fs, Run Writes freshFs fs ∧ IsDirectory fs.disk 1 ∧
    iBlocks (slot fs.disk 1) = 13 ∧ ¬ FreesExactly fs 1 := by
  obtain ⟨fs, hrun, h⟩ := longDir_writes (n := 12) (by decide)
  refine ⟨fs, hrun, h.dir, h.size, fun hf => ?_⟩
  have hle := ((undeleted_run isFresh_freshFs hrun).freesExactly_iff h.dir).mp hf
  rw [h.size] at hle
  exact absurd hle (by decide)

end Freeing

end LossOs.Ext2
