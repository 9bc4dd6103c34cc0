/-
  Files and directories that are stored as requested.

  `Stored` says that an inode holds the whole file of a request, `StoredDir` that it is the
  requested directory. A stored file comes back from `read` byte for byte (`read_stored`).
  What `write` builds is stored when the blocks sufficed and the block count did not wrap
  (`Made.stored_iff`).
-/
import LossOs.Ext2.Insert

namespace LossOs.Ext2

open LossOs.Lib

/-- Another call of the driver finds other bytes in its local buffers. -/
def Fs.withStack (fs : Fs) (stack : Mem) : Fs := { fs with stack := stack }

@[simp] theorem withStack_disk (fs : Fs) (s : Mem) : (fs.withStack s).disk = fs.disk := rfl

theorem Layout.withStack {fs : Fs} (h : Layout fs) (s : Mem) : Layout (fs.withStack s) :=
  ⟨h.blockBitmap, h.inodeBitmap, h.inodeTable⟩

theorem Ready.withStack {fs : Fs} (h : Ready fs) (s : Mem) : Ready (fs.withStack s) :=
  ⟨h.layout.withStack s, ⟨h.counters.blocks, h.counters.inodes⟩, h.metaUsed⟩

theorem Consistent.withStack {fs : Fs} (h : Consistent fs) (s : Mem) :
    Consistent (fs.withStack s) where
  ready := h.ready.withStack s
  owned := h.owned
  freeSlot := h.freeSlot
  dirOk := h.dirOk
  dirFull := h.dirFull

/-- `⌈buffer_size / 512⌉`, computed without wrap-around. -/
def exactBlocks (request : EXT2DriverRequest) : Nat := (request.bufferSize.toNat + 511) / 512

/-- Inode `i` holds the whole file of the request, in the blocks of `t`. -/
structure Stored (request : EXT2DriverRequest) (d : Disk) (i : Nat) (t : FileTree) : Prop where
  mode : iMode (slot d i) = 0x8000
  size : iSize (slot d i) = request.bufferSize.toNat
  count : iBlocks (slot d i) = exactBlocks request
  holds : t.Holds d (slot d i)
  shape : t.Shape (iBlocks (slot d i))
  full : t.data.length = iBlocks (slot d i)
  used : ∀ b ∈ t.blocks, IsData b ∧ blockUsed d b = true
  bytes : ∀ k < request.bufferSize.toNat,
    (d (t.data.getD (k / 512) 0)).mem (k % 512) = request.buf k

/-- Inode `i` is the requested directory, with the block `b`. -/
structure StoredDir (request : EXT2DriverRequest) (d : Disk) (i b : Nat) : Prop
    extends DirAt i request.parentInode.toNat d (slot d i) b where
  used : IsData b ∧ blockUsed d b = true

/-! ## The block count -/

section Count

variable {request : EXT2DriverRequest}

theorem blockCount_eq : blockCount request =
    (request.bufferSize.toNat + 511) % 4294967296 / 512 := by
  have h512 : (512 : UInt32).toNat = 512 := rfl
  have h1 : (1 : UInt32).toNat = 1 := rfl
  have hlt := request.bufferSize.toNat_lt
  unfold blockCount
  rw [UInt32.toNat_div, UInt32.toNat_sub, UInt32.toNat_add, h512, h1]
  omega

/-- The 32-bit count is exact up to 2^32 - 512 bytes, and only there. -/
theorem blockCount_exact_iff :
    blockCount request = exactBlocks request ↔ request.bufferSize.toNat ≤ 4294966784 := by
  have hlt := request.bufferSize.toNat_lt
  rw [blockCount_eq]
  unfold exactBlocks
  omega

/-- A file that fits on the disk has no such size. -/
theorem blockCount_exact {n : Nat} (h : blocksNeeded (exactBlocks request) ≤ n) (hn : n ≤ 2048) :
    blockCount request = exactBlocks request := by
  have := (le_blocksNeeded (exactBlocks request)).trans (h.trans hn)
  rw [blockCount_exact_iff]
  unfold exactBlocks at this
  omega

end Count

theorem card_freeFrom_le (d : Disk) (g : Nat) : (freeFrom d g).card ≤ 2048 :=
  (Finset.card_filter_le _ _).trans (by rw [Finset.card_range])

/-! ## Stored files -/

section Stored

variable {request : EXT2DriverRequest} {d : Disk} {i : Nat} {t t' : FileTree} {ni : Mem}

theorem FileAt.stored (h : FileAt request d ni t) (hs : slot d i = cutNode ni)
    (hexact : blockCount request = exactBlocks request)
    (hfull : t.data.length = blockCount request)
    (hused : ∀ b ∈ t.blocks, IsData b ∧ blockUsed d b = true) : Stored request d i t := by
  have h' : FileAt request d (slot d i) t :=
    h.congr (fun o ho => by rw [hs, cutNode_of_lt ho]) fun _ _ => rfl
  refine ⟨h'.mode, h'.size, h'.count.trans hexact, h'.holds, by rw [h'.count]; exact h'.shape,
    by rw [h'.count]; exact hfull, hused, fun k hk => ?_⟩
  have hk' : k / 512 < t.data.length := by
    rw [hfull, hexact]
    unfold exactBlocks
    omega
  rw [List.getD_eq_getElem _ _ hk', h'.filled (k / 512) _ (List.getElem?_eq_getElem hk'),
    Nat.zero_add]
  exact chunk_apply (by rw [h'.count, h'.size, hexact]; rfl) (by rw [h'.size]; exact hk)

/-- Of two trees on one node the second is full only if the first one is. -/
theorem FileAt.full_of_stored (h : FileAt request d ni t) (hs : slot d i = cutNode ni)
    (h0 : ∀ b ∈ t.blocks, b ≠ 0) (h' : Stored request d i t') :
    blockCount request = exactBlocks request ∧ t.data.length = blockCount request := by
  have hat : FileAt request d (slot d i) t :=
    h.congr (fun o ho => by rw [hs, cutNode_of_lt ho]) fun _ _ => rfl
  have hcount : blockCount request = exactBlocks request := by rw [← hat.count, h'.count]
  have hblocks : t.blocks = t'.blocks := by
    rw [← treeBlocks_eq hat.holds h0,
      ← treeBlocks_eq h'.holds fun b hb => (h'.used b hb).1.ne_zero]
  obtain ⟨h1, -, h3⟩ := hat.shape.length_blocks
  have hlen := h'.shape.length_blocks.2.1 h'.full
  rw [h'.count, ← hcount, ← hblocks] at hlen
  refine ⟨hcount, ?_⟩
  by_contra hne
  have := h3 (by omega)
  omega

/-- A stored file comes back byte for byte, and the buffer keeps the rest. -/
theorem Stored.copyFile {fs : Fs} (h : Stored request fs.disk i t) {node : Mem}
    (hn : ∀ o < 70, node o = slot fs.disk i o) (out : Mem) (k : Nat) :
    (copyFile fs node out).out k = if k < request.bufferSize.toNat then request.buf k
      else out k := by
  have hsize : iSize node = request.bufferSize.toNat := by rw [iSize_congr hn, h.size]
  have hcount : iBlocks node = exactBlocks request := by rw [iBlocks_congr hn, h.count]
  have hlen : t.data.length = exactBlocks request := by rw [h.full, h.count]
  unfold exactBlocks at hcount hlen
  rw [copyFile_eq (h.holds.congr (fun j hj => iBlock_congr hn (by omega)) fun _ _ => rfl)
    fun b hb => (h.used b hb).1.ne_zero, copyList_out]
  dsimp only
  rw [hsize]
  by_cases hk : k < request.bufferSize.toNat
  · rw [if_pos (by omega), if_pos hk, Nat.sub_zero, h.bytes k hk]
  · rw [if_neg (by omega), if_neg hk]

end Stored

/-- `read` of a stored file under its name, in a parent with the blocks `bs`. -/
theorem read_stored {request rd : EXT2DriverRequest} {fs : Fs} (hl : Layout fs) {i : Nat}
    {t : FileTree} (hp : IsInode rd.parentInode.toNat)
    (hd : isDir fs.disk rd.parentInode.toNat = true) {bs : List Nat}
    (hptrs : dirPtrs (view (fs.readBlocks (fs.inodeBlock rd.parentInode.toNat))
      (slotOffset rd.parentInode.toNat)) = bs)
    (hfull : ∀ b ∈ bs, b ≠ 0) (hok : ∀ b ∈ bs, IsDirBlock (fs.disk b)) {e : Entry}
    (hfind : (blockEntries fs.disk bs).find? (fun e => e.name == requestName rd) = some e)
    (he : e.inode = i) (htype : e.fileType = 1) (hi : IsInode i) (hst : Stored request fs.disk i t)
    (hsize : request.bufferSize.toNat ≤ rd.bufferSize.toNat) :
    (read rd fs).1 = 0 ∧ ∀ k, (read rd fs).2 k =
      if k < request.bufferSize.toNat then request.buf k else rd.buf k := by
  subst he
  have hnode : ∀ o < 70, view (fs.readBlocks (fs.inodeBlock e.inode)) (slotOffset e.inode) o =
      slot fs.disk e.inode o := fun o ho => hl.node_apply hi ho
  have heq := read_eq_blocks hl hp hd hptrs hfull hok
  rw [hfind] at heq
  unfold readEntry at heq
  dsimp only at heq
  rw [if_neg (by rw [htype]; decide), iSize_congr hnode, hst.size, if_neg (by omega)] at heq
  rw [heq]
  exact ⟨rfl, hst.copyFile hnode rd.buf⟩

theorem Consistent.read_stored {request rd : EXT2DriverRequest} {fs : Fs} (hc : Consistent fs)
    {i : Nat} {t : FileTree} (hp : IsDirectory fs.disk rd.parentInode.toNat) {e : Entry}
    (hfind : (entries fs.disk rd.parentInode.toNat).find? (fun e => e.name == requestName rd) =
      some e)
    (he : e.inode = i) (htype : e.fileType = 1) (hi : IsInode i) (hst : Stored request fs.disk i t)
    (hsize : request.bufferSize.toNat ≤ rd.bufferSize.toNat) :
    (read rd fs).1 = 0 ∧ ∀ k, (read rd fs).2 k =
      if k < request.bufferSize.toNat then request.buf k else rd.buf k := by
  have hl := hc.ready.layout
  have hfull := hc.dirFull _ hp
  have hok := hc.dirOk _ hp
  have hblocks := hok.blocks
  unfold entries at hfind
  rw [dirBlocks_of_full hfull] at hfind hblocks
  exact LossOs.Ext2.read_stored hl hp.isInode hp.dir (dirPtrs_view hl hp.isInode hok.size) hfull
    hblocks hfind he htype hi hst hsize

theorem requestFileType_file {request : EXT2DriverRequest} (h : isDirRequest request = false) :
    (requestFileType request).toNat = 1 := by
  unfold requestFileType
  rw [h]
  rfl

/-! ## What `write` builds -/

section Made

variable {request : EXT2DriverRequest} {i : Nat} {d₀ d : Disk} {ni : Mem} {L X : List Nat}

/-- The file is stored when the blocks sufficed and the count is exact, and only then. -/
theorem Made.stored_iff (h : Made request i d₀ d ni L X) (hreg : isDirRequest request = false)
    (hs : slot d i = cutNode ni) (hL : ∀ b ∈ L, IsData b ∧ blockUsed d b = true) :
    (∃ t, Stored request d i t) ↔ blockCount request = exactBlocks request ∧
      blocksNeeded (blockCount request) ≤ (freeFrom d₀ (inodeToBgd i)).card := by
  cases h with
  | file t _ hat _ hfull =>
    constructor
    · rintro ⟨t', ht'⟩
      obtain ⟨h1, h2⟩ := hat.full_of_stored hs (fun b hb => (hL b hb).1.ne_zero) ht'
      exact ⟨h1, hfull.mp h2⟩
    · rintro ⟨h1, h2⟩
      exact ⟨t, hat.stored hs h1 (hfull.mpr h2) hL⟩
  | dir b hdir => rw [hreg] at hdir; cases hdir
  | fallback hdir => rw [hreg] at hdir; cases hdir

theorem Made.storedDir (h : Made request i d₀ d ni L []) (hdir : isDirRequest request = true)
    (hs : slot d i = cutNode ni) (hL : ∀ b ∈ L, IsData b ∧ blockUsed d b = true) :
    ∃ b ∈ L, StoredDir request d i b := by
  cases h with
  | file t hreg => rw [hdir] at hreg; cases hreg
  | dir b _ _ hat =>
    exact ⟨b, by simp, hat.congr (fun o ho => by rw [hs, cutNode_of_lt ho]) rfl, hL b (by simp)⟩

end Made

end LossOs.Ext2
