/-
  Directory listings.

  `dirBytes` is a directory as its readers want it, its blocks one behind the other; a walk by
  `rec_len` over these bytes meets its entries (`walk_dirBytes`). `read_directory` reads one block
  and copies `i_size` bytes, which `write` keeps at 512 for each block, so behind the first block
  the caller gets what lies behind the read buffer. `listing_complete_iff` says when that is right.
-/
import LossOs.Ext2.Emptiness
import LossOs.Ext2.Overflow

namespace LossOs.Ext2

open LossOs.Lib

/-! ## The walk -/

/-- The walk of the shell's commands over the `size` bytes of a listing: the live records, up to
    the first one that does not fit. -/
def walk (m : Mem) (size off : Nat) : List Rec :=
  if _h : off < size then
    if entryInode m off = 0 then
      if _h' : entryRecLen m off = 0 then []
      else walk m size (off + entryRecLen m off)
    else if _h' : size < off + entryRecLen m off ∨
      entryRecLen m off < 9 + entryNameLen m off then []
    else recAt m off :: walk m size (off + entryRecLen m off)
  else []
  termination_by size - off

section Walk

variable {m m' : Mem} {o e size : Nat} {rs : List Rec}

/-- Over a tiling the walk meets the live records. -/
theorem walk_tiles_eq (h : Tiles m o rs e) (he : e ≤ size) :
    walk m size o = rs.filter (fun r => r.inode ≠ 0) ++ walk m size e := by
  induction rs generalizing o with
  | nil =>
    obtain rfl : o = e := h
    rfl
  | cons r rs ih =>
    obtain ⟨hr, -, hsize, hrs⟩ := h
    have hle := hrs.le
    have hsz := size_le_entryRecLen r
    have hin : entryInode m o = r.inode := congrArg Rec.inode hr
    have hlen : entryRecLen m o = r.recLen := congrArg Rec.recLen hr
    have hname : entryNameLen m o = r.name.length := by rw [← hr]; exact (length_bytes _ _ _).symm
    rw [walk, dif_pos (by omega), hin, hlen, hname, hr]
    by_cases h0 : r.inode = 0
    · rw [if_pos h0, dif_neg (by omega), List.filter_cons_of_neg (by simpa using h0)]
      exact ih hrs
    · rw [if_neg h0, dif_neg (by omega), List.filter_cons_of_pos (by simpa using h0), ih hrs]
      rfl

theorem walk_tiles (h : Tiles m o rs e) (he : e ≤ size) :
    (walk m size o).map Rec.entry = live rs ++ (walk m size e).map Rec.entry := by
  rw [walk_tiles_eq h he, List.map_append]
  rfl

/-- A record takes 12 bytes at least. -/
theorem Tiles.length_le (h : Tiles m o rs e) : o + 12 * rs.length ≤ e := by
  induction rs generalizing o with
  | nil => exact h.le
  | cons r rs ih =>
    obtain ⟨-, -, hsize, hrs⟩ := h
    have h12 : 12 ≤ r.size := by
      unfold Rec.size
      omega
    have := ih hrs
    rw [List.length_cons]
    omega

theorem Tiles.name_le (h : Tiles m o rs e) : ∀ r ∈ rs, r.name.length ≤ 255 := by
  induction rs generalizing o with
  | nil => nofun
  | cons r rs ih =>
    obtain ⟨-, hname, -, hrs⟩ := h
    exact List.forall_mem_cons.mpr ⟨hname, ih hrs⟩

/-- The walk ends where nothing but zeros follows. -/
theorem walk_zeros (h : ∀ k, o ≤ k → m k = 0) : walk m size o = [] := by
  have h1 : entryInode m o = 0 := rd32_eq_zero fun k hk _ => h k hk
  have h2 : entryRecLen m o = 0 := rd16_eq_zero fun k hk _ => h k (by omega)
  rw [walk, h1, h2, if_pos rfl, dif_pos rfl]
  split <;> rfl

theorem bytes_view (m : Mem) (s o n : Nat) : bytes (view m s) o n = bytes m (s + o) n :=
  bytes_eq_iff.mpr ⟨rfl, fun i _ => by rw [view_apply, Nat.add_assoc]⟩

/-- A tiling seen from address `s` on. -/
theorem Tiles.shift {s : Nat} (h : Tiles (view m s) o rs e) :
    Tiles m (s + o) (rs.map fun r => { r with off := s + r.off }) (s + e) := by
  induction rs generalizing o with
  | nil => exact congrArg (s + ·) h
  | cons r rs ih =>
    obtain ⟨hr, hname, hsize, hrs⟩ := h
    refine ⟨?_, hname, hsize, ?_⟩
    · rw [← hr]
      unfold recAt
      rw [bytes_view]
      rfl
    · show Tiles m (s + o + r.recLen) _ _
      rw [Nat.add_assoc]
      exact ih hrs

theorem live_shift (s : Nat) (rs : List Rec) :
    live (rs.map fun r => { r with off := s + r.off }) = live rs := by
  unfold live
  rw [List.filter_map, List.map_map]
  rfl

end Walk

/-! ## The bytes of a directory -/

/-- The blocks of directory `p` one behind the other, in `i_block` order. -/
def dirBytes (d : Disk) (p : Nat) : Mem := fun o => (d (iBlock (slot d p) (o / 512))).mem (o % 512)

section Bytes

variable {d : Disk} {fs : Fs} {p : Nat}

theorem dirBytes_view {k o : Nat} (ho : o < 512) :
    view (dirBytes d p) (512 * k) o = (d (iBlock (slot d p) k)).mem o := by
  unfold view dirBytes
  rw [show (512 * k + o) / 512 = k by omega, show (512 * k + o) % 512 = o by omega]

/-- The first `n` blocks are tiled by their records. -/
theorem dirBytes_tiles (n : Nat) (h : ∀ k < n, IsDirBlock (d (iBlock (slot d p) k))) :
    ∃ rs, Tiles (dirBytes d p) 0 rs (512 * n) ∧
      live rs = blockEntries d ((List.range n).map (iBlock (slot d p))) := by
  induction n with
  | zero => exact ⟨[], rfl, rfl⟩
  | succ n ih =>
    obtain ⟨rs, htiles, hlive⟩ := ih fun k hk => h k (by omega)
    have hn : Tiles (view (dirBytes d p) (512 * n)) 0
        (blockRecords (d (iBlock (slot d p) n))) 512 :=
      (h n (by omega)).tiles.congr fun o _ ho => dirBytes_view ho
    refine ⟨_, tiles_append.mpr ⟨512 * n, htiles, hn.shift⟩, ?_⟩
    rw [live_append, live_shift, hlive, List.range_succ, List.map_append, blockEntries_append]
    congr 1
    exact (List.append_nil _).symm

/-- A walk over the bytes of a directory meets its entries. -/
theorem walk_dirBytes (hc : Consistent fs) (hp : IsDirectory fs.disk p) {m : Mem}
    (hm : ∀ o < 512 * iBlocks (slot fs.disk p), m o = dirBytes fs.disk p o) :
    (walk m (512 * iBlocks (slot fs.disk p)) 0).map Rec.entry = entries fs.disk p := by
  have hptrs := dirBlocks_of_full (hc.dirFull p hp)
  have hblocks := (hc.dirOk p hp).blocks
  rw [hptrs] at hblocks
  obtain ⟨rs, htiles, hlive⟩ := dirBytes_tiles (d := fs.disk) (p := p) (iBlocks (slot fs.disk p))
    fun k hk => hblocks _ (List.mem_map.mpr ⟨k, List.mem_range.mpr hk, rfl⟩)
  rw [walk_tiles (htiles.congr fun o _ ho => hm o ho) le_rfl, hlive, walk, dif_neg (lt_irrefl _)]
  unfold entries
  rw [hptrs]
  exact List.append_nil _

theorem Consistent.name_le (hc : Consistent fs) (hp : IsDirectory fs.disk p) {e : Entry}
    (he : e ∈ entries fs.disk p) : e.name.length ≤ 255 := by
  unfold entries at he
  obtain ⟨b, hb, r, hr, -, rfl⟩ := mem_blockEntries.mp he
  exact ((hc.dirOk p hp).blocks b hb).tiles.name_le r hr

end Bytes

/-! ## `read_directory` -/

section Listing

variable {request : EXT2DriverRequest} {fs : Fs} {e : Entry}

/-- `read_directory` of an entry of a directory. -/
theorem readDirectory_eq (hc : Consistent fs) (hp : IsDirectory fs.disk request.parentInode.toNat)
    (hfirst : firstNamed request fs.disk request.parentInode.toNat = some e)
    (htype : e.fileType = 2) (hi : IsInode e.inode) :
    readDirectory request fs =
      if iBlocks (slot fs.disk e.inode) = 0 then (-1, request.buf)
      else if iBlock (slot fs.disk e.inode) 0 = 0 then (-1, request.buf)
      else if request.bufferSize.toNat < iSize (slot fs.disk e.inode) then (-1, request.buf)
      else (0, blit request.buf 0 (fs.readBlocks (iBlock (slot fs.disk e.inode) 0))
        (iSize (slot fs.disk e.inode))) := by
  have hl := hc.ready.layout
  have hok := hc.dirOk _ hp
  have hn : ∀ o < 70, view (fs.readBlocks (fs.inodeBlock e.inode)) (slotOffset e.inode) o =
      slot fs.disk e.inode o := fun o ho => hl.node_apply hi ho
  have hlook : lookupDir request (view (fs.readBlocks (fs.inodeBlock request.parentInode.toNat))
      (slotOffset request.parentInode.toNat)) fs = some (e.inode, e.fileType) := by
    rw [lookupDir_eq (slot fs.disk request.parentInode.toNat) (dirPtrs_view hl hp.isInode hok.size)
      (hc.dirFull _ hp) hok.blocks]
    unfold firstNamed entries at hfirst
    exact congrArg (Option.map fun e : Entry => (e.inode, e.fileType)) hfirst
  unfold readDirectory
  dsimp only
  rw [if_neg (by have := hp.isInode.1; omega), iMode_view hl hp.isInode,
    if_neg (isDir_eq_true.mp hp.dir), hlook]
  dsimp only
  rw [if_neg (not_not.mpr htype), iBlocks_congr hn, iBlock_congr hn (by decide), iSize_congr hn]

/-- What is not a directory is not listed. -/
theorem readDirectory_not_dir (hc : Consistent fs) (hi : IsInode request.parentInode.toNat)
    (hd : isDir fs.disk request.parentInode.toNat = false) :
    readDirectory request fs = (-1, request.buf) := by
  unfold readDirectory
  dsimp only
  rw [if_neg (by have := hi.1; omega), iMode_view hc.ready.layout hi, if_pos (isDir_eq_false.mp hd)]

/-- `read_directory` of directory `p` returns 0, the first `i_size` bytes of the buffer are the
    blocks of `p`, and a walk over them meets the entries of `p`. -/
structure ListingOk (request : EXT2DriverRequest) (fs : Fs) (p : Nat) : Prop where
  code : (readDirectory request fs).1 = 0
  bytes : ∀ o < iSize (slot fs.disk p), (readDirectory request fs).2 o = dirBytes fs.disk p o
  entries : (walk (readDirectory request fs).2 (iSize (slot fs.disk p)) 0).map Rec.entry =
    LossOs.Ext2.entries fs.disk p

/-- `read_directory` lists a directory exactly if this has one block, or what lies behind the read
    buffer happens to be the other blocks. -/
theorem listing_complete_iff (hc : Consistent fs)
    (hp : IsDirectory fs.disk request.parentInode.toNat)
    (hfirst : firstNamed request fs.disk request.parentInode.toNat = some e)
    (htype : e.fileType = 2) (hdir : IsDirectory fs.disk e.inode)
    (hsize : iSize (slot fs.disk e.inode) = 512 * iBlocks (slot fs.disk e.inode))
    (hroom : iSize (slot fs.disk e.inode) ≤ request.bufferSize.toNat) :
    ListingOk request fs e.inode ↔ 0 < iBlocks (slot fs.disk e.inode) ∧
      ∀ o, 512 ≤ o → o < 512 * iBlocks (slot fs.disk e.inode) →
        fs.stack o = dirBytes fs.disk e.inode o := by
  have heq := readDirectory_eq hc hp hfirst htype hdir.isInode
  by_cases hpos : 0 < iBlocks (slot fs.disk e.inode)
  · have hblock : iBlock (slot fs.disk e.inode) 0 ≠ 0 := hc.dirFull _ hdir _
      (List.mem_map.mpr ⟨0, List.mem_range.mpr hpos, rfl⟩)
    rw [if_neg (by omega), if_neg hblock, if_neg (by omega)] at heq
    have hbuf : ∀ o < 512 * iBlocks (slot fs.disk e.inode), (readDirectory request fs).2 o =
        fs.readBlocks (iBlock (slot fs.disk e.inode) 0) o := fun o ho => by
      rw [heq]
      exact blit_of_mem (Nat.zero_le o) (by omega)
    rw [and_iff_right hpos]
    constructor
    · intro h o h1 h2
      rw [← h.bytes o (by omega), hbuf o h2]
      unfold Fs.readBlocks
      rw [dif_neg (by omega)]
    · intro h
      have hbytes : ∀ o < 512 * iBlocks (slot fs.disk e.inode), (readDirectory request fs).2 o =
          dirBytes fs.disk e.inode o := fun o ho => by
        rw [hbuf o ho]
        by_cases h1 : o < 512
        · have hview := dirBytes_view (d := fs.disk) (p := e.inode) (k := 0) h1
          rw [view_apply, Nat.mul_zero, Nat.zero_add] at hview
          rw [hview, readBlocks_of_lt _ _ h1]
        · rw [← h o (by omega) ho]
          unfold Fs.readBlocks
          rw [dif_neg h1]
      refine ⟨by rw [heq], by rw [hsize]; exact hbytes, ?_⟩
      rw [hsize]
      exact walk_dirBytes hc hdir hbytes
  · refine iff_of_false (fun h => ?_) fun h => hpos h.1
    have hcode := h.code
    rw [heq, if_pos (by omega)] at hcode
    cases hcode

/-- The first entry of the name `.` is the directory's own. -/
theorem Shaped.firstNamed_dot (h : Shaped fs) {p : Nat} (hp : IsDirectory fs.disk p)
    (hname : requestName request = [46]) : firstNamed request fs.disk p = some ⟨[46], p, 2⟩ := by
  obtain ⟨b, post, r, ys, hbs, hrs, hr, -⟩ := h.dot p hp
  have hr0 : r.inode ≠ 0 := by
    rw [show r.inode = p from congrArg Entry.inode hr]
    have := hp.isInode.1
    omega
  unfold firstNamed entries
  rw [hbs, blockEntries_cons, hrs, live_cons_of_ne hr0, hr, hname]
  rfl

end Listing

/-- The request by which the shell's commands list directory `inode`. -/
def listRequest (inode : Nat) (buf : Mem) : EXT2DriverRequest where
  buf := buf
  name := fun k => if k = 0 then 46 else 0
  nameLen := 1
  parentInode := UInt32.ofNat inode
  bufferSize := 8192
  isDirectory := false

theorem listRequest_parent {p : Nat} (hp : IsInode p) (buf : Mem) :
    (listRequest p buf).parentInode.toNat = p := by
  have := hp.2
  exact UInt32.toNat_ofNat_of_lt' (by show p < 4294967296; omega)

/-- The shell asks a directory for itself. -/
theorem Shaped.firstNamed_list {fs : Fs} (h : Shaped fs) {p : Nat} (hp : IsDirectory fs.disk p)
    (buf : Mem) : firstNamed (listRequest p buf) fs.disk (listRequest p buf).parentInode.toNat =
      some ⟨[46], p, 2⟩ := by
  rw [listRequest_parent hp.isInode]
  exact h.firstNamed_dot hp rfl

/-! ## Two blocks -/

theorem LongDir.within {n : Nat} {fs : Fs} (h : LongDir n fs) (hn : n < 14) :
    Within (.write (longNth n)) fs where
  parent := by show 1 ≤ 896; decide
  write := fun request he _ => by
    cases he
    refine ⟨fun _ => ?_, fun hd => ?_⟩
    · show iBlocks (slot fs.disk 1) < 15
      rw [h.size]
      omega
    · rw [isDirRequest_longNth] at hd
      cases hd
  delete := fun _ _ he => by cases he

theorem within_longName : Within (.write (longName 97)) freshFs :=
  isFresh_freshFs.formatted.within rfl (by rw [requestName_longName]; decide)
    (by rw [requestName_longName]; decide)

theorem shaped_longFs : Shaped longFs := isFresh_freshFs.formatted.shaped.write within_longName

/-- The block that the next long name adds starts with its inode number. -/
theorem LongDir.block_inode {n : Nat} {fs : Fs} (h : LongDir n fs) (hn : n < 14) :
    entryInode (dirBytes (write (longNth n) fs).2.disk 1) (512 * (n + 1)) = 3 + n := by
  obtain ⟨-, fs₀, ni, hgrow⟩ := h.grow hn
  generalize (write (longNth n) fs).2 = fs' at hgrow ⊢
  have h15 : iBlocks (slot fs.disk 1) ≤ 15 := by rw [h.size]; omega
  have hptr := (hgrow.parent_fields h15 (by omega)).2.2 (n + 1) (by omega)
  rw [h.size, if_pos rfl] at hptr
  have hrec : entryInode (fs'.disk (22 + n)).mem 0 = 3 + n := congrArg Rec.inode hgrow.block.1
  rw [← hrec, ← hptr]
  rw [show entryInode (dirBytes fs'.disk 1) (512 * (n + 1)) =
    rd32 (view (dirBytes fs'.disk 1) (512 * (n + 1))) 0 from
      (rd32_view (dirBytes fs'.disk 1) (512 * (n + 1)) 0).symm]
  exact rd32_congr fun o _ ho => dirBytes_view (by omega)

/-- With a second long name the root directory has two blocks. -/
def twoFs : Fs := (write (longNth 0) longFs).2

theorem twoFs_root : Shaped twoFs ∧ LongDir 1 twoFs ∧
    entryInode (dirBytes twoFs.disk 1) 512 = 3 := by
  have hin := longDir_longFs.block_inode (by decide)
  rw [Nat.zero_add, Nat.mul_one, Nat.add_zero] at hin
  unfold twoFs
  exact ⟨shaped_longFs.write (longDir_longFs.within (by decide)),
    (longDir_longFs.step (by decide)).2, hin⟩

/-- The listing of a fresh root directory is complete. -/
theorem listing_complete_iff_fresh : ListingOk (listRequest 1 fun _ => 0) freshFs 1 := by
  have hf := isFresh_freshFs.formatted
  have hp : IsDirectory freshFs.disk 1 := hf.isDirectory_iff.mpr rfl
  have hsize := hf.shaped.size 1 hp
  rw [hf.iBlocks_root] at hsize
  have hroom : iSize (slot freshFs.disk 1) ≤ (listRequest 1 fun _ => 0).bufferSize.toNat := by
    rw [hsize]
    decide
  refine (@listing_complete_iff (listRequest 1 _) freshFs ⟨[46], 1, 2⟩ hf.consistent hp
    (hf.shaped.firstNamed_list hp _)
    rfl hp (hf.shaped.size 1 hp) hroom).mpr ?_
  dsimp only
  rw [hf.iBlocks_root]
  exact ⟨by decide, fun o h1 h2 => by omega⟩

/-- With two blocks and zeros behind the read buffer the second block is missing. -/
theorem listing_incomplete : IsDirectory twoFs.disk 1 ∧
    iSize (slot twoFs.disk 1) ≤ (listRequest 1 fun _ => 0).bufferSize.toNat ∧
    ¬ ListingOk (listRequest 1 fun _ => 0) (twoFs.withStack fun _ => 0) 1 := by
  obtain ⟨hs, hlong, hin⟩ := twoFs_root
  generalize twoFs = fs at hs hlong hin ⊢
  have hsize := hs.size 1 hlong.dir
  rw [hlong.size] at hsize
  have hroom : iSize (slot fs.disk 1) ≤ (listRequest 1 fun _ => 0).bufferSize.toNat := by
    rw [hsize]
    decide
  refine ⟨hlong.dir, hroom, fun h => ?_⟩
  have hs' := hs.withStack fun _ => 0
  obtain ⟨-, hstack⟩ := (@listing_complete_iff (listRequest 1 _) (fs.withStack _) ⟨[46], 1, 2⟩
    hs'.consistent hlong.dir (hs'.firstNamed_list hlong.dir _) rfl hlong.dir
      (hs'.size 1 hlong.dir) hroom).mp h
  have hzero : entryInode (dirBytes fs.disk 1) 512 = 0 := by
    refine rd32_eq_zero fun o h1 h2 => (hstack o h1 ?_).symm
    show o < 512 * iBlocks (slot fs.disk 1)
    rw [hlong.size]
    omega
  rw [hin] at hzero
  cases hzero

end LossOs.Ext2
