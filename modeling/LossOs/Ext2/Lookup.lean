/-
  Looking a name up.

  `read`, `read_directory`, `delete` and `get_inode_for_path` each have a search of their own. They
  differ in what they do at a zero pointer (the first two stop, the others skip it) and in whether
  `rec_len` is tested before the name; on a directory whose blocks are tiled by records that makes
  no difference, and all of them find the record `selected` (`lookups_agree`).
-/
import LossOs.Ext2.Fresh

namespace LossOs.Ext2

open LossOs.Lib

/-! ## `get_inode_for_path` -/

/-- The record loop of `get_inode_for_path`. -/
def pathBlock (temp : Mem) (len : Nat) (dirBuf : Mem) (offset : Nat) : Option Nat :=
  if _h : offset < 512 then
    if entryInode dirBuf offset ≠ 0 ∧ entryNameLen dirBuf offset = len ∧
        memcmp (view dirBuf (offset + 9)) temp len = 0 then
      some (entryInode dirBuf offset)
    else if _h' : entryRecLen dirBuf offset = 0 then none
    else pathBlock temp len dirBuf (offset + entryRecLen dirBuf offset)
  else none
  termination_by 512 - offset

/-- Its block loop, which skips zero pointers. -/
def pathDir (temp : Mem) (len : Nat) (inode : Mem) (fs : Fs) : Option Nat :=
  ((List.range (iBlocks inode)).map (iBlock inode)).findSome? fun block =>
    if block = 0 then none else pathBlock temp len (fs.readBlocks block) 0

/-! ## What is selected -/

/-- The parent as the functions load it. -/
def parentNode (request : EXT2DriverRequest) (fs : Fs) : Mem :=
  view (fs.readBlocks (fs.inodeBlock request.parentInode.toNat))
    (slotOffset request.parentInode.toNat)

/-- The first live record of the name, by blocks and then by records, with its block. -/
def selected (request : EXT2DriverRequest) (fs : Fs) : Option (Nat × Rec) :=
  (dirRecords fs.disk (dirPtrs (parentNode request fs))).find? fun q => q.2.named request

/-- The parent is a directory, none of its pointers is zero, and its blocks are tiled by records. -/
structure Searchable (request : EXT2DriverRequest) (fs : Fs) : Prop where
  parent : request.parentInode.toNat ≠ 0
  dir : iMode (parentNode request fs) &&& 0x4000 ≠ 0
  full : ∀ b ∈ dirPtrs (parentNode request fs), b ≠ 0
  blocks : ∀ b ∈ dirPtrs (parentNode request fs), IsDirBlock (fs.disk b)

/-- What `read_directory` does with the entry that its search has found. -/
def listEntry (request : EXT2DriverRequest) (fs : Fs) : Option Entry → Int × Mem
  | none => (2, request.buf)
  | some e =>
      if e.fileType ≠ 2 then (1, request.buf)
      else
        let target := view (fs.readBlocks (fs.inodeBlock e.inode)) (slotOffset e.inode)
        if iBlocks target = 0 then (-1, request.buf)
        else if iBlock target 0 = 0 then (-1, request.buf)
        else if request.bufferSize.toNat < iSize target then (-1, request.buf)
        else (0, blit request.buf 0 (fs.readBlocks (iBlock target 0)) (iSize target))

/-- What `delete` does with the record that its search has found, and the one before it. -/
def deleteRecord (request : EXT2DriverRequest) (fs : Fs) (prev : Option Nat) :
    Option (Nat × Rec) → Int × Fs
  | none => (1, fs)
  | some (b, r) =>
      if request.isDirectory ∧ r.fileType ≠ 2 then (1, fs)
      else if request.isDirectory ∧ isDirectoryEmpty r.inode fs = false then (2, fs)
      else if ¬ request.isDirectory ∧ r.fileType ≠ 1 then (1, fs)
      else (0, syncMetadata ((deallocateNode r.inode fs).writeBlocks b
        (removeEntry prev r.off (fs.readBlocks b))))

/-- All four act on the record `sel`, and find nothing if there is none. -/
structure AllSelect (request : EXT2DriverRequest) (fs : Fs) (sel : Option (Nat × Rec)) : Prop where
  read : read request fs = readEntry request fs (sel.map fun q => q.2.entry)
  readDirectory : readDirectory request fs = listEntry request fs (sel.map fun q => q.2.entry)
  delete : ∃ prev, delete request fs = deleteRecord request fs prev sel
  path : pathDir request.name request.nameLen.toNat (parentNode request fs) fs =
    sel.map fun q => q.2.inode
  readCode : (LossOs.Ext2.read request fs).1 = 2 ↔ sel = none
  readDirectoryCode : (LossOs.Ext2.readDirectory request fs).1 = 2 ↔ sel = none
  deleteFinds : findDir request (parentNode request fs) fs = none ↔ sel = none

/-! ## The searches -/

section Searches

variable {request : EXT2DriverRequest} {fs : Fs} {m : Mem} {o : Nat} {rs : List Rec}

/-- The comparison of `get_inode_for_path` is that of the others. -/
theorem pathMatches_iff : entryInode m o ≠ 0 ∧ entryNameLen m o = request.nameLen.toNat ∧
      memcmp (view m (o + 9)) request.name request.nameLen.toNat = 0 ↔
    (recAt m o).named request = true := by
  rw [named_recAt]
  unfold nameMatches
  rw [Bool.and_eq_true, beq_iff_eq, beq_iff_eq]
  refine and_congr_right fun _ => and_congr_right fun hlen => ?_
  rw [hlen]

/-- The record loop of `get_inode_for_path` stops at the first live record of the name. -/
theorem pathBlock_eq (h : Tiles m o rs 512) : pathBlock request.name request.nameLen.toNat m o =
    (rs.find? (Rec.named request)).map Rec.inode := by
  induction rs generalizing o with
  | nil =>
    obtain rfl : o = 512 := h
    unfold pathBlock
    rw [dif_neg (by omega)]
    rfl
  | cons r rs ih =>
    obtain ⟨h1, h2, h3, h4⟩ := h
    have hle := h4.le
    have hsz := size_le_entryRecLen r
    have hrl : entryRecLen m o = r.recLen := by rw [← h1]; rfl
    have hino : entryInode m o = r.inode := by rw [← h1]; rfl
    have hiff := @pathMatches_iff request m o
    rw [h1] at hiff
    unfold pathBlock
    rw [dif_pos (by omega), List.find?_cons]
    cases hn : r.named request with
    | true =>
      rw [if_pos (hiff.mpr hn), hino]
      rfl
    | false =>
      rw [if_neg (fun hc => by rw [hiff.mp hc] at hn; cases hn), hrl, dif_neg (by omega), ih h4]

/-- The record that is selected is that of the first block that has one. -/
theorem selected_eq (request : EXT2DriverRequest) (fs : Fs) : selected request fs =
    (dirPtrs (parentNode request fs)).findSome? fun b =>
      ((blockRecords (fs.disk b)).find? (Rec.named request)).map fun r => (b, r) := by
  unfold selected dirRecords
  rw [List.find?_flatMap]
  refine findSome?_congr fun b _ => ?_
  rw [List.find?_map]
  rfl

/-- The search of `read` and `read_directory`. -/
theorem Searchable.lookupDir_eq (h : Searchable request fs) :
    lookupDir request (parentNode request fs) fs =
      (selected request fs).map fun q => (q.2.inode, q.2.fileType) := by
  have hall : (dirPtrs (parentNode request fs)).takeWhile (· ≠ 0) =
      dirPtrs (parentNode request fs) :=
    List.takeWhile_eq_self_iff.mpr (by simpa using h.full)
  unfold lookupDir
  rw [show (List.range (iBlocks (parentNode request fs))).map (iBlock (parentNode request fs)) =
    dirPtrs (parentNode request fs) from rfl, hall, selected_eq, List.map_findSome?]
  refine findSome?_congr fun b hb => ?_
  rw [lookupBlock_eq (h.blocks b hb).tiles_read, Function.comp_apply, Option.map_map]
  rfl

/-- The search of `get_inode_for_path`. -/
theorem Searchable.pathDir_eq (h : Searchable request fs) :
    pathDir request.name request.nameLen.toNat (parentNode request fs) fs =
      (selected request fs).map fun q => q.2.inode := by
  unfold pathDir
  rw [selected_eq, List.map_findSome?]
  refine findSome?_congr fun b hb => ?_
  rw [if_neg (h.full b hb), pathBlock_eq (h.blocks b hb).tiles_read,
    Function.comp_apply, Option.map_map]
  rfl

/-- The search of `delete`, and what lies at the offset that it gives. -/
theorem Searchable.findDir_cases (h : Searchable request fs) :
    (findDir request (parentNode request fs) fs = none ∧ selected request fs = none) ∨
    ∃ b r prev, findDir request (parentNode request fs) fs = some (b, r.off, prev) ∧
      selected request fs = some (b, r) ∧ r.inode ≠ 0 ∧
      entryInode (fs.readBlocks b) r.off = r.inode ∧
      entryFileType (fs.readBlocks b) r.off = r.fileType := by
  have hbs := dirBlocks_of_full h.full
  have hok : ∀ b ∈ dirBlocks (parentNode request fs), IsDirBlock (fs.disk b) := by
    rw [hbs]
    exact h.blocks
  unfold selected
  rw [← hbs]
  have hptrs : dirPtrs (parentNode request fs) = dirPtrs (parentNode request fs) := rfl
  rcases LossOs.Ext2.findDir_cases request hptrs hok with
    ⟨he, hall⟩ | ⟨pre, b, post, xs, r, ys, hpost, hrs, hn, hpre, hxs, he⟩
  · exact Or.inl ⟨he, List.find?_eq_none.mpr fun q hq => by simp [hall q hq]⟩
  · have hb := (hok b (by rw [hpost]; simp)).tiles_read
    have hrec := hb.recAt_eq r (by rw [hrs]; simp)
    refine Or.inr ⟨b, r, _, he, ?_, (named_iff.mp hn).1, congrArg Rec.inode hrec,
      congrArg Rec.fileType hrec⟩
    refine List.find?_eq_some_iff_append.mpr ⟨hn, dirRecords fs.disk pre ++ xs.map fun r => (b, r),
      ys.map (fun r => (b, r)) ++ dirRecords fs.disk post, ?_, fun q hq => ?_⟩
    · rw [hpost, dirRecords_append, List.append_assoc]
      congr 1
      rw [show dirRecords fs.disk (b :: post) = (blockRecords (fs.disk b)).map (fun r => (b, r)) ++
        dirRecords fs.disk post from List.flatMap_cons .., hrs, List.map_append, List.map_cons,
        List.append_assoc, List.cons_append]
    · rcases List.mem_append.mp hq with hq | hq
      · simp [hpre q hq]
      · obtain ⟨x, hx, rfl⟩ := List.mem_map.mp hq
        simp [hxs x hx]

/-- `read` by what its search has found. -/
theorem Searchable.read_eq (h : Searchable request fs) :
    read request fs = readEntry request fs ((selected request fs).map fun q => q.2.entry) := by
  unfold read
  dsimp only
  rw [if_neg h.parent, ← parentNode, if_neg h.dir, h.lookupDir_eq]
  cases selected request fs with
  | none => rfl
  | some q => rfl

theorem Searchable.readDirectory_eq (h : Searchable request fs) : readDirectory request fs =
    listEntry request fs ((selected request fs).map fun q => q.2.entry) := by
  unfold readDirectory
  dsimp only
  rw [if_neg h.parent, ← parentNode, if_neg h.dir, h.lookupDir_eq]
  cases selected request fs with
  | none => rfl
  | some q => rfl

theorem Searchable.delete_eq (h : Searchable request fs) :
    ∃ prev, delete request fs = deleteRecord request fs prev (selected request fs) := by
  unfold delete
  dsimp only
  rw [if_neg h.parent, ← parentNode, if_neg h.dir]
  rcases h.findDir_cases with ⟨he, hsel⟩ | ⟨b, r, prev, he, hsel, hino, hi, ht⟩
  · rw [he, hsel]
    exact ⟨none, rfl⟩
  · rw [he, hsel]
    refine ⟨prev, ?_⟩
    dsimp only
    rw [hi, ht, if_neg hino]
    rfl

theorem readEntry_two (sel : Option Entry) : (readEntry request fs sel).1 = 2 ↔ sel = none := by
  cases sel with
  | none => exact iff_of_true rfl rfl
  | some e =>
    unfold readEntry
    refine iff_of_false ?_ (by simp)
    dsimp only
    split
    · simp
    · split
      · simp
      · simp

theorem listEntry_two (sel : Option Entry) : (listEntry request fs sel).1 = 2 ↔ sel = none := by
  cases sel with
  | none => exact iff_of_true rfl rfl
  | some e =>
    unfold listEntry
    refine iff_of_false ?_ (by simp)
    dsimp only
    split
    · simp
    · split
      · simp
      · split
        · simp
        · split
          · simp
          · simp

/-- All look-ups select the same record. -/
theorem lookups_agree (h : Searchable request fs) : AllSelect request fs (selected request fs) := by
  refine ⟨h.read_eq, h.readDirectory_eq, h.delete_eq, h.pathDir_eq, ?_, ?_, ?_⟩
  · rw [h.read_eq, readEntry_two, Option.map_eq_none_iff]
  · rw [h.readDirectory_eq, listEntry_two, Option.map_eq_none_iff]
  · rcases h.findDir_cases with ⟨he, hsel⟩ | ⟨b, r, prev, he, hsel, -⟩
    · exact iff_of_true he hsel
    · rw [he, hsel]
      exact iff_of_false (by simp) (by simp)

end Searches

/-- A directory without zero pointers can be searched. -/
theorem Layout.searchable {fs : Fs} (hl : Layout fs) (request : EXT2DriverRequest)
    (hp : IsDirectory fs.disk request.parentInode.toNat)
    (hok : DirOk fs.disk request.parentInode.toNat)
    (hfull : ∀ b ∈ dirPtrs (slot fs.disk request.parentInode.toNat), b ≠ 0) :
    Searchable request fs ∧ selected request fs = (dirRecords fs.disk
      (dirPtrs (slot fs.disk request.parentInode.toNat))).find? fun q => q.2.named request := by
  have hptrs : dirPtrs (parentNode request fs) = dirPtrs (slot fs.disk request.parentInode.toNat) :=
    dirPtrs_view hl hp.isInode hok.size
  have hblocks := hok.blocks
  rw [dirBlocks_of_full hfull] at hblocks
  refine ⟨⟨?_, ?_, by rwa [hptrs], by rwa [hptrs]⟩, by unfold selected; rw [hptrs]⟩
  · have := hp.isInode.1
    omega
  · unfold parentNode
    rw [iMode_view hl hp.isInode]
    exact isDir_eq_true.mp hp.dir

/-- The directories of a consistent state can be searched. -/
theorem Consistent.searchable {request : EXT2DriverRequest} {fs : Fs} (hc : Consistent fs)
    (hp : IsDirectory fs.disk request.parentInode.toNat) : Searchable request fs ∧
      selected request fs = (dirRecords fs.disk
        (dirPtrs (slot fs.disk request.parentInode.toNat))).find? fun q => q.2.named request :=
  hc.ready.layout.searchable _ hp (hc.dirOk _ hp) (hc.dirFull _ hp)

/-- A look-up of `.` in the root directory of a fresh file system. -/
theorem lookups_agree_fresh : AllSelect (rootRequest [46] [] true) freshFs
    (some (21, ⟨0, 1, 12, [46], 2⟩)) := by
  have hf := isFresh_freshFs.formatted
  have hone : IsDirectory freshFs.disk (rootRequest [46] [] true).parentInode.toNat :=
    hf.isDirectory_iff.mpr rfl
  obtain ⟨hs, hsel⟩ := hf.consistent.searchable hone
  have hnamed : (⟨0, 1, 12, [46], 2⟩ : Rec).named (rootRequest [46] [] true) = true :=
    named_iff.mpr ⟨by decide, (requestName_root (by decide)).symm⟩
  have hroot : dirRecords freshFs.disk (dirPtrs (slot freshFs.disk
      (rootRequest [46] [] true).parentInode.toNat)) =
      [(21, ⟨0, 1, 12, [46], 2⟩), (21, ⟨12, 1, 500, [46, 46], 2⟩)] := by
    rw [show (rootRequest [46] [] true).parentInode.toNat = 1 from rfl, hf.rootPtrs]
    unfold dirRecords
    rw [List.flatMap_cons, hf.rootRecords]
    rfl
  rw [hroot, List.find?_cons] at hsel
  dsimp only at hsel
  rw [hnamed] at hsel
  dsimp only at hsel
  rw [← hsel]
  exact lookups_agree hs

end LossOs.Ext2
