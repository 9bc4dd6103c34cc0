/-
  Operations on one file leave the others alone.

  Every call stores whole blocks that hold more than it changes: seven inodes lie in a table
  block, many records in a directory block. On a state in which each inode has one entry of its
  own and each block one owner, a call on one file keeps what the name of another leads to
  (`Seen`): the entry, the slot of the inode, and the blocks that its pointers reach. So `read`
  returns the same before and after (`read_isolated`).
-/
import LossOs.Ext2.EntryLists
import LossOs.Ext2.Growth

namespace LossOs.Ext2

open LossOs.Lib

/-- A consistent state in which every inode has one entry at most, apart from `.` and `..`, which
    are directories, and no directory has more than 11 blocks. -/
structure Separate (fs : Fs) : Prop where
  consistent : Consistent fs
  once : (graphOf fs.disk).Once Entry.inode Proper
  dots : (graphOf fs.disk).All fun _ e => ¬ Proper e → e.fileType = 2
  small : ∀ p, IsDirectory fs.disk p → iBlocks (slot fs.disk p) ≤ 11

/-- The name of the request leads to the regular file of entry `f`. -/
structure NamesFile (request : EXT2DriverRequest) (d : Disk) (f : Entry) : Prop where
  dir : IsDirectory d request.parentInode.toNat
  first : firstNamed request d request.parentInode.toNat = some f
  type : f.fileType = 1
  file : isDir d f.inode = false

/-- A `write` of a regular file, or a `delete` that does not find anything else under its name. -/
inductive OfFile (d : Disk) : Call → Prop
  | write (request : EXT2DriverRequest) : request.parentInode.toNat ≤ 896 →
      isDirRequest request = false → OfFile d (.write request)
  | delete (request : EXT2DriverRequest) : request.parentInode.toNat ≤ 896 →
      request.isDirectory = false → (∀ e, firstNamed request d request.parentInode.toNat = some e →
        e.fileType = 1 → isDir d e.inode = false) → OfFile d (.delete request)

/-- The file and the name it is requested by. -/
def Call.target (c : Call) : UInt32 × List UInt8 := (c.request.parentInode, requestName c.request)

/-- What `read` sees of the file of entry `f` is the same in `fs'` as in `fs`. -/
structure Seen (rd : EXT2DriverRequest) (f : Entry) (fs fs' : Fs) : Prop where
  consistent : Consistent fs'
  dir : IsDirectory fs'.disk rd.parentInode.toNat
  first : firstNamed rd fs'.disk rd.parentInode.toNat = some f
  slot : slot fs'.disk f.inode = slot fs.disk f.inode
  blocks : ∀ b ∈ reach fs.disk f.inode, fs'.disk b = fs.disk b

section Steps

variable {rd request : EXT2DriverRequest} {fs fs' : Fs} {f e : Entry} {p i : Nat} {ni : Mem}
  {L : List Nat}

/-! ## What a reader sees -/

theorem Consistent.read_eq (hc : Consistent fs)
    (hd : IsDirectory fs.disk rd.parentInode.toNat) :
    read rd fs = readEntry rd fs (firstNamed rd fs.disk rd.parentInode.toNat) :=
  LossOs.Ext2.read_eq hc.ready.layout hd.isInode hd.dir (hc.dirOk _ hd) (hc.dirFull _ hd)

theorem Seen.read_eq (h : Seen rd f fs fs') (hc : Consistent fs) (hf : NamesFile rd fs.disk f)
    (hi : IsInode f.inode) : read rd fs' = read rd fs := by
  have hnode : ∀ o < 70, view (fs'.readBlocks (fs'.inodeBlock f.inode)) (slotOffset f.inode) o =
      view (fs.readBlocks (fs.inodeBlock f.inode)) (slotOffset f.inode) o := by
    intro o ho
    rw [h.consistent.ready.layout.node_apply hi ho, hc.ready.layout.node_apply hi ho, h.slot]
  have htree : treeBlocks fs.disk (view (fs.readBlocks (fs.inodeBlock f.inode))
      (slotOffset f.inode)) = reach fs.disk f.inode := by
    rw [reach_of_not_dir hf.file]
    exact treeBlocks_congr (fun j hj => iBlock_congr
      (fun o ho => hc.ready.layout.node_apply hi ho) (by omega)) fun _ _ => rfl
  rw [h.consistent.read_eq h.dir, hc.read_eq hf.dir, h.first, hf.first]
  unfold readEntry
  dsimp only
  rw [iSize_congr hnode, copyFile_congr hnode (by rw [htree]; exact h.blocks)]

theorem Seen.withStack (h : Seen rd f fs fs') (s s' : Mem) :
    Seen rd f (fs.withStack s) (fs'.withStack s') :=
  ⟨h.consistent.withStack s', h.dir, h.first, h.slot, h.blocks⟩

/-! ## What calls keep -/

theorem Separate.file (hs : Separate fs) (hf : NamesFile rd fs.disk f) : Proper f ∧
    IsInode f.inode ∧ inodeUsed fs.disk f.inode = true := by
  have hm : f ∈ (graphOf fs.disk).links rd.parentInode.toNat := by
    rw [graphOf_links]
    exact (firstNamed_mem hf.first).1
  have hP : Proper f := by
    by_contra hP
    have := hs.dots _ hf.dir f hm hP
    rw [hf.type] at this
    cases this
  exact ⟨hP, hs.once.used _ hf.dir f hm hP⟩

/-- No directory reaches the blocks of the file. -/
theorem Separate.not_dirBlock (hs : Separate fs) (hf : NamesFile rd fs.disk f)
    (hp : IsDirectory fs.disk p) {b : Nat} (hb : b ∈ reach fs.disk f.inode) :
    b ∉ dirBlocks (LossOs.Ext2.slot fs.disk p) := by
  obtain ⟨-, hi, hu⟩ := hs.file hf
  have hne : f.inode ≠ p := by
    intro h
    have := hf.file
    rw [h, hp.dir] at this
    cases this
  rw [← reach_of_dir hp.dir]
  exact hs.consistent.owned.disjoint f.inode p hi hp.isInode hu hp.used hne b hb

theorem Quiet.seen (h : Quiet fs fs') (hs : Separate fs) (hf : NamesFile rd fs.disk f) :
    Seen rd f fs fs' := by
  have hc := hs.consistent
  obtain ⟨-, hi, hu⟩ := hs.file hf
  refine ⟨h.consistent, h.isDirectory_iff.mpr hf.dir, ?_, h.slots _, fun b hb => ?_⟩
  · unfold firstNamed
    rw [h.entries_eq hc hf.dir]
    exact hf.first
  · obtain ⟨h1, h2⟩ := hc.owned.data f.inode hi hu b hb
    exact h.kept b h1 h2

/-- An element that is not looked for does not matter to a search. -/
theorem find?_middle {α : Type} {A B : List α} {x : α} {P : α → Bool} (h : P x = false) :
    (A ++ x :: B).find? P = (A ++ B).find? P := by
  rw [List.find?_append, List.find?_append, List.find?_cons_of_neg (by rw [h]; decide)]

theorem Created.seen (h : Created request fs fs' request.parentInode.toNat i ni L)
    (hs : Separate fs) (hp : IsDirectory fs.disk request.parentInode.toNat)
    (hf : NamesFile rd fs.disk f)
    (hne : rd.parentInode = request.parentInode → requestName rd ≠ requestName request) :
    Seen rd f fs fs' := by
  have hc := hs.consistent
  obtain ⟨-, hi, hu⟩ := hs.file hf
  have hfp : f.inode ≠ request.parentInode.toNat := by
    intro he
    have := hf.file
    rw [he, hp.dir] at this
    cases this
  refine ⟨h.consistent, (h.isDirectory_iff (h.ne_of_used hf.dir.used)).mpr hf.dir, ?_,
    h.others _ hi (h.ne_of_used hu) hfp, fun b hb => ?_⟩
  · unfold firstNamed
    by_cases hpar : rd.parentInode.toNat = request.parentInode.toNat
    · -- the same directory: the new entry has another name
      obtain ⟨A, B, h1, h2, -⟩ := h.parentEntries
      have hname := hne (UInt32.toNat_inj.mp hpar)
      rw [hpar, h2, find?_middle (by simpa [newEntry] using hname.symm), ← h1, ← hpar]
      exact hf.first
    · rw [h.otherEntries hc hp hf.dir hpar]
      exact hf.first
  · obtain ⟨h1, h2⟩ := hc.owned.data f.inode hi hu b hb
    exact h.kept b h1 h2 (hs.not_dirBlock hf hp hb)

theorem Deleted.seen (h : Deleted request fs fs' request.parentInode.toNat e)
    (hs : Separate fs) (hp : IsDirectory fs.disk request.parentInode.toNat)
    (hm : e ∈ entries fs.disk request.parentInode.toNat) (hP : Proper e)
    (hfile : isDir fs.disk e.inode = false) (hf : NamesFile rd fs.disk f)
    (hne : rd.parentInode = request.parentInode → requestName rd ≠ requestName request) :
    Seen rd f fs fs' := by
  have hc := hs.consistent
  have hdrop := h.drop hc hp
  obtain ⟨hPf, hi, hu⟩ := hs.file hf
  have hnot : ∀ {q : Nat}, IsDirectory fs.disk q → q ≠ e.inode := by
    rintro q hq rfl
    rw [hq.dir] at hfile
    cases hfile
  have hdir : IsDirectory fs'.disk rd.parentInode.toNat :=
    h.isDirectory_iff.mpr ⟨hf.dir, hnot hf.dir⟩
  have hfirst : firstNamed rd fs'.disk rd.parentInode.toNat = some f := by
    unfold firstNamed
    by_cases hpar : rd.parentInode.toNat = request.parentInode.toNat
    · -- the same directory: the entry that is gone has another name
      obtain ⟨A, B, h1, h2, hn, -⟩ := h.parentEntries hp.isInode (hnot hp)
      have hname := hne (UInt32.toNat_inj.mp hpar)
      rw [hpar, h2, ← find?_middle (x := e) (by rw [hn]; simpa using hname.symm), ← h1, ← hpar]
      exact hf.first
    · rw [h.otherEntries hc hp hf.dir hpar (hnot hf.dir)]
      exact hf.first
  have hfe : f.inode ≠ e.inode := by
    refine hs.once.rest hdrop hp (by rw [graphOf_links]; exact hm) hP hdir ?_ hPf
    rw [graphOf_links]
    exact (firstNamed_mem hfirst).1
  refine ⟨h.consistent, hdir, hfirst, h.others _ hi hfe, fun b hb => ?_⟩
  exact h.kept b (hc.owned.data f.inode hi hu b hb).1 (hs.not_dirBlock hf hp hb)

/-- A call on another file keeps what a reader sees of this one. -/
theorem Separate.seen (hs : Separate fs) (hf : NamesFile rd fs.disk f) {c : Call}
    (hc : OfFile fs.disk c) (hne : c.target ≠ (rd.parentInode, requestName rd)) :
    Seen rd f fs (c.run fs).2 := by
  have hcon := hs.consistent
  have hname : rd.parentInode = c.request.parentInode → requestName rd ≠ requestName c.request :=
    fun h1 h2 => hne (by unfold Call.target; rw [h1, h2])
  cases hc with
  | write request h896 hreg =>
    rcases write_call hcon h896 fun hcr => by
        refine ⟨fun _ => ?_, fun hd => by rw [hreg] at hd; cases hd⟩
        have := hs.small _ (hcon.isDirectory ⟨Nat.one_le_iff_ne_zero.mpr hcr.1, h896⟩ hcr.2.1)
        omega with
      ⟨-, hq⟩ | ⟨-, hp, -, i, ni, L, hcr⟩
    · exact hq.seen hs hf
    · exact hcr.seen hs hp hf hname
  | delete request h896 hreg hvictim =>
    rw [Call.run_delete]
    rcases delete_call hcon h896 with ⟨-, he⟩ | ⟨-, hp, e, hfirst, -, hone, hdel⟩
    · rw [he]
      exact (Quiet.refl hcon).seen hs hf
    · have hv : NamesFile request fs.disk e := ⟨hp, hfirst, hone hreg, hvictim e hfirst (hone hreg)⟩
      obtain ⟨hP, hi, hu⟩ := hs.file hv
      exact (hdel hi hu fun hd => by rw [hv.file] at hd; cases hd).seen hs hp
        (firstNamed_mem hfirst).1 hP hv.file hf hname

end Steps

/-- `read` of a file returns the same before and after any call on another file, whatever that
    returns. -/
theorem read_isolated {fs : Fs} (hs : Separate fs) {rd : EXT2DriverRequest} {f : Entry}
    (hf : NamesFile rd fs.disk f) {c : Call} (hc : OfFile fs.disk c)
    (hne : c.target ≠ (rd.parentInode, requestName rd)) (stack stack' : Mem) :
    read rd ((c.run fs).2.withStack stack') = read rd (fs.withStack stack) :=
  ((hs.seen hf hc hne).withStack stack stack').read_eq (hs.consistent.withStack stack)
    ⟨hf.dir, hf.first, hf.type, hf.file⟩ (hs.file hf).2.1

/-! ## The first file -/

theorem FirstEntry.separate {request : EXT2DriverRequest} {fs fs' : Fs} {ni : Mem} {L : List Nat}
    (h : FirstEntry request fs fs' ni L) (hf : Formatted fs)
    (hpar : request.parentInode.toNat = 1) (hreg : isDirRequest request = false)
    (hP : Proper (newEntry request 2)) : Separate fs' := by
  have hroot := hf.isDirectory_iff.mpr rfl
  have hcr := h.created
  rw [← hpar] at hcr hroot
  have hadd := hcr.add hf.consistent hroot
  have hdots : ∀ i parent, ∀ e ∈ dotEntries i parent, ¬ Proper e → e.fileType = 2 := by
    intro i parent e he _
    rcases mem_dotEntries.mp he with rfl | rfl <;> rfl
  have hall : (graphOf fs.disk).All fun _ e => ¬ Proper e → e.fileType = 2 := by
    intro p hp e he
    obtain rfl := hf.isDirectory_iff.mp hp
    rw [graphOf_links, hf.rootEntries] at he
    exact hdots 1 1 e he
  refine ⟨hcr.consistent, hf.tidy.once.add hadd not_proper_dot,
    hall.add hadd (fun hn => absurd hP hn) (hdots _ _), fun p hp => ?_⟩
  rw [(h.isDirectory_iff hf hreg).mp hp, h.iBlocks_root hf]
  decide

/-- The second long name makes the root directory grow, and the first file reads as before. -/
theorem read_isolated_longFs :
    read (longName 97) ((write (longName 98) longFs).2.withStack fun _ => 1) =
      read (longName 97) (longFs.withStack fun _ => 0) := by
  have hf := isFresh_freshFs.formatted
  obtain ⟨ni, h⟩ := firstFile_longFs
  have hreg : isDirRequest (longName 97) = false := Bool.and_false _
  have hP : Proper (newEntry (longName 97) 2) := by
    unfold Proper newEntry
    rw [requestName_longName]
    decide
  have hfile : NamesFile (longName 97) longFs.disk (newEntry (longName 97) 2) := by
    refine ⟨(h.isDirectory_iff hf hreg).mpr rfl, h.created.find_new, requestFileType_file hreg, ?_⟩
    exact (h.hole.made.isDir_eq h.hole.slotSelf).trans hreg
  refine read_isolated (c := .write (longName 98)) (h.separate hf rfl hreg hP) hfile
    (.write _ (by decide) (Bool.and_false _)) ?_ (fun _ => 0) fun _ => 1
  unfold Call.target Call.request
  dsimp only
  rw [requestName_longName, requestName_longName]
  decide

end LossOs.Ext2
