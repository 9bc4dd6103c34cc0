/-
  `commands/mv.c`.

  `mv` copies and then deletes. Whether it deletes is decided by the return code of the copy, and a
  copy that is not one returns 0: of a file that has not 8192 bytes, or of a directory of which an
  entry could not be copied.
-/
import LossOs.Ext2.Move
import LossOs.Shell.Cp

namespace LossOs.Shell

open LossOs.Lib LossOs.Ext2

/-! ## The command -/

/-- The end of `mv`: copy, then delete. -/
def moveTo (depth currentInode : Nat) (source destination : List UInt8) (isDirectory : Bool) :
    Program Op Op.Reply Unit := do
  let copyResult ←
    if isDirectory = true then copyDirRecursive depth currentInode source currentInode destination
    else copyFile currentInode source currentInode destination
  if copyResult = 0 then
    if isDirectory = true then removeRecursive depth currentInode source
    else do
      let _ ← syscall (.delete (deleteRequest currentInode source false))
      pure ()
  else pure ()

/-- `mv`. -/
def mv (depth currentInode : Nat) (argv : List (List UInt8)) : Program Op Op.Reply Unit :=
  if argv.length < 3 then pure ()
  else do
    let srcInode ← getInodeByName currentInode (argv.getD 1 [])
    if srcInode = 0 then pure ()
    else do
      let destInode ← getInodeByName currentInode (argv.getD 2 [])
      if destInode ≠ 0 then pure ()
      else if srcInode = 2 then pure ()
      else do
        let isDirectory ← testDirectory srcInode
        moveTo depth currentInode (argv.getD 1 []) (argv.getD 2 []) isDirectory

/-! ## The checks -/

/-- What `get_inode_by_name` gives. -/
def lookupInode (m : Machine) (p : Nat) (name : List UInt8) : Nat :=
  (Program.run answer (getInodeByName p name) m).1.getD 0

/-- No check of `mv` stops it before the copy. -/
structure Unguarded (m : Machine) (p : Nat) (argv : List (List UInt8)) : Prop where
  args : ¬ argv.length < 3
  found : lookupInode m p (argv.getD 1 []) ≠ 0
  free : lookupInode m.enter p (argv.getD 2 []) = 0
  allowed : lookupInode m p (argv.getD 1 []) ≠ 2

/-- What `mv` takes for the source is a directory. -/
def TestsDirectory (m : Machine) (p : Nat) (name : List UInt8) : Prop :=
  (Program.run answer (testDirectory (lookupInode m p name)) m.enter.enter).1 = some true

/-- The machine when `mv` comes to the copy. -/
def Machine.checked (m : Machine) : Machine := m.enter.enter.next.enter

section Checks

variable {m m' : Machine} {p depth : Nat} {name : List UInt8} {argv : List (List UInt8)}
  {ok : Op → Machine → Prop}

@[simp] theorem checked_disk (m : Machine) : m.checked.fs.disk = m.fs.disk := rfl

theorem run_lookup (ht : Tree m.fs) (hp : IsDirectory m.fs.disk p) :
    Program.run answer (getInodeByName p name) m = (some (lookupInode m p name), m.enter) := by
  unfold lookupInode
  rw [getInodeByName_eq ht hp]
  rfl

/-- A check that stops `mv` leaves the disk as it is. -/
theorem mv_guarded (ht : Tree m.fs) (hp : IsDirectory m.fs.disk p) (h : ¬ Unguarded m p argv) :
    ∃ m', Program.run answer (mv depth p argv) m = (some (), m') ∧ m'.fs.disk = m.fs.disk := by
  unfold mv
  by_cases hargs : argv.length < 3
  · exact ⟨m, by rw [if_pos hargs, Program.run_pure], rfl⟩
  rw [if_neg hargs, Program.run_bind_some (run_lookup ht hp)]
  by_cases hfound : lookupInode m p (argv.getD 1 []) = 0
  · exact ⟨m.enter, by rw [if_pos hfound, Program.run_pure], rfl⟩
  rw [if_neg hfound, Program.run_bind_some (@run_lookup m.enter _ _ (enter_tree ht) hp)]
  by_cases hfree : lookupInode m.enter p (argv.getD 2 []) = 0
  · rw [if_neg (not_not.mpr hfree)]
    by_cases hallowed : lookupInode m p (argv.getD 1 []) = 2
    · exact ⟨m.enter.enter, by rw [if_pos hallowed, Program.run_pure], rfl⟩
    · exact absurd ⟨hargs, hfound, hfree, hallowed⟩ h
  · exact ⟨m.enter.enter, by rw [if_pos hfree, Program.run_pure], rfl⟩

/-- Otherwise the rest of `mv` runs on a machine that has entered the kernel three times. -/
theorem mv_unguarded (ht : Tree m.fs) (hp : IsDirectory m.fs.disk p) (h : Unguarded m p argv) :
    ∃ b : Bool, (b = true ↔ TestsDirectory m p (argv.getD 1 [])) ∧
      Program.run answer (mv depth p argv) m =
        Program.run answer (moveTo depth p (argv.getD 1 []) (argv.getD 2 []) b) m.checked ∧
      (Program.Always answer ok (mv depth p argv) m →
        Program.Always answer ok
          (moveTo depth p (argv.getD 1 []) (argv.getD 2 []) b) m.checked) := by
  have hsrc := @run_lookup m p (argv.getD 1 []) ht hp
  have hdst := @run_lookup m.enter p (argv.getD 2 []) (enter_tree ht) hp
  obtain ⟨b, htest⟩ : ∃ b, Program.run answer (testDirectory (lookupInode m p (argv.getD 1 [])))
      m.enter.enter = (some b, m.checked) := ⟨_, run_testDirectory⟩
  refine ⟨b, ?_, ?_, fun hz => ?_⟩
  · unfold TestsDirectory
    rw [htest, Option.some.injEq]
  · unfold mv
    rw [if_neg h.args, Program.run_bind_some hsrc, if_neg h.found, Program.run_bind_some hdst,
      if_neg (not_not.mpr h.free), if_neg h.allowed, Program.run_bind_some htest]
  · unfold mv at hz
    rw [if_neg h.args, Program.always_bind] at hz
    replace hz := hz.2 _ _ hsrc
    rw [if_neg h.found, Program.always_bind] at hz
    replace hz := hz.2 _ _ hdst
    rw [if_neg (not_not.mpr h.free), if_neg h.allowed, Program.always_bind] at hz
    exact hz.2 _ _ htest

end Checks

/-! ## A file -/

/-- Each call of `write` and of `delete` is careful. -/
def CarefulCalls : Op → Machine → Prop
  | .write request, m => Careful (.write request) m.enter.fs
  | .delete request, m => Careful (.delete request) m.enter.fs
  | _, _ => True

/-- File `e` of directory `p` is read and written under the name, which does not put another entry
    of the name of `e` before it. -/
structure FileGoes (d : Disk) (p : Nat) (e : Entry) (name : List UInt8) : Prop where
  small : iSize (slot d e.inode) ≤ 8192
  creates : Creates (ioRequest p name (fun _ => 0) 8192 false) d
  other : requestName (ioRequest p name (fun _ => 0) 8192 false) ≠ e.name

/-- What is written is a copy: the file has 8192 bytes, stored in full, and there is room for
    them. -/
structure FileArrives (fs : Fs) (p : Nat) (e : Entry) (name : List UInt8) : Prop where
  short : name.length < 256
  size : iSize (slot fs.disk e.inode) = 8192
  whole : SameFile fs fs e.inode e.inode
  room : HasRoom (ioRequest p name (fun _ => 0) 8192 false) fs.disk

theorem fileArrives_withStack {fs : Fs} {p : Nat} {e : Entry} {name : List UInt8} (s : Mem) :
    FileArrives (fs.withStack s) p e name ↔ FileArrives fs p e name := by
  have hwhole : ∀ {fs fs' : Fs}, fs'.disk = fs.disk → SameFile fs fs e.inode e.inode →
      SameFile fs' fs' e.inode e.inode := by
    intro fs fs' hd h
    have hk : Intact fs.disk fs'.disk e.inode := by
      rw [hd]
      exact Intact.refl fs.disk e.inode
    exact h.congr hk hk
  constructor
  · rintro ⟨h1, h2, h3, h4⟩
    exact ⟨h1, h2, hwhole (withStack_disk fs s).symm h3, h4⟩
  · rintro ⟨h1, h2, h3, h4⟩
    exact ⟨h1, h2, hwhole (withStack_disk fs s) h3, h4⟩

section File

variable {m m' m₁ : Machine} {p s depth : Nat} {code : Int} {e : Entry} {name : List UInt8}
  {ok : Op → Machine → Prop}

/-- `copy_file` fails and leaves all as it is, or adds a file. -/
theorem copyFile_outcome (ht : Tree m.fs) (hs : IsDirectory m.fs.disk s)
    (hp : IsDirectory m.fs.disk p)
    (hfirst : (entries m.fs.disk s).find? (fun a => a.name == e.name) = some e)
    (h1 : e.fileType = 1)
    (hcare : ∀ request m₁, ok (.write request) m₁ → Careful (.write request) m₁.enter.fs)
    (hz : Program.Always answer ok (copyFile s e.name p name) m)
    (hrun : Program.run answer (copyFile s e.name p name) m = (some code, m₁)) :
    (code ≠ 0 ∧ Tree m₁.fs ∧ Quiet m.fs m₁.fs ∧ ¬ (iSize (slot m.fs.disk e.inode) ≤ 8192 ∧
      Creates (ioRequest p name (fun _ => 0) 8192 false) m.fs.disk)) ∨
    (code = 0 ∧ (iSize (slot m.fs.disk e.inode) ≤ 8192 ∧
      Creates (ioRequest p name (fun _ => 0) 8192 false) m.fs.disk) ∧
      ∃ buf i, Added (ioRequest p name buf 8192 false) m.next.enter.enter.fs m₁.fs i) := by
  obtain ⟨hbig, hsmall⟩ := @copyFile_read m s p e name ok ht hs hfirst h1
  by_cases hlt : 8192 < iSize (slot m.fs.disk e.inode)
  · rw [hbig hlt] at hrun
    obtain ⟨hcode, rfl⟩ := Prod.mk.inj hrun
    obtain rfl := Option.some.inj hcode
    have hq := Quiet.refl ht.consistent
    exact Or.inl ⟨by decide, ht.withStack _,
      ⟨ht.consistent.withStack _, hq.inodes, hq.slots, hq.kept⟩,
      fun h => absurd h.1 (not_le.mpr hlt)⟩
  have hle := not_lt.mp hlt
  obtain ⟨hrun', hz'⟩ := hsmall hle
  rw [hrun'] at hrun
  have hok := hcare _ _ (writeCopy_always.mp (hz'.mp hz).2.2)
  have hparent : (ioRequest p name (fileBytes m e.inode) 8192 false).parentInode.toNat = p :=
    ioRequest_parent hp.isInode
  have ht₂ : Tree m.next.enter.enter.fs := (ht.withStack _).withStack _
  unfold writeCopy at hrun
  rw [run_syscall_bind] at hrun
  rcases answer_write (m := m.next.enter) (ht.withStack _) hok with
    ⟨c, m₂, hne, hans, ht', hq⟩ | ⟨m₂, i, hans, -, -, -, hadd⟩
  · have hno : ¬ Creates (ioRequest p name (fileBytes m e.inode) 8192 false) m.fs.disk :=
      fun hcr => by
      have h0 := write_creates ht₂.consistent (by rw [hparent]; exact hp) hcr
      rw [answer_write_eq] at hans
      exact hne ((Prod.mk.inj hans).1.symm.trans h0)
    rw [hans] at hrun
    dsimp only at hrun
    rw [if_pos hne, Program.run_pure] at hrun
    obtain ⟨hcode, rfl⟩ := Prod.mk.inj hrun
    obtain rfl := Option.some.inj hcode
    exact Or.inl ⟨by decide, ht', ⟨hq.consistent, hq.inodes, hq.slots, hq.kept⟩,
      fun h => hno ((creates_io _).mp h.2)⟩
  · have hcr : Creates (ioRequest p name (fileBytes m e.inode) 8192 false) m.fs.disk := by
      rw [answer_write_eq] at hans
      rcases write_outcome ht₂.consistent (by rw [hparent]; exact hp.isInode)
        (hok.write _ rfl) with ⟨hne, -⟩ | ⟨-, -, hcr, -⟩
      · exact absurd (Prod.mk.inj hans).1 hne
      · exact hcr
    rw [hans] at hrun
    dsimp only at hrun
    rw [if_neg (not_not.mpr rfl), Program.run_pure] at hrun
    obtain ⟨hcode, rfl⟩ := Prod.mk.inj hrun
    obtain rfl := Option.some.inj hcode
    exact Or.inr ⟨rfl, ⟨hle, (creates_io _).mp hcr⟩, _, i, hadd⟩

/-- The deletion of a file that is first of its name. -/
theorem delete_file_run (ht : Tree m.fs) (hp : IsDirectory m.fs.disk p)
    (hfirst : (entries m.fs.disk p).find? (fun a => a.name == e.name) = some e)
    (h1 : e.fileType = 1)
    (hrun : Program.run answer (do
      let _ ← syscall (.delete (deleteRequest p e.name false))
      pure ()) m = (some (), m')) :
    Tree m'.fs ∧ SubtreeRemoved m.fs.disk m'.fs.disk p e := by
  have hparent := deleteRequest_parent hp.isInode e.name false
  have hm := List.mem_of_find?_eq_some hfirst
  obtain ⟨m₁, hans, ht', A, B, heq, hA, hpr⟩ := @answer_delete m p e false ht hp hfirst
    (careful_file rfl (by rw [hparent]; exact hp.isInode.2)) (fun h => by cases h) fun _ => h1
  rw [run_syscall_bind, hans, Program.run_pure] at hrun
  obtain ⟨-, rfl⟩ := Prod.mk.inj hrun
  have hdir : ¬ IsDirectory m.fs.disk e.inode := by
    rw [ht.sound.noDangling.isDir_iff hp hm, h1]
    decide
  exact ⟨ht', A, B, heq, hA, hpr.congr fun j => (under_file hdir).symm⟩

/-- When the copy would put another entry of its name before the file, this is what is deleted. -/
theorem delete_copy_run {request : EXT2DriverRequest} {fs : Fs} {i : Nat} (ht : Tree fs)
    (hp : IsDirectory fs.disk p) (he : e ∈ entries fs.disk p) (h1 : e.fileType = 1)
    (hadd : Added request fs m.fs i) (hparent : request.parentInode.toNat = p)
    (hreg : isDirRequest request = false) (hname : requestName request = e.name)
    (hrun : Program.run answer (do
      let _ ← syscall (.delete (deleteRequest p e.name false))
      pure ()) m = (some (), m')) : NothingLost fs m'.fs p e name := by
  subst hparent
  have hi := (ht.sound.noDangling.entry _ hp e he).2.1
  have hg := hadd.grafted
  have hei : e.inode ≠ i := fun h => hg.not_mem hi h
  have hep : e.inode ≠ request.parentInode.toNat := by
    rintro h
    have hdir := (ht.sound.noDangling.isDir_iff hp he).mp (h ▸ hp)
    omega
  have hp₁ : IsDirectory m.fs.disk request.parentInode.toNat := hg.isDirectory hp
  obtain ⟨A, B, heq, heq₁, -⟩ := hadd.entries
  have hm₁ : e ∈ entries m.fs.disk request.parentInode.toNat := by
    rw [heq] at he
    rw [heq₁]
    simp only [List.mem_append, List.mem_cons] at he ⊢
    exact he.imp id Or.inr
  have hnew : (newEntry request i).name = e.name := hname
  have hfirst : (entries m.fs.disk request.parentInode.toNat).find?
      (fun a => a.name == (newEntry request i).name) = some (newEntry request i) := hadd.find_new
  rw [← hnew] at hrun
  obtain ⟨-, A', B', heq', -, hpr⟩ := delete_file_run hadd.tree hp₁ hfirst
    (requestFileType_file hreg) hrun
  have hnewm : newEntry request i ∈ proper m.fs.disk request.parentInode.toNat :=
    mem_proper.mpr ⟨List.mem_of_find?_eq_some hfirst, hadd.proper⟩
  have hfile : ¬ Under m.fs.disk (newEntry request i).inode e.inode := by
    rw [under_file]
    · exact hei
    · rw [hadd.tree.sound.noDangling.isDir_iff hp₁ (mem_proper.mp hnewm).1,
        show (newEntry request i).fileType = 1 from requestFileType_file hreg]
      decide
  have hk₁ : Intact fs.disk m.fs.disk e.inode :=
    hg.kept e.inode (ht.sound.noDangling.entry _ hp e he).1 hi hep
  have hk₂ : Intact m.fs.disk m'.fs.disk e.inode :=
    hpr.intact hadd.tree.consistent hp₁ (fun j hj => hadd.tree.under_used hp₁ hnewm hj)
      (ht.sound.noDangling.entry _ hp e he).1 (by rw [hk₁.used]; exact hi) hep hfile
  refine nothingLost_of_intact ?_ fun y hy => ?_
  · rw [hpr.entries_self]
    rw [heq'] at hm₁
    simp only [List.mem_append, List.mem_cons] at hm₁ ⊢
    rcases hm₁ with h | h | h
    · exact Or.inl h
    · exact absurd (congrArg Entry.inode h) hei
    · exact Or.inr h
  · have hdir : ¬ IsDirectory fs.disk e.inode := fun hd => by
      have := (ht.sound.noDangling.isDir_iff hp he).mp hd
      omega
    obtain rfl := (under_file hdir).mp hy
    exact hk₁.trans hk₂

/-- When a copy and then the file itself go, the copy has to be one. -/
theorem moveTo_file (ht : Tree m.fs) (hp : IsDirectory m.fs.disk p)
    (hfirst : (entries m.fs.disk p).find? (fun a => a.name == e.name) = some e)
    (h1 : e.fileType = 1)
    (hz : Program.Always answer CarefulCalls (moveTo depth p e.name name false) m)
    (hrun : Program.run answer (moveTo depth p e.name name false) m = (some (), m')) :
    NothingLost m.fs m'.fs p e name ↔
      (FileGoes m.fs.disk p e name → FileArrives m.fs p e name) := by
  have hm := List.mem_of_find?_eq_some hfirst
  have hdir : ¬ IsDirectory m.fs.disk e.inode := by
    rw [ht.sound.noDangling.isDir_iff hp hm, h1]
    decide
  have hu := ht.sound.noDangling.entry p hp e hm
  unfold moveTo at hz hrun
  rw [if_neg (by decide), Program.always_bind] at hz
  rw [if_neg (by decide)] at hrun
  obtain ⟨code, m₁, hcopy, hrun⟩ := Program.run_bind_inv hrun
  dsimp only at hrun
  rcases copyFile_outcome ht hp hp hfirst h1 (fun _ _ h => h) hz.1 hcopy with
    ⟨hne, -, hq, hno⟩ | ⟨rfl, ⟨hsmall, hcr⟩, buf, i, hadd⟩
  · -- nothing was copied, and nothing is deleted
    rw [if_neg hne, Program.run_pure] at hrun
    obtain ⟨-, rfl⟩ := Prod.mk.inj hrun
    exact iff_of_true (hq.nothingLost ht hp hm) fun h => absurd ⟨h.small, h.creates⟩ hno
  -- a file was added, and the first one of the old name is deleted
  have hparent : (ioRequest p name buf 8192 false).parentInode.toNat = p :=
    ioRequest_parent hp.isInode
  have ht₂ : Tree m.next.enter.enter.fs := (ht.withStack _).withStack _
  rw [if_pos rfl, if_neg (by decide)] at hrun
  by_cases hother : requestName (ioRequest p name buf 8192 false) = e.name
  · have hlost := @delete_copy_run _ _ _ _ name _ _ _ ht₂ hp hm h1 hadd hparent rfl hother hrun
    have hlost' : NothingLost m.fs m'.fs p e name :=
      (nothingLost_withStack _).mp ((nothingLost_withStack _).mp hlost)
    exact iff_of_true hlost' fun h => absurd hother h.other
  have hP := ht.sound.proper_of_file hp hm h1
  have hg := hadd.grafted
  rw [hparent] at hg
  have hp₁ : IsDirectory m₁.fs.disk p := hg.isDirectory hp
  obtain ⟨hfirst₁, hnew⟩ := Added.lookups hadd hparent rfl hp (fun _ => hother) hfirst
  have hm₁ := List.mem_of_find?_eq_some hfirst₁
  have hnewm := mem_proper.mpr ⟨List.mem_of_find?_eq_some hnew, hadd.proper⟩
  obtain ⟨ht', hrem⟩ := delete_file_run hadd.tree hp₁ hfirst₁ h1 hrun
  have hgone : e ∉ entries m'.fs.disk p :=
    hrem.not_mem ht' (hrem.isDirectory hadd.tree hp₁ hm₁ hP)
  have hname : name.length < 256 → requestName (ioRequest p name buf 8192 false) = name :=
    ioRequest_name
  have hne : name ≠ e.name := by
    rintro rfl
    have hle := ht.consistent.name_le hp hm
    exact hother (hname (by omega))
  have hi : e.inode ≠ i := fun h => hg.not_mem hu.2.1 h
  have hcopyiff := copyFile_copy_iff ht hp hp hfirst h1 (fun _ _ h => h) hz.1 hcopy
  constructor
  · rintro hlost -
    obtain ⟨t, hfind, hsame⟩ := hlost.gone hgone
    rw [hrem.find hne] at hfind
    have hshort : name.length < 256 := by
      have hle := hadd.tree.consistent.name_le hp₁ (List.mem_of_find?_eq_some hfind)
      dsimp only at hle
      omega
    rw [hname hshort, hfind] at hnew
    obtain rfl : t = i := congrArg Entry.inode (Option.some.inj hnew)
    -- the file that was added is kept by the deletion
    have hkept : Intact m₁.fs.disk m'.fs.disk t :=
      hrem.intact hadd.tree hp₁ (mem_proper.mpr ⟨hm₁, hP⟩) hnewm hi.symm Relation.ReflTransGen.refl
    have hfile : SameFile m.fs m₁.fs e.inode t :=
      (SameTree.file hsame ht hp hm h1).congr (Intact.refl m.fs.disk e.inode) hkept.symm
    have hof := (@Added.copyOf_iff p p e name _ _ _ t hadd hparent rfl ht₂ hp hp hm h1).mpr
      ⟨hname hshort, (sameFile_withStack _).mpr ((sameFile_withStack _).mpr hfile)⟩
    obtain ⟨h2, h3, h4, h5⟩ :=
      hcopyiff.mp ((copyOf_withStack _).mp ((copyOf_withStack _).mp hof))
    exact ⟨h2, h3, h4, h5⟩
  · intro harrives
    obtain ⟨h2, h3, h4, h5⟩ := harrives ⟨hsmall, hcr, hother⟩
    obtain ⟨t, A, B, hbefore, hafter, hA, hsame, hgraft⟩ := hcopyiff.mpr ⟨h2, h3, h4, h5⟩
    have hproper := ht.proper_of_added hadd.tree hp hp₁ hbefore hafter
    have hte : t ≠ e.inode := by
      rintro rfl
      exact hgraft.not_mem hu.2.1 Relation.ReflTransGen.refl
    exact ⟨fun _ => moved_of_removed hadd.tree hp₁ hm₁ hP hne hafter hA hproper hte hsame hrem,
      fun h => absurd h hgone⟩

end File

/-! ## A directory -/

/-- Each call is one of a copy that succeeds or of a removal that does: see `CopyOk` and
    `ZeroBehind`. -/
def MoveOk (c : Op) (m : Machine) : Prop := CopyOk c m ∧ ZeroBehind c m

/-- What `mv` needs of a directory: it can be copied, and each directory below has one block. -/
structure DirMoves (fs : Fs) (e : Entry) (name : List UInt8) : Prop where
  proper : Proper e
  other : name ≠ e.name
  short : name.length < 256
  copyable : Copyable fs e.inode
  single : ∀ j, Under fs.disk e.inode j → IsDirectory fs.disk j → iBlocks (slot fs.disk j) = 1

/-- `copy_dir_recursive` gives up before it copies an entry: `mkdir` is refused, or behind it the
    source or the new directory is not found, or what is found for the source is not listed. -/
def GivesUp (m : Machine) (p : Nat) (e : Entry) (name : List UInt8) : Prop :=
  let request := ioRequest p name (fun _ => 0) 0 true
  let m₁ := (answer (.write request) m).2
  let list := listRequest (lookupInode m₁ p e.name) fun _ => 0
  ¬ Creates request m.fs.disk ∨
    Proper e ∧ (lookupInode m₁ p e.name = 0 ∨ lookupInode m₁.enter p name = 0 ∨
      (readDirectory list m₁.enter.enter.enter.fs).1 ≠ 0)

section Directory

variable {fs fs' : Fs} {m m' m₁ : Machine} {p k depth : Nat} {e : Entry} {name : List UInt8}

/-- A copy that gives up leaves the directory and fails. -/
theorem copyDirRecursive_givesUp (ht : Tree m.fs) (hp : IsDirectory m.fs.disk p)
    (he : e ∈ entries m.fs.disk p) (hup : GivesUp m p e name)
    (hz : Program.Always answer CarefulCalls (copyDirRecursive (depth + 1) p e.name p name) m) :
    ∃ m', Program.run answer (copyDirRecursive (depth + 1) p e.name p name) m = (some (-1), m') ∧
      NothingLost m.fs m'.fs p e name := by
  have hparent : (ioRequest p name (fun _ => 0) 0 true).parentInode.toNat = p :=
    ioRequest_parent hp.isInode
  rw [copyDirRecursive, always_syscall_bind] at hz
  have hok : Careful (.write (ioRequest p name (fun _ => 0) 0 true)) m.enter.fs := hz.1
  rw [copyDirRecursive, run_syscall_bind]
  rcases answer_write ht hok with
    ⟨code, m₁, hne, hans, -, hq⟩ | ⟨m₁, i, hans, -, -, -, hadd⟩
  · -- `mkdir` is refused
    rw [hans]
    dsimp only
    rw [if_pos hne, Program.run_pure]
    exact ⟨m₁, rfl, (nothingLost_withStack _).mp (hq.nothingLost (enter_tree ht) hp he)⟩
  · -- the new directory is there, but the copy does not find its way
    obtain ⟨hP, hlook⟩ := hup.resolve_left fun hno => answer_refused ht hok hno
      (congrArg Prod.fst hans)
    rw [← hparent] at hp he
    obtain ⟨hthere, hkept⟩ := hadd.keeps (enter_tree ht) hp he hP
    have hp₁ : IsDirectory m₁.fs.disk p := hparent ▸ hadd.grafted.isDirectory hp
    rw [hparent] at hthere
    rw [hans] at hlook ⊢
    dsimp only at hlook ⊢
    rw [if_neg (not_not.mpr rfl), Program.run_bind_some (run_lookup hadd.tree hp₁)]
    by_cases hsrc : lookupInode m₁ p e.name = 0
    · rw [if_pos hsrc, Program.run_pure]
      exact ⟨_, rfl, nothingLost_of_intact hthere hkept⟩
    rw [if_neg hsrc, Program.run_bind_some (@run_lookup m₁.enter _ _ (enter_tree hadd.tree) hp₁)]
    by_cases hdst : lookupInode m₁.enter p name = 0
    · rw [if_pos hdst, Program.run_pure]
      exact ⟨_, rfl, nothingLost_of_intact hthere hkept⟩
    · rw [if_neg hdst, run_syscall_bind, answer_readDirectory]
      dsimp only
      rw [if_pos ((hlook.resolve_left hsrc).resolve_left hdst), Program.run_pure]
      exact ⟨_, rfl, nothingLost_of_intact hthere hkept⟩

/-- A copy under another name leaves the original where it was found. -/
theorem CopyOf.found (h : CopyOf fs fs' p e name) (hp : IsDirectory fs.disk p)
    (hfirst : (entries fs.disk p).find? (fun a => a.name == e.name) = some e)
    (hother : name ≠ e.name) : IsDirectory fs'.disk p ∧
      (entries fs'.disk p).find? (fun a => a.name == e.name) = some e := by
  obtain ⟨t, A, B, hbefore, hafter, -, -, hg⟩ := h
  have hno : ¬ ((⟨name, t, e.fileType⟩ : Entry).name == e.name) = true := fun he =>
    hother (beq_iff_eq.mp he)
  refine ⟨hg.isDirectory hp, ?_⟩
  rw [hafter, List.find?_append, List.find?_cons, eq_false_of_ne_true hno, ← List.find?_append,
    ← hbefore]
  exact hfirst

/-- What was copied can be removed, when its directory still has one block. -/
theorem CopyOf.removable (h : CopyOf fs fs' p e name) (ht : Tree fs) (ht' : Tree fs')
    (hp : IsDirectory fs.disk p)
    (hfirst : (entries fs.disk p).find? (fun a => a.name == e.name) = some e)
    (hd : DirMoves fs e name) (hone : iBlocks (slot fs'.disk p) = 1) :
    Removable fs'.disk p e ∧ ∀ y, Under fs.disk e.inode y → Intact fs.disk fs'.disk y := by
  have hm := List.mem_of_find?_eq_some hfirst
  obtain ⟨hp', hfirst'⟩ := h.found hp hfirst hd.other
  obtain ⟨_, _, _, -, -, -, -, hg⟩ := h
  have hkept : ∀ y, Under fs.disk e.inode y → Intact fs.disk fs'.disk y := fun y hy =>
    hg.intact_under ht hp (mem_proper.mpr ⟨hm, hd.proper⟩) (ht.child_ne hp hm hd.proper) hy
  refine ⟨⟨hd.proper, hfirst', fun _ => ?_, fun j hj hdir => ?_⟩, hkept⟩
  · obtain ⟨rest, heq, hrest⟩ := ht'.entries_first hp'
    have hm' := List.mem_of_find?_eq_some hfirst'
    rwa [heq, hrest hone, List.append_nil] at hm'
  · have hj' := (under_congr hkept).mp hj
    have hk := hkept j hj'
    have hdir' := hk.isDirectory_iff.mp hdir
    refine ⟨by rw [hk.node]; exact hd.single j hj' hdir', fun a ha => ?_⟩
    unfold proper at ha
    rw [hk.entries_eq hdir'] at ha
    exact hd.copyable.names j hj' hdir' a ha

/-- When `remove_recursive` looks the directory up, this has one block. -/
theorem removeRecursive_one (ht : Tree m.fs) (hp : IsDirectory m.fs.disk p)
    (hfirst : (entries m.fs.disk p).find? (fun a => a.name == e.name) = some e)
    (h2 : e.fileType = 2)
    (hz : Program.Always answer MoveOk (removeRecursive (k + 1) p e.name) m) :
    iBlocks (slot m.fs.disk p) = 1 := by
  obtain ⟨code, hcode, hans⟩ := answer_delete_dir ht hp hfirst h2
  rw [removeRecursive, always_syscall_bind, hans] at hz
  obtain ⟨-, hz⟩ := hz
  dsimp only at hz
  rw [if_neg hcode, Program.always_bind] at hz
  exact getInodeByName_always (m := m.enter) hp.isInode (hz.1.mono fun _ _ h => h.1)

/-- A directory moves. -/
theorem moveTo_dir (ht : Tree m.fs) (hp : IsDirectory m.fs.disk p)
    (hfirst : (entries m.fs.disk p).find? (fun a => a.name == e.name) = some e)
    (h2 : e.fileType = 2) (hd : DirMoves m.fs e name)
    (htall : LinkGraph.Tall Entry.inode Proper (graphOf m.fs.disk) k e.inode)
    (hz : Program.Always answer MoveOk (moveTo (k + 1) p e.name name true) m) :
    ∃ m', Program.run answer (moveTo (k + 1) p e.name name true) m = (some (), m') ∧
      NothingLost m.fs m'.fs p e name := by
  have hm := List.mem_of_find?_eq_some hfirst
  have hu := ht.sound.noDangling.entry p hp e hm
  have hself := ht.child_ne hp hm hd.proper
  have hsrc : Source m.fs p p k e := ⟨hd.proper, hfirst, hself, hd.copyable, htall⟩
  unfold moveTo at hz ⊢
  rw [if_pos rfl, Program.always_bind] at hz
  rw [if_pos rfl]
  obtain ⟨m₁, hrun₁, ht₁, hcopy⟩ := copyDirRecursive_run ht hp hp hsrc h2 (fun _ => hd.other)
    hd.short (hz.1.mono fun _ _ h => h.1)
  replace hz := hz.2 _ _ hrun₁
  dsimp only at hz
  rw [if_pos rfl, if_pos rfl] at hz
  rw [Program.run_bind_some hrun₁]
  dsimp only
  rw [if_pos rfl, if_pos rfl]
  -- the original is found as it was
  obtain ⟨hp₁, hfirst₁⟩ := hcopy.found hp hfirst hd.other
  have hm₁ := List.mem_of_find?_eq_some hfirst₁
  have hone := removeRecursive_one ht₁ hp₁ hfirst₁ h2 hz
  obtain ⟨hr, hkept⟩ := hcopy.removable ht ht₁ hp hfirst hd hone
  obtain ⟨m', hrun, ht', hrem⟩ := removeRecursive_run ht₁ hp₁ hr
    (htall.congr fun y hy => (hkept y hy).links) (hz.mono fun _ _ h => h.2)
  refine ⟨m', hrun, fun _ => ?_, fun h => ?_⟩
  · obtain ⟨t, A, B, hbefore, hafter, hA, hsame, hg⟩ := hcopy
    have hte : t ≠ e.inode := by
      rintro rfl
      exact hg.not_mem hu.2.1 Relation.ReflTransGen.refl
    exact moved_of_removed ht₁ hp₁ hm₁ hd.proper hd.other hafter hA
      (ht.proper_of_added ht₁ hp hp₁ hbefore hafter) hte hsame hrem
  · exact absurd h (hrem.not_mem ht' (hrem.isDirectory ht₁ hp₁ hm₁ hd.proper))

end Directory

/-! ## The command `mv` -/

section Command

variable {m m' : Machine} {p depth : Nat} {e : Entry} {name : List UInt8} {argv : List (List UInt8)}

/-- In a directory of one block the lookup gives the first entry of the name. -/
theorem lookupInode_one (ht : Tree m.fs) (hp : IsDirectory m.fs.disk p)
    (hone : iBlocks (slot m.fs.disk p) = 1) : lookupInode m p name =
      ((entries m.fs.disk p).find? fun e => e.name == name).elim 0 Entry.inode := by
  have hwalk : (walk (listed m.enter.fs (fun _ => 0) p) 8192 0).map Rec.entry =
      entries m.fs.disk p := walk_listed_one (enter_tree ht) hp hone
  unfold lookupInode getInodeByName
  rw [run_syscall_bind, answer_list ht hp]
  dsimp only
  rw [if_neg (by decide), find_name, hwalk, Program.run_pure]
  rfl

/-- There a file is not taken for a directory. -/
theorem not_testsDirectory_one (ht : Tree m.fs) (hp : IsDirectory m.fs.disk p)
    (hone : iBlocks (slot m.fs.disk p) = 1)
    (hfirst : (entries m.fs.disk p).find? (fun a => a.name == name) = some e)
    (h1 : e.fileType = 1) : ¬ TestsDirectory m p name := by
  obtain ⟨hi, hd⟩ := file_entry ht hp (List.mem_of_find?_eq_some hfirst) h1
  unfold TestsDirectory
  rw [lookupInode_one ht hp hone, hfirst, Option.elim_some,
    @test_file m.enter.enter e.inode (enter_tree (enter_tree ht)) hi hd]
  exact show some false ≠ some true by decide

theorem nothingLost_checked {fs' : Fs} :
    NothingLost m.checked.fs fs' p e name ↔ NothingLost m.fs fs' p e name :=
  (nothingLost_withStack _).trans ((nothingLost_withStack _).trans (nothingLost_withStack _))

/-- A check that stops `mv` loses nothing. -/
theorem mv_guarded_kept (ht : Tree m.fs) (hp : IsDirectory m.fs.disk p)
    (he : e ∈ entries m.fs.disk p) (h : ¬ Unguarded m p argv) :
    ∃ m', Program.run answer (mv depth p argv) m = (some (), m') ∧
      NothingLost m.fs m'.fs p e name := by
  obtain ⟨m', hrun, hdisk⟩ := @mv_guarded m p depth argv ht hp h
  refine ⟨m', hrun, nothingLost_of_intact ?_ fun y _ => ?_⟩
  · rwa [hdisk]
  · rw [hdisk]
    exact Intact.refl m.fs.disk y

/-- `mv` of a file, when it is not taken for a directory. -/
theorem mv_file (ht : Tree m.fs) (hp : IsDirectory m.fs.disk p)
    (hfirst : (entries m.fs.disk p).find? (fun a => a.name == argv.getD 1 []) = some e)
    (h1 : e.fileType = 1) (htest : ¬ TestsDirectory m p (argv.getD 1 []))
    (hz : Program.Always answer CarefulCalls (mv depth p argv) m)
    (hrun : Program.run answer (mv depth p argv) m = (some (), m')) :
    NothingLost m.fs m'.fs p e (argv.getD 2 []) ↔ (Unguarded m p argv →
      FileGoes m.fs.disk p e (argv.getD 2 []) → FileArrives m.fs p e (argv.getD 2 [])) := by
  have hm := List.mem_of_find?_eq_some hfirst
  have hname : e.name = argv.getD 1 [] := by simpa using List.find?_some hfirst
  by_cases hgo : Unguarded m p argv
  · obtain ⟨b, hb, hrun', hz'⟩ := @mv_unguarded m p depth argv CarefulCalls ht hp hgo
    have hfalse : b = false := Bool.eq_false_iff.mpr fun h => htest (hb.mp h)
    subst hfalse
    rw [hrun', ← hname] at hrun
    rw [← hname] at hfirst hz'
    have ht' : Tree m.checked.fs := ((ht.withStack _).withStack _).withStack _
    have hiff := moveTo_file ht' hp hfirst h1 (hz' hz) hrun
    rw [nothingLost_checked] at hiff
    rw [hiff]
    have harrives : FileArrives m.checked.fs p e (argv.getD 2 []) ↔
        FileArrives m.fs p e (argv.getD 2 []) :=
      (fileArrives_withStack _).trans ((fileArrives_withStack _).trans (fileArrives_withStack _))
    rw [harrives]
    exact ⟨fun h _ => h, fun h => h hgo⟩
  · obtain ⟨m₁, hrun₁, hlost⟩ := @mv_guarded_kept m p depth e (argv.getD 2 []) argv ht hp hm hgo
    obtain ⟨-, rfl⟩ := Program.run_eq hrun hrun₁
    exact iff_of_true hlost fun h => absurd h hgo

/-- `mv` of a directory that can be copied and removed. -/
theorem mv_directory (ht : Tree m.fs) (hp : IsDirectory m.fs.disk p)
    (hfirst : (entries m.fs.disk p).find? (fun a => a.name == argv.getD 1 []) = some e)
    (h2 : e.fileType = 2) (hd : DirMoves m.fs e (argv.getD 2 [])) :
    ∃ n, ∀ depth, n < depth → Program.Always answer MoveOk (mv depth p argv) m →
      ∃ m', Program.run answer (mv depth p argv) m = (some (), m') ∧
        NothingLost m.fs m'.fs p e (argv.getD 2 []) := by
  have hm := List.mem_of_find?_eq_some hfirst
  have hname : e.name = argv.getD 1 [] := by simpa using List.find?_some hfirst
  have hdir : IsDirectory m.fs.disk e.inode := (ht.sound.noDangling.isDir_iff hp hm).mpr h2
  obtain ⟨n, htall⟩ := ht.tall
  refine ⟨n, fun depth hdepth hz => ?_⟩
  obtain ⟨k, rfl⟩ : ∃ k, depth = k + 1 := ⟨depth - 1, by omega⟩
  by_cases hgo : Unguarded m p argv
  · -- both lookups list the directory, which has one block
    have hone : iBlocks (slot m.fs.disk p) = 1 := by
      unfold mv at hz
      rw [if_neg hgo.args, Program.always_bind] at hz
      exact getInodeByName_always hp.isInode (hz.1.mono fun _ _ h => h.1)
    have hlookup : lookupInode m p (argv.getD 1 []) = e.inode := by
      rw [lookupInode_one ht hp hone, hfirst]
      rfl
    have ht₂ : Tree m.enter.enter.fs := enter_tree (enter_tree ht)
    have hpass : TestsDirectory m p (argv.getD 1 []) := by
      unfold TestsDirectory
      rw [hlookup, @test_one m.enter.enter e.inode ht₂ hdir
        (hd.single e.inode Relation.ReflTransGen.refl hdir)]
    obtain ⟨b, hb, hrun, hz'⟩ := @mv_unguarded m p (k + 1) argv MoveOk ht hp hgo
    obtain rfl : b = true := hb.mpr hpass
    replace hz := hz' hz
    rw [← hname] at hfirst hz hrun
    have hd' : DirMoves m.checked.fs e (argv.getD 2 []) :=
      ⟨hd.proper, hd.other, hd.short, hd.copyable.congr fun y _ => Intact.refl m.fs.disk y,
        hd.single⟩
    have ht' : Tree m.checked.fs := ((ht.withStack _).withStack _).withStack _
    obtain ⟨m', hrun', hlost⟩ := @moveTo_dir m.checked p k e (argv.getD 2 []) ht' hp hfirst h2 hd'
      ((htall e.inode).mono (by omega)) hz
    exact ⟨m', hrun.trans hrun', nothingLost_checked.mp hlost⟩
  · exact mv_guarded_kept ht hp hm hgo

/-- `mv` keeps what it takes for a directory when the copy gives up. -/
theorem mv_givesUp (ht : Tree m.fs) (hp : IsDirectory m.fs.disk p)
    (hfirst : (entries m.fs.disk p).find? (fun a => a.name == argv.getD 1 []) = some e)
    (htest : TestsDirectory m p (argv.getD 1 []))
    (hup : GivesUp m.checked p e (argv.getD 2 []))
    (hz : Program.Always answer CarefulCalls (mv (depth + 1) p argv) m) :
    ∃ m', Program.run answer (mv (depth + 1) p argv) m = (some (), m') ∧
      NothingLost m.fs m'.fs p e (argv.getD 2 []) := by
  have hm := List.mem_of_find?_eq_some hfirst
  have hname : e.name = argv.getD 1 [] := by simpa using List.find?_some hfirst
  by_cases hgo : Unguarded m p argv
  · obtain ⟨b, hb, hrun, hz'⟩ := @mv_unguarded m p (depth + 1) argv CarefulCalls ht hp hgo
    obtain rfl : b = true := hb.mpr htest
    replace hz := hz' hz
    unfold moveTo at hz hrun
    rw [if_pos rfl, ← hname] at hrun
    rw [if_pos rfl, ← hname, Program.always_bind] at hz
    have ht' : Tree m.checked.fs := ((ht.withStack _).withStack _).withStack _
    obtain ⟨m', hcopy, hlost⟩ := copyDirRecursive_givesUp ht' hp hm hup hz.1
    rw [Program.run_bind_some hcopy] at hrun
    dsimp only at hrun
    rw [if_neg (by decide), Program.run_pure] at hrun
    exact ⟨m', hrun, nothingLost_checked.mp hlost⟩
  · exact mv_guarded_kept ht hp hm hgo

end Command

/-! ## A file `a` in the root directory -/

section Page

variable {m : Machine} {p depth : Nat} {name : List UInt8} {argv : List (List UInt8)}
  {ok : Op → Machine → Prop}

/-- The checks of `mv` only list directories. -/
theorem mv_always (ht : Tree m.fs) (hp : IsDirectory m.fs.disk p) (h : Unguarded m p argv)
    (hread : ∀ m, ok .scratch m ∧ ∀ request, ok (.readDirectory request) m)
    (htest : ¬ TestsDirectory m p (argv.getD 1 []))
    (hz : Program.Always answer ok
      (moveTo depth p (argv.getD 1 []) (argv.getD 2 []) false) m.checked) :
    Program.Always answer ok (mv depth p argv) m := by
  have hlist : ∀ m request, ok (.readDirectory request) m := fun m => (hread m).2
  unfold mv
  rw [if_neg h.args]
  refine Program.always_bind.mpr ⟨getInodeByName_quiet hlist, fun i m₁ hi => ?_⟩
  obtain ⟨rfl, rfl⟩ := Program.run_eq (run_lookup ht hp) hi
  rw [if_neg h.found]
  refine Program.always_bind.mpr ⟨getInodeByName_quiet hlist, fun j m₂ hj => ?_⟩
  obtain ⟨rfl, rfl⟩ := Program.run_eq (@run_lookup m.enter _ _ (enter_tree ht) hp) hj
  rw [if_neg (not_not.mpr h.free), if_neg h.allowed]
  refine Program.always_bind.mpr ⟨testDirectory_quiet hread, fun b m₃ hb => ?_⟩
  obtain rfl : b = false := Bool.eq_false_iff.mpr fun hpass => htest (by
    unfold TestsDirectory
    rw [hb, hpass])
  rw [run_testDirectory] at hb
  obtain ⟨-, rfl⟩ := Prod.mk.inj hb
  exact hz

/-- `mv a b` copies the file and deletes it. -/
theorem page_mv (h : RootBlock m.fs pageRecords [3, 2, 1] 217)
    (hsize : iSize (slot m.fs.disk 3) ≤ 8192) :
    ¬ TestsDirectory m 1 [97] ∧ Unguarded m 1 [[109, 118], [97], [98]] ∧
      FileGoes m.fs.disk 1 ⟨[97], 3, 1⟩ [98] ∧
      Program.Always answer CarefulCalls (mv 0 1 [[109, 118], [97], [98]]) m ∧
      ∃ m', Program.run answer (mv 0 1 [[109, 118], [97], [98]]) m = (some (), m') := by
  have hroot := h.root
  have hfirst := page_lookup h
  have hone := h.iBlocks_eq
  have hnone : (entries m.fs.disk 1).find? (fun a => a.name == [98]) = none := by
    rw [h.entries_eq]
    decide
  have htest := not_testsDirectory_one h.tree hroot hone hfirst rfl
  have hgo : Unguarded m 1 [[109, 118], [97], [98]] := by
    have hsrc : lookupInode m 1 [97] = 3 := by
      rw [lookupInode_one h.tree hroot hone, hfirst]
      rfl
    have hdst : lookupInode m.enter 1 [98] = 0 := by
      rw [@lookupInode_one m.enter 1 [98] (enter_tree h.tree) hroot hone, enter_disk, hnone]
      rfl
    refine ⟨by decide, ?_, hdst, ?_⟩
    · show lookupInode m 1 [97] ≠ 0
      rw [hsrc]
      decide
    · show lookupInode m 1 [97] ≠ 2
      rw [hsrc]
      decide
  have h₃ : RootBlock m.checked.fs pageRecords [3, 2, 1] 217 :=
    ((h.withStack _).withStack _).withStack _
  obtain ⟨-, hz, m₁, hcopy, -⟩ := @page_copy m.checked h₃ hsize
  have hgoes : FileGoes m.fs.disk 1 ⟨[97], 3, 1⟩ [98] := by
    have hname : requestName (ioRequest 1 [98] (fun _ => 0) 8192 false) = [98] :=
      ioRequest_name (by decide)
    rcases @copyFile_outcome m.checked m₁ 1 1 0 ⟨[97], 3, 1⟩ [98]
      CarefulWrites h₃.tree h₃.root h₃.root
      (page_lookup h₃) rfl (fun _ _ hc => hc) hz hcopy with ⟨hne, -⟩ | ⟨-, ⟨hsmall, hcr⟩, -⟩
    · exact absurd rfl hne
    · exact ⟨hsmall, hcr, by rw [hname]; decide⟩
  have hlast : ∀ m, Program.Always answer CarefulCalls (do
      let _ ← syscall (.delete (deleteRequest 1 [97] false))
      pure ()) m := fun m => by
    rw [always_syscall_bind]
    exact ⟨careful_file rfl (by decide), Program.always_pure _ _⟩
  obtain ⟨b, hb, hrun, -⟩ :=
    @mv_unguarded m 1 0 [[109, 118], [97], [98]] CarefulCalls h.tree hroot hgo
  obtain rfl : b = false := Bool.eq_false_iff.mpr fun hpass => htest (hb.mp hpass)
  refine ⟨htest, hgo, hgoes,
    mv_always h.tree hroot hgo (fun _ => ⟨trivial, fun _ => trivial⟩) htest ?_,
    ?_⟩
  · unfold moveTo
    rw [if_neg (by decide)]
    refine Program.always_bind.mpr ⟨hz.mono fun c _ hc => ?_, fun code m₂ _ => ?_⟩
    · cases c with
      | delete request => exact hc.elim
      | _ => exact hc
    · dsimp only
      split
      · rw [if_neg (by decide)]
        exact hlast m₂
      · exact Program.always_pure _ _
  · refine ⟨(answer (.delete (deleteRequest 1 [97] false)) m₁).2, hrun.trans ?_⟩
    show Program.run answer (moveTo 0 1 [97] [98] false) m.checked = _
    unfold moveTo
    rw [if_neg (by decide), Program.run_bind_some hcopy]
    dsimp only
    rw [if_pos rfl, if_neg (by decide), run_syscall_bind, Program.run_pure]

end Page

/-! ## An empty directory `d` in the root directory -/

section Hollow

variable {m : Machine} {k : Nat}

/-- `remove_recursive` lists the root directory and `d`. -/
theorem hollow_remove {rs : List Rec} {used : List Nat} {room : Nat}
    (h : RootBlock m.fs rs used room) (hd : Hollow m.fs.disk 3)
    (hfirst : (entries m.fs.disk 1).find? (fun a => a.name == [100]) = some ⟨[100], 3, 2⟩) :
    Program.Always answer CopyOk (removeRecursive (k + 1) 1 [100]) m := by
  have ht := h.tree
  obtain ⟨code, hcode, hans⟩ := @answer_delete_dir m 1 ⟨[100], 3, 2⟩ ht h.root hfirst rfl
  have hget := @getInodeByName_one m.enter 1 ⟨[100], 3, 2⟩ [100] (enter_tree ht) h.root h.iBlocks_eq
    hfirst
  have hlist := @answer_list m.enter.enter 3 (enter_tree (enter_tree ht)) hd.dir fun _ => 0
  have hnone : entryNames (listed m.enter.enter.enter.fs (fun _ => 0) 3) = [] := by
    rw [entryNames_one (enter_tree (enter_tree (enter_tree ht))) hd.dir hd.single fun a ha => ?_,
      show proper m.enter.enter.enter.fs.disk 3 = [] from hd.empty]
    · rfl
    · rw [show proper m.enter.enter.enter.fs.disk 3 = [] from hd.empty] at ha
      cases ha
  rw [removeRecursive, always_syscall_bind]
  refine ⟨trivial, ?_⟩
  rw [hans]
  dsimp only
  rw [if_neg hcode, Program.always_bind_some hget, if_neg (by decide), always_syscall_bind, hlist]
  dsimp only
  rw [if_neg (by decide), hnone, Program.forM_nil,
    Program.always_bind_some (Program.run_pure _ _), always_syscall_bind]
  exact ⟨getInodeByName_lists (copyOk_root (m := m.enter) (h.withStack _)),
    copyOk_hollow (m := m.enter.enter) hd, Program.always_pure _ _, trivial,
    Program.always_pure _ _⟩

/-- `mv d c` copies it and removes it. -/
theorem hollow_mv (h : RootBlock m.fs hollowRecords [3, 2, 1] 233) (hd : Hollow m.fs.disk 3)
    (hzero : ∀ n o, m.kernel n o = 0) : DirMoves m.fs ⟨[100], 3, 2⟩ [99] ∧
    Program.Always answer MoveOk (mv (k + 1) 1 [[109, 118], [100], [99]]) m := by
  refine ⟨⟨by decide, by decide, by decide, copyable_hollow hd h.tree, fun j hj _ => ?_⟩, ?_⟩
  · obtain rfl := hd.under hj
    exact hd.single
  have ht := h.tree
  have hget : Program.run answer (getInodeByName 1 [100]) m = (some 3, m.enter) :=
    getInodeByName_one ht h.root h.iBlocks_eq (hollow_lookup h)
  have hfree : Program.run answer (getInodeByName 1 [99]) m.enter = (some 0, m.enter.enter) := by
    have hnone : (entries m.enter.fs.disk 1).find? (fun a => a.name == [99]) = none := by
      rw [enter_disk, h.entries_eq]
      decide
    rw [run_lookup (enter_tree ht) h.root, @lookupInode_one m.enter 1 [99] (enter_tree ht) h.root
      h.iBlocks_eq, hnone]
    rfl
  have htest := @test_one m.enter.enter 3 (enter_tree (enter_tree ht)) hd.dir hd.single
  have h₃ : RootBlock m.checked.fs hollowRecords [3, 2, 1] 233 :=
    ((h.withStack _).withStack _).withStack _
  obtain ⟨hcopy, m₁, hrun, hroot, hkept⟩ := @hollow_copy m.checked k h₃ hd
  refine Program.Always.and ?_ (zeroBehind_always _ hzero)
  unfold mv
  rw [if_neg (by decide)]
  show Program.Always answer CopyOk (getInodeByName 1 [100] >>= _) m
  rw [Program.always_bind_some hget, if_neg (by decide)]
  refine ⟨getInodeByName_lists (copyOk_root h), ?_⟩
  show Program.Always answer CopyOk (getInodeByName 1 [99] >>= _) m.enter
  rw [Program.always_bind_some hfree, if_neg (by decide), if_neg (by decide),
    Program.always_bind_some htest]
  refine ⟨getInodeByName_lists (copyOk_root (m := m.enter) (h.withStack _)),
    testDirectory_lists trivial (copyOk_hollow (m := m.enter.enter.next) hd), ?_⟩
  show Program.Always answer CopyOk (moveTo (k + 1) 1 [100] [99] true) m.checked
  unfold moveTo
  rw [if_pos rfl, Program.always_bind_some hrun]
  refine ⟨hcopy, ?_⟩
  dsimp only
  rw [if_pos rfl, if_pos rfl]
  refine hollow_remove hroot hkept ?_
  rw [hroot.entries_eq]
  decide

end Hollow

/-! ## Results -/

end LossOs.Shell
