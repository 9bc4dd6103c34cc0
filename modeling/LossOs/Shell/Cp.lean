/-
  `commands/cp.c`.

  `copy_file` reads into a buffer of 8192 bytes and writes the whole buffer, so a file is copied as
  it is exactly if it has 8192 bytes (`copyFile_copy_iff`). `copy_dir_recursive` makes the new
  directory, lists the old one once and copies each entry; what becomes of an entry it does not
  ask. Where each call does what it is for, a copy of the tree is added and nothing else
  (`copyDirRecursive_run`).
-/
import LossOs.Ext2.RootBlock
import LossOs.Shell.Rm

namespace LossOs.Shell

open LossOs.Lib LossOs.Ext2

/-! ## The command -/

/-- The request of a `read` or a `write`. -/
def ioRequest (parentInode : Nat) (name : List UInt8) (buf : Mem) (bufferSize : UInt32)
    (isDirectory : Bool) : EXT2DriverRequest where
  buf := buf
  name := fun k => name.getD k 0
  nameLen := UInt8.ofNat name.length
  parentInode := UInt32.ofNat parentInode
  bufferSize := bufferSize
  isDirectory := isDirectory

/-- `copy_file`: 0, or -1. -/
def copyFile (srcInode : Nat) (srcName : List UInt8) (destInode : Nat) (destName : List UInt8) :
    Program Op Op.Reply Int := do
  let fileBuffer ← scratch
  let (readRetCode, fileBuffer) ← syscall (.read (ioRequest srcInode srcName fileBuffer 8192 false))
  if readRetCode ≠ 0 then pure (-1)
  else do
    let writeRetCode ← syscall (.write (ioRequest destInode destName fileBuffer 8192 false))
    if writeRetCode ≠ 0 then pure (-1) else pure 0

/-- The entries of a listing that `copy_dir_recursive` copies. -/
def copyEntries (dataBuffer : Mem) : List Entry :=
  ((walk dataBuffer 8192 0).map Rec.entry).filter fun e =>
    e.name ≠ [46] ∧ e.name ≠ [46, 46] ∧ e.name.length < 255

/-- What becomes of an entry in the loop of `copy_dir_recursive`. -/
def copyEntry (copyDir : Nat → List UInt8 → Nat → List UInt8 → Program Op Op.Reply Int)
    (srcDirInode destDirInode : Nat) (entry : Entry) : Program Op Op.Reply Unit :=
  let childName := cString entry.name
  if entry.fileType = 2 then do
    let _ ← copyDir srcDirInode childName destDirInode childName
    pure ()
  else if entry.fileType = 1 then do
    let _ ← copyFile srcDirInode childName destDirInode childName
    pure ()
  else pure ()

/-- `copy_dir_recursive`, to a depth: 0, or -1. -/
def copyDirRecursive : (depth : Nat) → (srcInode : Nat) → (srcName : List UInt8) →
    (destInode : Nat) → (destName : List UInt8) → Program Op Op.Reply Int
  | 0, _, _, _, _ => Program.stuck
  | depth + 1, srcInode, srcName, destInode, destName => do
      let mkdirRetCode ← syscall (.write (ioRequest destInode destName (fun _ => 0) 0 true))
      if mkdirRetCode ≠ 0 then pure (-1)
      else do
        let srcDirInode ← getInodeByName srcInode srcName
        if srcDirInode = 0 then pure (-1)
        else do
          let destDirInode ← getInodeByName destInode destName
          if destDirInode = 0 then pure (-1)
          else do
            let (retCode, dataBuffer) ←
              syscall (.readDirectory (listRequest srcDirInode fun _ => 0))
            if retCode ≠ 0 then pure (-1)
            else do
              (copyEntries dataBuffer).forM
                (copyEntry (copyDirRecursive depth) srcDirInode destDirInode)
              pure 0

/-- The request by which `cp` and `mv` test for a directory. -/
def testRequest (inode : Nat) (testBuffer : Mem) : EXT2DriverRequest :=
  { listRequest inode testBuffer with bufferSize := 512 }

/-- Whether the first argument is `-r`. -/
def isRecursive (argv : List (List UInt8)) : Bool := decide (argv.getD 1 [] = [45, 114])

def startIndex (argv : List (List UInt8)) : Nat := if isRecursive argv then 2 else 1

def source (argv : List (List UInt8)) : List UInt8 := argv.getD (startIndex argv) []

def destination (argv : List (List UInt8)) : List UInt8 := argv.getD (startIndex argv + 1) []

/-- The test for a directory that `cp` and `mv` make. -/
def testDirectory (inode : Nat) : Program Op Op.Reply Bool := do
  let testBuffer ← scratch
  let (testRetCode, _) ← syscall (.readDirectory (testRequest inode testBuffer))
  pure (decide (testRetCode = 0))

/-- `cp`: whether it reports success. -/
def cp (depth currentInode : Nat) (argv : List (List UInt8)) : Program Op Op.Reply Bool :=
  if argv.length < 3 then pure false
  else if isRecursive argv = true ∧ argv.length < 4 then pure false
  else do
    let srcInode ← getInodeByName currentInode (source argv)
    if srcInode = 0 then pure false
    else if srcInode = 2 then pure false
    else do
      let isDirectory ← testDirectory srcInode
      if isDirectory = true ∧ isRecursive argv = false then pure false
      else if isDirectory = true then do
        let copyResult ← copyDirRecursive depth currentInode (source argv) currentInode
          (destination argv)
        pure (decide (copyResult = 0))
      else do
        let copyResult ← copyFile currentInode (source argv) currentInode (destination argv)
        pure (decide (copyResult = 0))

/-! ## Copies -/

/-- From `fs` to `fs'` a copy of what entry `e` leads to was put into directory `q` under the name,
    and nothing else was created or changed. -/
def CopyOf (fs fs' : Fs) (q : Nat) (e : Entry) (name : List UInt8) : Prop :=
  ∃ t A B, entries fs.disk q = A ++ B ∧ entries fs'.disk q = A ++ ⟨name, t, e.fileType⟩ :: B ∧
    (∀ a ∈ A, a.name ≠ name) ∧ SameTree fs fs' e.inode t ∧
    Grafted fs.disk fs'.disk q (Under fs'.disk t)

theorem copyOf_withStack {fs fs' : Fs} {q : Nat} {e : Entry} {name : List UInt8} (s : Mem) :
    CopyOf (fs.withStack s) fs' q e name ↔ CopyOf fs fs' q e name := by
  unfold CopyOf
  simp only [sameTree_withStack, withStack_disk]

/-- The calls that change the disk are careful calls of `write`. -/
def CarefulWrites : Op → Machine → Prop
  | .write request, m => Careful (.write request) m.enter.fs
  | .delete _, _ => False
  | _, _ => True

/-- Each directory that is listed has one block, and each `write` is careful, finds its name free
    and has room. -/
def CopyOk : Op → Machine → Prop
  | .readDirectory request, m => iBlocks (slot m.fs.disk request.parentInode.toNat) = 1
  | .write request, m => Careful (.write request) m.enter.fs ∧ Creates request m.fs.disk ∧
      HasRoom request m.fs.disk
  | _, _ => True

/-- Below inode `i` there are only names of fewer than 255 bytes and no zeros, and files of 8192
    bytes that are stored in full. -/
structure Plain (fs : Fs) (i : Nat) : Prop where
  names : ∀ j, Under fs.disk i j → IsDirectory fs.disk j →
    ∀ a ∈ proper fs.disk j, a.name.length < 255 ∧ 0 ∉ a.name
  files : ∀ j, Under fs.disk i j → ¬ IsDirectory fs.disk j →
    iSize (slot fs.disk j) = 8192 ∧ SameFile fs fs j j

/-- What lies below inode `i` can be copied. -/
structure Copyable (fs : Fs) (i : Nat) : Prop extends Plain fs i where
  unique : ∀ j, Under fs.disk i j → IsDirectory fs.disk j →
    ((entries fs.disk j).map Entry.name).Nodup

/-- The program returns 0, and has made the copy. -/
def Copies (p : Program Op Op.Reply Int) (q : Nat) (e : Entry) (name : List UInt8)
    (m : Machine) : Prop :=
  ∃ m', Program.run answer p m = (some 0, m') ∧ Tree m'.fs ∧ CopyOf m.fs m'.fs q e name

/-! ## Requests -/

section Requests

variable {m : Machine} {p q : Nat} {e : Entry} {name : List UInt8} {buf : Mem} {n : UInt32}
  {dir : Bool}

theorem ioRequest_parent (hp : IsInode p) :
    (ioRequest p name buf n dir).parentInode.toNat = p := listRequest_parent hp fun _ => 0

theorem ioRequest_buf : (ioRequest p name buf n dir).buf = buf := rfl

theorem ioRequest_name (h : name.length < 256) : requestName (ioRequest p name buf n dir) = name :=
  @requestName_root name [] false h

theorem ioRequest_name_iff :
    requestName (ioRequest p name buf n dir) = name ↔ name.length < 256 := by
  constructor
  · intro h
    rw [← h]
    unfold requestName
    rw [length_bytes]
    exact UInt8.toNat_lt _
  · exact ioRequest_name

/-- Where a request goes does not depend on its bytes. -/
theorem hit_io (buf' : Mem) (d : Disk) : (∀ q, firstHit (ioRequest p name buf n dir) d q =
      firstHit (ioRequest p name buf' n dir) d q) ∧
    growthBlock (ioRequest p name buf n dir) d = growthBlock (ioRequest p name buf' n dir) d := by
  have hnamed : ∀ r, Rec.named (ioRequest p name buf n dir) r =
      Rec.named (ioRequest p name buf' n dir) r := fun _ => rfl
  have hroomy : ∀ r, Rec.roomy (ioRequest p name buf n dir) r =
      Rec.roomy (ioRequest p name buf' n dir) r := fun _ => rfl
  have hhit : ∀ q, firstHit (ioRequest p name buf n dir) d q =
      firstHit (ioRequest p name buf' n dir) d q := by
    intro q
    unfold firstHit
    simp only [hnamed, hroomy]
  refine ⟨hhit, ?_⟩
  unfold growthBlock
  rw [hhit]
  simp only [ioRequest]

/-- Neither does its room. -/
theorem hasRoom_io {d : Disk} (buf' : Mem) :
    HasRoom (ioRequest p name buf n dir) d ↔ HasRoom (ioRequest p name buf' n dir) d := by
  unfold HasRoom roomFrom needed exactBlocks isDirRequest
  rw [(hit_io buf' d).2]
  exact Iff.rfl

theorem creates_io {d : Disk} (buf' : Mem) :
    Creates (ioRequest p name buf n dir) d ↔ Creates (ioRequest p name buf' n dir) d := by
  unfold Creates
  rw [(hit_io buf' d).1, (hit_io buf' d).2]
  exact Iff.rfl

theorem firstNamed_io {fs : Fs} (ht : Tree fs) (hp : IsDirectory fs.disk p)
    (hfirst : (entries fs.disk p).find? (fun a => a.name == e.name) = some e) :
    firstNamed (ioRequest p e.name buf n dir) fs.disk
      (ioRequest p e.name buf n dir).parentInode.toNat = some e := by
  have hle := ht.consistent.name_le hp (List.mem_of_find?_eq_some hfirst)
  unfold firstNamed
  rw [ioRequest_parent hp.isInode, ioRequest_name (by omega)]
  exact hfirst

/-- A careful `write` fails and leaves all as it is, or adds what is requested. -/
theorem answer_write {request : EXT2DriverRequest} (ht : Tree m.fs)
    (hok : Careful (.write request) m.enter.fs) :
    (∃ code m', code ≠ 0 ∧ answer (.write request) m = (code, m') ∧ Tree m'.fs ∧
      Quiet m.enter.fs m'.fs) ∨
    ∃ m' i, answer (.write request) m = (0, m') ∧
      IsDirectory m.fs.disk request.parentInode.toNat ∧ firstFreeInode m.fs.disk = some i ∧
      (firstHit request m.fs.disk request.parentInode.toNat = none →
        inodeBlockAt i ≠ inodeBlockAt request.parentInode.toNat) ∧
      Added request m.enter.fs m'.fs i := by
  rcases (enter_tree ht).write_added hok with ⟨hne, hq, ht'⟩ | ⟨h0, hp, i, hi, hkept, hadd⟩
  · exact Or.inl ⟨_, _, hne, answer_write_eq request, ht', hq⟩
  · refine Or.inr ⟨{ m.enter with fs := (write request m.enter.fs).2 }, i, ?_, hp, hi, hkept, hadd⟩
    rw [answer_write_eq, h0]

/-- What cannot be created is refused. -/
theorem answer_refused {request : EXT2DriverRequest} (ht : Tree m.fs)
    (hok : Careful (.write request) m.enter.fs) (hno : ¬ Creates request m.fs.disk) :
    (answer (.write request) m).1 ≠ 0 := by
  have h896 : request.parentInode.toNat ≤ 896 := hok.parent
  rcases write_call (enter_tree ht).consistent h896 (hok.write _ rfl) with ⟨hne, -⟩ | ⟨-, -, hcr, -⟩
  · rw [answer_write_eq]
    exact hne
  · exact absurd hcr hno

/-- Where it finds its name free, it succeeds. -/
theorem answer_creates {request : EXT2DriverRequest} (ht : Tree m.fs)
    (hp : IsDirectory m.fs.disk request.parentInode.toNat) (hok : CopyOk (.write request) m) :
    ∃ m' i, answer (.write request) m = (0, m') ∧ firstFreeInode m.fs.disk = some i ∧
      (firstHit request m.fs.disk request.parentInode.toNat = none →
        inodeBlockAt i ≠ inodeBlockAt request.parentInode.toNat) ∧
      Added request m.enter.fs m'.fs i := by
  obtain ⟨hcare, hcreates, -⟩ := hok
  have h0 : (answer (.write request) m).1 = 0 := by
    rw [answer_write_eq]
    exact write_creates (enter_tree ht).consistent hp hcreates
  rcases answer_write ht hcare with ⟨code, m', hne, hans, -⟩ | ⟨m', i, hans, -, hrest⟩
  · rw [hans] at h0
    exact absurd h0 hne
  · exact ⟨m', i, hans, hrest⟩

end Requests

/-! ## A file -/

/-- The bytes that `copy_file` reads of inode `i`. -/
def fileBytes (m : Machine) (i : Nat) : Mem :=
  (LossOs.Ext2.copyFile m.fs (slot m.fs.disk i) (m.user 0)).out

/-- What `copy_file` does when it has read the file. -/
def writeCopy (destInode : Nat) (destName : List UInt8) (fileBuffer : Mem) :
    Program Op Op.Reply Int := do
  let writeRetCode ← syscall (.write (ioRequest destInode destName fileBuffer 8192 false))
  if writeRetCode ≠ 0 then pure (-1) else pure 0

section File

variable {m m' : Machine} {s q : Nat} {e : Entry} {name : List UInt8} {ok : Op → Machine → Prop}

/-- What `copy_file` gets when it reads the file. -/
theorem answer_read (ht : Tree m.fs) (hs : IsDirectory m.fs.disk s)
    (hfirst : (entries m.fs.disk s).find? (fun a => a.name == e.name) = some e)
    (h1 : e.fileType = 1) : answer (.read (ioRequest s e.name (m.user 0) 8192 false)) m.next =
      (if 8192 < iSize (slot m.fs.disk e.inode) then (-1, m.user 0) else (0, fileBytes m e.inode),
        m.next.enter) := by
  refine Prod.ext ?_ rfl
  show LossOs.Ext2.read (ioRequest s e.name (m.user 0) 8192 false) m.next.enter.fs = _
  unfold fileBytes
  rw [← copyFile_withStack m.fs (m.kernel 0)]
  rw [show m.fs.withStack (m.kernel 0) = m.next.enter.fs from rfl]
  have ht' : Tree m.next.enter.fs := ht.withStack _
  have hdisk : m.next.enter.fs.disk = m.fs.disk := rfl
  generalize m.next.enter.fs = fs at ht' hdisk ⊢
  rw [← hdisk] at hs hfirst ⊢
  have hsize : (ioRequest s e.name (m.user 0) 8192 false).bufferSize.toNat = 8192 := rfl
  rw [ht'.read_file (by rw [ioRequest_parent hs.isInode]; exact hs) (firstNamed_io ht' hs hfirst)
    h1, hsize]
  rfl

/-- A file of more than 8192 bytes is not read. -/
theorem copyFile_read (ht : Tree m.fs) (hs : IsDirectory m.fs.disk s)
    (hfirst : (entries m.fs.disk s).find? (fun a => a.name == e.name) = some e)
    (h1 : e.fileType = 1) :
    (8192 < iSize (slot m.fs.disk e.inode) →
      Program.run answer (copyFile s e.name q name) m = (some (-1), m.next.enter)) ∧
    (iSize (slot m.fs.disk e.inode) ≤ 8192 →
      Program.run answer (copyFile s e.name q name) m =
        Program.run answer (writeCopy q name (fileBytes m e.inode)) m.next.enter ∧
      (Program.Always answer ok (copyFile s e.name q name) m ↔ ok .scratch m ∧
        ok (.read (ioRequest s e.name (m.user 0) 8192 false)) m.next ∧
          Program.Always answer ok (writeCopy q name (fileBytes m e.inode)) m.next.enter)) := by
  have hans := answer_read ht hs hfirst h1
  unfold copyFile writeCopy
  refine ⟨fun hlt => ?_, fun hle => ⟨?_, ?_⟩⟩
  · rw [run_scratch_bind, run_syscall_bind, hans, if_pos hlt]
    dsimp only
    rw [if_pos (by decide), Program.run_pure]
  · rw [run_scratch_bind, run_syscall_bind, hans, if_neg (not_lt.mpr hle)]
    dsimp only
    rw [if_neg (by decide)]
  · rw [show scratch = syscall Op.scratch from rfl, always_syscall_bind,
      show answer Op.scratch m = (m.user 0, m.next) from rfl]
    dsimp only
    rw [always_syscall_bind, hans, if_neg (not_lt.mpr hle)]
    dsimp only
    rw [if_neg (by decide)]

theorem writeCopy_always {buf : Mem} : Program.Always answer ok (writeCopy q name buf) m ↔
    ok (.write (ioRequest q name buf 8192 false)) m := by
  unfold writeCopy
  rw [always_syscall_bind]
  apply and_iff_left
  split
  · exact Program.always_pure _ _
  · exact Program.always_pure _ _

/-- With the copy of a file no directory was created. -/
theorem CopyOf.no_directory {fs fs' : Fs} {i : Nat} (h : CopyOf fs fs' q e name) (ht : Tree fs)
    (hs : IsDirectory fs.disk s) (he : e ∈ entries fs.disk s) (h1 : e.fileType = 1)
    (hu : inodeUsed fs.disk i = false) : ¬ IsDirectory fs'.disk i := by
  obtain ⟨t, _, _, -, -, -, htree, hg⟩ := h
  have hf := SameTree.file htree ht hs he h1
  intro hd
  rcases (hg.used i hd.isInode).mp hd.used with hu' | hi
  · rw [hu] at hu'
    cases hu'
  · obtain rfl := (under_file hf.not_directory.2).mp hi
    exact hf.not_directory.2 hd

/-- A new file under the name is a copy exactly if it holds the same bytes. -/
theorem Added.copyOf_iff {request : EXT2DriverRequest} {fs fs' : Fs} {i : Nat}
    (h : Added request fs fs' i) (hq : request.parentInode.toNat = q)
    (hreg : isDirRequest request = false) (ht : Tree fs) (hqd : IsDirectory fs.disk q)
    (hs : IsDirectory fs.disk s) (he : e ∈ entries fs.disk s) (h1 : e.fileType = 1) :
    CopyOf fs fs' q e name ↔ requestName request = name ∧ SameFile fs fs' e.inode i := by
  subst hq
  have hnew : newEntry request i = ⟨requestName request, i, e.fileType⟩ := by
    unfold newEntry
    rw [requestFileType_file hreg, h1]
  obtain ⟨A, B, h2, h3, hA⟩ := h.entries
  constructor
  · rintro ⟨t, A', B', h2', h3', -, htree, hgraft⟩
    have hf := SameTree.file htree ht hs he h1
    -- the only new inode is the one that was built
    have hti : t = i := by
      by_contra hne
      obtain ⟨hti, hu⟩ := hgraft.fresh t Relation.ReflTransGen.refl
      have hu' := (hgraft.used t hti).mpr (Or.inr Relation.ReflTransGen.refl)
      rcases (h.grafted.used t hti).mp hu' with hu'' | he
      · rw [hu] at hu''
        cases hu''
      · exact hne he
    subst hti
    refine ⟨?_, hf⟩
    have hm : (⟨name, t, e.fileType⟩ : Entry) ∈ entries fs'.disk request.parentInode.toNat := by
      rw [h3']
      simp
    have hold : (⟨name, t, e.fileType⟩ : Entry) ∉ A ++ B := by
      intro hmem
      have hu := (ht.sound.noDangling.entry _ hqd _ (h2 ▸ hmem)).2.1
      rw [(h.grafted.fresh t rfl).2] at hu
      cases hu
    rw [h3, hnew, List.mem_append, List.mem_cons] at hm
    rw [List.mem_append] at hold
    rcases hm with hm | hm | hm
    · exact absurd (Or.inl hm) hold
    · exact (congrArg Entry.name hm).symm
    · exact absurd (Or.inr hm) hold
  · rintro ⟨rfl, hf⟩
    refine ⟨i, A, B, h2, by rw [h3, hnew], hA, hf.tree, h.grafted.congr fun j => ?_⟩
    exact (under_file hf.not_directory.2).symm

/-- When `copy_file` returns 0, it has made a copy exactly if the file has 8192 bytes, which are
    stored in full, there is room for them, and the name is not too long. -/
theorem copyFile_copy_iff (ht : Tree m.fs) (hs : IsDirectory m.fs.disk s)
    (hq : IsDirectory m.fs.disk q)
    (hfirst : (entries m.fs.disk s).find? (fun a => a.name == e.name) = some e)
    (h1 : e.fileType = 1)
    (hcare : ∀ request m₁, ok (.write request) m₁ → Careful (.write request) m₁.enter.fs)
    (hz : Program.Always answer ok (copyFile s e.name q name) m)
    (hrun : Program.run answer (copyFile s e.name q name) m = (some 0, m')) :
    CopyOf m.fs m'.fs q e name ↔ name.length < 256 ∧ iSize (slot m.fs.disk e.inode) = 8192 ∧
      SameFile m.fs m.fs e.inode e.inode ∧
      HasRoom (ioRequest q name (fun _ => 0) 8192 false) m.fs.disk := by
  obtain ⟨hbig, hsmall⟩ := @copyFile_read m s q e name ok ht hs hfirst h1
  by_cases hlt : 8192 < iSize (slot m.fs.disk e.inode)
  · rw [hbig hlt] at hrun
    cases (Prod.mk.inj hrun).1
  obtain ⟨hrun', hz'⟩ := hsmall (not_lt.mp hlt)
  rw [hrun'] at hrun
  have hok := hcare _ _ (writeCopy_always.mp (hz'.mp hz).2.2)
  have hm := List.mem_of_find?_eq_some hfirst
  have hmode : iMode (slot m.fs.disk e.inode) = 0x8000 := by
    rcases (ht.sound.noDangling.entry s hs e hm).2.2 with ⟨-, hmode⟩ | ⟨h2, -⟩
    · exact hmode
    · rw [h1] at h2
      cases h2
  have hparent : (ioRequest q name (fileBytes m e.inode) 8192 false).parentInode.toNat = q :=
    ioRequest_parent hq.isInode
  unfold writeCopy at hrun
  rw [run_syscall_bind] at hrun
  rcases answer_write (m := m.next.enter) (ht.withStack _) hok with
    ⟨code, m₁, hne, hans, -⟩ | ⟨m₁, i, hans, hqd, hi, hkept, hadd⟩
  · rw [hans] at hrun
    dsimp only at hrun
    rw [if_pos hne, Program.run_pure] at hrun
    cases (Prod.mk.inj hrun).1
  rw [hans] at hrun
  dsimp only at hrun
  rw [if_neg (not_not.mpr rfl), Program.run_pure] at hrun
  obtain ⟨-, rfl⟩ := Prod.mk.inj hrun
  have hbuf : (ioRequest q name (fileBytes m e.inode) 8192 false).buf =
      (LossOs.Ext2.copyFile m.fs (slot m.fs.disk e.inode) (m.user 0)).out := by
    rw [ioRequest_buf, fileBytes]
  have ht₂ : Tree m.next.enter.enter.fs := (ht.withStack _).withStack _
  have hsame := hadd.sameFile_iff rfl (show 0 < (8192 : UInt32).toNat by decide) ht₂.consistent hqd
    hi hkept hmode hbuf
  have hcopy := @Added.copyOf_iff s q e name _ _ _ i hadd hparent rfl ht₂ hq hs hm h1
  have hdisk : m.next.enter.enter.fs = (m.fs.withStack (m.kernel 0)).withStack (m.kernel 1) := rfl
  rw [hdisk, copyOf_withStack, copyOf_withStack, sameFile_withStack, sameFile_withStack, hsame,
    ioRequest_name_iff] at hcopy
  rw [hcopy, hasRoom_io fun _ => 0]
  exact Iff.rfl

/-- A file of 8192 bytes is copied where the calls do what they are for. -/
theorem copyFile_copies (ht : Tree m.fs) (hs : IsDirectory m.fs.disk s)
    (hq : IsDirectory m.fs.disk q)
    (hfirst : (entries m.fs.disk s).find? (fun a => a.name == e.name) = some e)
    (h1 : e.fileType = 1) (hsize : iSize (slot m.fs.disk e.inode) = 8192)
    (hwhole : SameFile m.fs m.fs e.inode e.inode) (hname : name.length < 256)
    (hz : Program.Always answer CopyOk (copyFile s e.name q name) m) :
    Copies (copyFile s e.name q name) q e name m := by
  obtain ⟨-, hsmall⟩ := @copyFile_read m s q e name CopyOk ht hs hfirst h1
  obtain ⟨hrun, hz'⟩ := hsmall hsize.le
  have hok := writeCopy_always.mp (hz'.mp hz).2.2
  have hparent : (ioRequest q name (fileBytes m e.inode) 8192 false).parentInode.toNat = q :=
    ioRequest_parent hq.isInode
  obtain ⟨m', i, hans, -, -, hadd⟩ := answer_creates (m := m.next.enter) (ht.withStack _)
    (by rw [hparent]; exact hq) hok
  have hrun' : Program.run answer (copyFile s e.name q name) m = (some 0, m') := by
    rw [hrun]
    unfold writeCopy
    rw [run_syscall_bind, hans]
    dsimp only
    rw [if_neg (not_not.mpr rfl), Program.run_pure]
  refine ⟨m', hrun', hadd.tree, ?_⟩
  rw [copyFile_copy_iff ht hs hq hfirst h1 (fun _ _ hc => hc.1) hz hrun']
  exact ⟨hname, hsize, hwhole, (hasRoom_io _).mp hok.2.2⟩

end File

/-! ## A directory -/

/-- What is left to do when the new directory is there. -/
def copyRest (depth srcDirInode destDirInode : Nat) (L : List Entry) : Program Op Op.Reply Int := do
  L.forM (copyEntry (copyDirRecursive depth) srcDirInode destDirInode)
  pure 0

section Directory

variable {m : Machine} {fs : Fs} {p q s t k : Nat} {e : Entry} {name : List UInt8}

/-- In a directory of one block each name is found. -/
theorem getInodeByName_one (ht : Tree m.fs) (hp : IsDirectory m.fs.disk p)
    (h1 : iBlocks (slot m.fs.disk p) = 1)
    (hfirst : (entries m.fs.disk p).find? (fun a => a.name == name) = some e) :
    Program.run answer (getInodeByName p name) m = (some e.inode, m.enter) := by
  obtain ⟨rest, heq, hrest⟩ := ht.entries_first hp
  have hm := List.mem_of_find?_eq_some hfirst
  rw [heq, hrest h1, List.append_nil] at hm
  have hname : e.name = name := by simpa using List.find?_some hfirst
  subst hname
  exact getInodeByName_first ht hp hfirst hm

theorem getInodeByName_always (hp : IsInode p)
    (hz : Program.Always answer CopyOk (getInodeByName p name) m) :
    iBlocks (slot m.fs.disk p) = 1 := by
  unfold getInodeByName at hz
  rw [always_syscall_bind] at hz
  have h1 : iBlocks (slot m.fs.disk (listRequest p fun _ => 0).parentInode.toNat) = 1 := hz.1
  rwa [listRequest_parent hp] at h1

/-- The entries that are copied from a directory of one block. -/
theorem copyEntries_one (ht : Tree fs) (hp : IsDirectory fs.disk p)
    (h1 : iBlocks (slot fs.disk p) = 1) (hnames : ∀ a ∈ proper fs.disk p, a.name.length < 255) :
    copyEntries (listed fs (fun _ => 0) p) = proper fs.disk p := by
  unfold copyEntries
  rw [walk_listed_one ht hp h1]
  unfold proper
  refine List.filter_congr fun a ha => decide_eq_decide.mpr ?_
  exact ⟨fun h => ⟨h.1, h.2.1⟩, fun h => ⟨h.1, h.2, hnames a (mem_proper.mpr ⟨ha, h⟩)⟩⟩

/-- What the lookups give when the new directory was made. -/
theorem Added.lookups {request : EXT2DriverRequest} {fs' : Fs} (h : Added request fs fs' t)
    (hq : request.parentInode.toNat = q) (hname : requestName request = name)
    (hp : IsDirectory fs.disk p) (hself : p = q → name ≠ e.name)
    (hfirst : (entries fs.disk p).find? (fun a => a.name == e.name) = some e) :
    (entries fs'.disk p).find? (fun a => a.name == e.name) = some e ∧
      (entries fs'.disk q).find? (fun a => a.name == name) = some (newEntry request t) := by
  subst hq hname
  obtain ⟨A, B, h2, h3, -⟩ := h.entries
  refine ⟨?_, h.find_new⟩
  by_cases hpq : p = request.parentInode.toNat
  · subst hpq
    have hne : ¬ ((newEntry request t).name == e.name) = true := fun he =>
      hself rfl (beq_iff_eq.mp he)
    rw [h3, List.find?_append, List.find?_cons, eq_false_of_ne_true hne]
    rwa [h2, List.find?_append] at hfirst
  · rw [(h.grafted.kept p hp.isInode hp.used hpq).entries_eq hp]
    exact hfirst

/-- `copy_dir_recursive` makes the new directory, and then copies the entries that were there. -/
theorem copyDirRecursive_head (ht : Tree m.fs) (hp : IsDirectory m.fs.disk p)
    (hq : IsDirectory m.fs.disk q)
    (hfirst : (entries m.fs.disk p).find? (fun a => a.name == e.name) = some e)
    (h2 : e.fileType = 2) (hself : p = q → name ≠ e.name) (hne : e.inode ≠ q)
    (hnames : ∀ a ∈ proper m.fs.disk e.inode, a.name.length < 255) (hname : name.length < 256)
    (hz : Program.Always answer CopyOk (copyDirRecursive (k + 1) p e.name q name) m) :
    ∃ (m₁ : Machine) (t : Nat), Added (ioRequest q name (fun _ => 0) 0 true) m.enter.fs m₁.fs t ∧
      Program.run answer (copyDirRecursive (k + 1) p e.name q name) m =
        Program.run answer (copyRest k e.inode t (proper m.fs.disk e.inode))
          m₁.enter.enter.enter ∧
      Program.Always answer CopyOk (copyRest k e.inode t (proper m.fs.disk e.inode))
        m₁.enter.enter.enter := by
  have hparent : (ioRequest q name (fun _ => 0) 0 true).parentInode.toNat = q :=
    ioRequest_parent hq.isInode
  have hm := List.mem_of_find?_eq_some hfirst
  have hd : IsDirectory m.fs.disk e.inode := (ht.sound.noDangling.isDir_iff hp hm).mpr h2
  rw [copyDirRecursive, always_syscall_bind] at hz
  obtain ⟨hok, hz⟩ := hz
  obtain ⟨m₁, t, hans, -, -, hadd⟩ := answer_creates ht (by rw [hparent]; exact hq) hok
  refine ⟨m₁, t, hadd, ?_⟩
  rw [copyDirRecursive, run_syscall_bind, hans]
  rw [hans] at hz
  dsimp only at hz ⊢
  rw [if_neg (not_not.mpr rfl)] at hz ⊢
  -- both directories are found
  have ht₁ := hadd.tree
  have hg := hadd.grafted
  rw [hparent, enter_disk] at hg
  have hp₁ : IsDirectory m₁.fs.disk p := hg.isDirectory hp
  have hq₁ : IsDirectory m₁.fs.disk q := hg.isDirectory hq
  have hd₁ : IsDirectory m₁.fs.disk e.inode := hg.isDirectory hd
  obtain ⟨hsrc, hdst⟩ := Added.lookups hadd hparent (ioRequest_name hname) hp hself hfirst
  obtain ⟨htdir, -⟩ := hadd.dir rfl
  have ht0 : t ≠ 0 := by have := htdir.isInode.1; omega
  have he0 : e.inode ≠ 0 := by have := hd.isInode.1; omega
  rw [Program.always_bind] at hz
  obtain ⟨hz₁, hz⟩ := hz
  have hget := getInodeByName_one ht₁ hp₁ (getInodeByName_always hp.isInode hz₁) hsrc
  replace hz := hz _ _ hget
  rw [Program.run_bind_some hget]
  rw [if_neg he0] at hz ⊢
  rw [Program.always_bind] at hz
  obtain ⟨hz₂, hz⟩ := hz
  have hget' := @getInodeByName_one m₁.enter q _ name (enter_tree ht₁) hq₁
    (getInodeByName_always hq.isInode hz₂) hdst
  rw [show (newEntry (ioRequest q name (fun _ => 0) 0 true) t).inode = t from rfl] at hget'
  replace hz := hz _ _ hget'
  rw [Program.run_bind_some hget']
  rw [if_neg ht0] at hz ⊢
  -- the old one is listed
  have hlist := @answer_list m₁.enter.enter e.inode (enter_tree (enter_tree ht₁)) hd₁ fun _ => 0
  rw [always_syscall_bind, hlist] at hz
  obtain ⟨h1, hz⟩ := hz
  replace h1 : iBlocks (slot m₁.enter.enter.fs.disk
    (listRequest e.inode fun _ => 0).parentInode.toNat) = 1 := h1
  rw [listRequest_parent hd.isInode] at h1
  have hkept := hg.kept e.inode hd.isInode hd.used hne
  have hproper : proper m₁.fs.disk e.inode = proper m.fs.disk e.inode := by
    unfold proper
    rw [hkept.entries_eq hd]
  have hcopy := @copyEntries_one m₁.enter.enter.enter.fs e.inode
    (enter_tree (enter_tree (enter_tree ht₁))) hd₁ h1
    (show ∀ a ∈ proper m₁.fs.disk e.inode, a.name.length < 255 by rw [hproper]; exact hnames)
  rw [show proper m₁.enter.enter.enter.fs.disk e.inode = proper m.fs.disk e.inode from hproper]
    at hcopy
  rw [run_syscall_bind, hlist]
  dsimp only at hz ⊢
  rw [if_neg (by decide), hcopy] at hz ⊢
  exact ⟨rfl, hz⟩

end Directory

/-! ## The loop over the entries -/

/-- From `fs` to `fs'` copies of the entries `L` were put into directory `t`: the entries `M`. -/
structure CopiesOf (fs fs' : Fs) (t : Nat) (L M : List Entry) : Prop where
  tree : Tree fs'
  grafted : Grafted fs.disk fs'.disk t fun j => ∃ b ∈ M, Under fs'.disk b.inode j
  entries : ∀ x, x ∈ entries fs'.disk t ↔ x ∈ LossOs.Ext2.entries fs.disk t ∨ x ∈ M
  there : ∀ a ∈ L, ∃ b ∈ M, b.name = a.name ∧ b.fileType = a.fileType ∧
    SameTree fs fs' a.inode b.inode
  back : ∀ b ∈ M, ∃ a ∈ L, b.name = a.name ∧ b.fileType = a.fileType ∧
    SameTree fs fs' a.inode b.inode

section Loop

variable {m : Machine} {fs fs₁ fs' : Fs} {p q s t k : Nat} {a e : Entry} {name : List UInt8}
  {L M : List Entry}

theorem CopiesOf.nil (ht : Tree fs) (t : Nat) : CopiesOf fs fs t [] [] where
  tree := ht
  grafted := (Grafted.refl _ _).congr fun j => by simp
  entries := fun x => by simp
  there := by simp
  back := by simp

/-- One entry is copied, and then the others. -/
theorem CopiesOf.cons (h : CopyOf fs fs₁ t a a.name) (h' : CopiesOf fs₁ fs' t L M) (ht : Tree fs)
    (ht₁ : Tree fs₁) (htd : IsDirectory fs.disk t) (hs : IsDirectory fs.disk s) (hP : Proper a)
    (hL : ∀ b ∈ L, b ∈ proper fs.disk s ∧ ¬ Under fs.disk b.inode t) :
    ∃ M', CopiesOf fs fs' t (a :: L) M' := by
  obtain ⟨t₁, A, B, h1, h2, -, hsame, hg⟩ := h
  have htd₁ := hg.isDirectory htd
  have hnew : (⟨a.name, t₁, a.fileType⟩ : Entry) ∈ proper fs₁.disk t := by
    refine mem_proper.mpr ⟨?_, hP⟩
    rw [h2]
    simp
  -- what was copied stays, and so does what is to be copied
  have hkept : ∀ y, Under fs₁.disk t₁ y → Intact fs₁.disk fs'.disk y := fun y hy =>
    h'.grafted.intact_under ht₁ htd₁ hnew (ht₁.child_ne htd₁ (mem_proper.mp hnew).1 hP) hy
  have hsrc : ∀ b ∈ L, ∀ y, Under fs.disk b.inode y → Intact fs.disk fs₁.disk y := fun b hb y hy =>
    hg.intact_under ht hs (hL b hb).1 (hL b hb).2 hy
  have hback : ∀ b ∈ L, ∀ c, SameTree fs₁ fs' b.inode c → SameTree fs fs' b.inode c := by
    intro b hb c hc
    refine SameTree.congr hc (fun y hy => ?_) fun y _ => Intact.refl _ y
    exact (hsrc b hb y ((under_congr (hsrc b hb)).mp hy)).symm
  refine ⟨⟨a.name, t₁, a.fileType⟩ :: M, h'.tree, ?_, fun x => ?_, fun b hb => ?_, fun b hb => ?_⟩
  · refine (hg.trans h'.grafted htd (Or.inl rfl)).congr fun j => ?_
    simp only [List.mem_cons, exists_eq_or_imp]
    exact or_congr (under_congr hkept).symm Iff.rfl
  · rw [h'.entries x, h1, h2]
    simp only [List.mem_append, List.mem_cons, or_assoc, or_left_comm]
  · rcases List.mem_cons.mp hb with rfl | hb
    · exact ⟨_, List.mem_cons_self, rfl, rfl,
        SameTree.congr hsame (fun y _ => Intact.refl _ y) hkept⟩
    · obtain ⟨c, hc, hname, htype, htree⟩ := h'.there b hb
      exact ⟨c, List.mem_cons_of_mem _ hc, hname, htype, hback b hb _ htree⟩
  · rcases List.mem_cons.mp hb with rfl | hb
    · exact ⟨a, List.mem_cons_self, rfl, rfl,
        SameTree.congr hsame (fun y _ => Intact.refl _ y) hkept⟩
    · obtain ⟨c, hc, hname, htype, htree⟩ := h'.back b hb
      exact ⟨c, List.mem_cons_of_mem _ hc, hname, htype, hback c hc _ htree⟩

theorem Copyable.congr (h : Copyable fs p)
    (hk : ∀ y, Under fs.disk p y → Intact fs.disk fs'.disk y) :
    Copyable fs' p := by
  refine ⟨⟨fun j hj hd => ?_, fun j hj hd => ?_⟩, fun j hj hd => ?_⟩
  · have hj' := (under_congr hk).mp hj
    have hd' := (hk j hj').isDirectory_iff.mp hd
    have := h.names j hj' hd'
    unfold proper at this ⊢
    rwa [(hk j hj').entries_eq hd']
  · have hj' := (under_congr hk).mp hj
    obtain ⟨hsize, hwhole⟩ := h.files j hj' fun hd' => hd ((hk j hj').isDirectory_iff.mpr hd')
    rw [(hk j hj').node]
    exact ⟨hsize, hwhole.congr (hk j hj') (hk j hj')⟩
  · have hj' := (under_congr hk).mp hj
    have hd' := (hk j hj').isDirectory_iff.mp hd
    rw [(hk j hj').entries_eq hd']
    exact h.unique j hj' hd'

/-- Where names are unique, each entry is the first of its name. -/
theorem find_nodup {l : List Entry} (h : (l.map Entry.name).Nodup) (ha : a ∈ l) :
    l.find? (fun x => x.name == a.name) = some a := by
  obtain ⟨A, B, rfl⟩ := List.append_of_mem ha
  rw [List.map_append, List.map_cons, List.nodup_append] at h
  have hnone : A.find? (fun x => x.name == a.name) = none := by
    refine List.find?_eq_none.mpr fun x hx hname => ?_
    exact h.2.2 _ (List.mem_map_of_mem hx) _ List.mem_cons_self (beq_iff_eq.mp hname)
  rw [List.find?_append, hnone, List.find?_cons, beq_self_eq_true]
  rfl

theorem CopiesOf.of_withStack {stack : Mem} (h : CopiesOf (fs.withStack stack) fs' t L M) :
    CopiesOf fs fs' t L M where
  tree := h.tree
  grafted := h.grafted
  entries := h.entries
  there := fun a ha => by
    obtain ⟨b, hb, hname, htype, hsame⟩ := h.there a ha
    exact ⟨b, hb, hname, htype, (sameTree_withStack stack).mp hsame⟩
  back := fun b hb => by
    obtain ⟨a, ha, hname, htype, hsame⟩ := h.back b hb
    exact ⟨a, ha, hname, htype, (sameTree_withStack stack).mp hsame⟩

/-- A new directory into which all entries were copied is a copy. -/
theorem Added.copyOf_dir {request : EXT2DriverRequest} (h : Added request fs fs₁ t)
    (hq : request.parentInode.toNat = q) (hname : requestName request = name)
    (hdir : isDirRequest request = true) (h' : CopiesOf fs₁ fs' t (proper fs.disk e.inode) M)
    (ht : Tree fs) (hqd : IsDirectory fs.disk q) (hd : IsDirectory fs.disk e.inode)
    (h2 : e.fileType = 2) (hout : ¬ Under fs.disk e.inode q) : CopyOf fs fs' q e name := by
  subst hq hname
  obtain ⟨A, B, h1, h3, hA⟩ := h.entries
  obtain ⟨htd, hempty⟩ := h.dir hdir
  have hqt : request.parentInode.toNat ≠ t := fun he => h.grafted.not_mem hqd.used he
  have hqd₁ := h.grafted.isDirectory hqd
  have htd' := h'.grafted.isDirectory htd
  have hnew : newEntry request t = ⟨requestName request, t, e.fileType⟩ := by
    unfold newEntry requestFileType
    rw [hdir, h2]
    rfl
  have hproper : ∀ b, b ∈ proper fs'.disk t ↔ b ∈ M ∧ Proper b := by
    intro b
    rw [mem_proper, h'.entries b]
    refine and_congr_left fun hP => or_iff_right fun hb => ?_
    have hmem := mem_proper.mpr ⟨hb, hP⟩
    rw [hempty] at hmem
    cases hmem
  have hchild : ∀ a ∈ proper fs.disk e.inode, ∀ b, SameTree fs₁ fs' a.inode b →
      SameTree fs fs' a.inode b := by
    intro a ha b hab
    have hout' : ¬ Under fs.disk a.inode request.parentInode.toNat := fun hu =>
      hout (ht.under_child hd ha hu).1
    have hk : ∀ y, Under fs.disk a.inode y → Intact fs.disk fs₁.disk y := fun y hy =>
      h.grafted.intact_under ht hd ha hout' hy
    exact SameTree.congr hab (fun y hy => (hk y ((under_congr hk).mp hy)).symm)
      fun y _ => Intact.refl _ y
  have hP : ∀ a b : Entry, b.name = a.name → (Proper b ↔ Proper a) := by
    intro a b hab
    unfold Proper
    rw [hab]
  refine ⟨t, A, B, h1, ?_, hA, ?_, ?_⟩
  · rw [(h'.grafted.kept _ hqd.isInode hqd₁.used hqt).entries_eq hqd₁, h3, hnew]
  · refine LinkGraph.Alike.of_links (.dir hd htd') (iff_of_true hd htd') (fun _ a ha hPa => ?_)
      fun _ b hb hPb => ?_
    · rw [graphOf_links] at ha
      have hm := mem_proper.mpr ⟨ha, hPa⟩
      obtain ⟨b, hb, hname, htype, hsame⟩ := h'.there a hm
      have hb' := (hproper b).mpr ⟨hb, (hP a b hname).mpr hPa⟩
      obtain ⟨hb', hPb⟩ := mem_proper.mp hb'
      exact ⟨b, by rwa [graphOf_links], hPb, Prod.ext hname htype, hchild a hm _ hsame⟩
    · rw [graphOf_links] at hb
      obtain ⟨hbM, -⟩ := (hproper b).mp (mem_proper.mpr ⟨hb, hPb⟩)
      obtain ⟨a, ha, hname, htype, hsame⟩ := h'.back b hbM
      obtain ⟨ha', hPa⟩ := mem_proper.mp ha
      exact ⟨a, by rwa [graphOf_links], hPa, Prod.ext hname htype, hchild a ha _ hsame⟩
  · refine (h.grafted.trans h'.grafted hqd (Or.inr rfl)).congr fun j => ?_
    rw [show Under fs'.disk t j ↔ _ from LinkGraph.below_iff]
    apply or_congr eq_comm
    rw [graphOf_links, and_iff_right (show (graphOf fs'.disk).isDir t from htd')]
    constructor
    · rintro ⟨b, hb, hj⟩
      obtain ⟨a, ha, hname, -⟩ := h'.back b hb
      have hPb := (hP a b hname).mpr (mem_proper.mp ha).2
      exact ⟨b, (mem_proper.mp ((hproper b).mpr ⟨hb, hPb⟩)).1, hPb, hj⟩
    · rintro ⟨b, hb, hPb, hj⟩
      exact ⟨b, ((hproper b).mp (mem_proper.mpr ⟨hb, hPb⟩)).1, hj⟩

/-- What `copy_dir_recursive` needs of the entry, to be copied into directory `q`. -/
structure Source (fs : Fs) (p q k : Nat) (e : Entry) : Prop where
  proper : Proper e
  first : (entries fs.disk p).find? (fun a => a.name == e.name) = some e
  apart : ¬ Under fs.disk e.inode q
  copyable : Copyable fs e.inode
  tall : LinkGraph.Tall Entry.inode Proper (graphOf fs.disk) k e.inode

/-- Where an inode was taken for the new directory, the entries of the old one can be copied into
    it. -/
theorem Source.child (h : Source fs p q (k + 1) e) (ht : Tree fs) (hd : IsDirectory fs.disk e.inode)
    (hg : Grafted fs.disk fs'.disk q fun j => j = t)
    (ha : a ∈ LossOs.Ext2.proper fs.disk e.inode) :
    Source fs' e.inode t k a ∧ a.name.length < 255 ∧ 0 ∉ a.name := by
  obtain ⟨hm, hP⟩ := mem_proper.mp ha
  have hchild : LinkGraph.Child Entry.inode Proper (graphOf fs.disk) e.inode a.inode :=
    ⟨hd, a, by rwa [graphOf_links], hP, rfl⟩
  have hne : e.inode ≠ q := fun he => h.apart (he ▸ Relation.ReflTransGen.refl)
  have hkept : ∀ y, Under fs.disk a.inode y → Intact fs.disk fs'.disk y := fun y hy =>
    hg.intact_under ht hd ha (fun hu => h.apart (Relation.ReflTransGen.head hchild hu)) hy
  have hnodup := h.copyable.unique e.inode Relation.ReflTransGen.refl hd
  have hnames := h.copyable.names e.inode Relation.ReflTransGen.refl hd
  have hcopyable : Copyable fs a.inode :=
    ⟨⟨fun j hj => h.copyable.names j (Relation.ReflTransGen.head hchild hj),
      fun j hj => h.copyable.files j (Relation.ReflTransGen.head hchild hj)⟩,
      fun j hj => h.copyable.unique j (Relation.ReflTransGen.head hchild hj)⟩
  refine ⟨⟨hP, ?_, fun hu => ?_, hcopyable.congr hkept, ?_⟩, hnames a ha⟩
  · rw [(hg.kept _ hd.isInode hd.used hne).entries_eq hd]
    exact find_nodup hnodup hm
  · exact hg.not_mem (ht.under_used hd ha ((under_congr hkept).mp hu)).2 rfl
  · exact (h.tall _ hchild).congr fun y hy => (hkept y hy).links

/-- When the loop has made copies, the directory is copied. -/
theorem copies_dir (ht : Tree m.fs) (hp : IsDirectory m.fs.disk p) (hq : IsDirectory m.fs.disk q)
    (hsrc : Source m.fs p q k e) (h2 : e.fileType = 2) (hself : p = q → name ≠ e.name)
    (hname : name.length < 256)
    (hz : Program.Always answer CopyOk (copyDirRecursive (k + 1) p e.name q name) m)
    (hloop : ∀ (m₁ : Machine) t, Added (ioRequest q name (fun _ => 0) 0 true) m.enter.fs m₁.fs t →
      Program.Always answer CopyOk ((proper m.fs.disk e.inode).forM
        (copyEntry (copyDirRecursive k) e.inode t)) m₁.enter.enter.enter →
      ∃ m' M, Program.run answer ((proper m.fs.disk e.inode).forM
          (copyEntry (copyDirRecursive k) e.inode t)) m₁.enter.enter.enter = (some (), m') ∧
        CopiesOf m₁.enter.enter.enter.fs m'.fs t (proper m.fs.disk e.inode) M) :
    Copies (copyDirRecursive (k + 1) p e.name q name) q e name m := by
  have hm := List.mem_of_find?_eq_some hsrc.first
  have hd := (ht.sound.noDangling.isDir_iff hp hm).mpr h2
  have hne : e.inode ≠ q := fun he => hsrc.apart (he ▸ Relation.ReflTransGen.refl)
  have hnames := hsrc.copyable.names _ Relation.ReflTransGen.refl hd
  obtain ⟨m₁, t, hadd, hrun, hz₁⟩ := copyDirRecursive_head ht hp hq hsrc.first h2 hself hne
    (fun a ha => (hnames a ha).1) hname hz
  unfold copyRest at hrun hz₁
  rw [Program.always_bind] at hz₁
  obtain ⟨m', M, hrun', hM⟩ := hloop m₁ t hadd hz₁.1
  refine ⟨m', ?_, hM.tree, ?_⟩
  · rw [hrun, Program.run_bind_some hrun', Program.run_pure]
  · have hcopy := Added.copyOf_dir hadd (ioRequest_parent hq.isInode) (ioRequest_name hname) rfl
      hM.of_withStack.of_withStack.of_withStack (enter_tree ht) hq hd h2 hsrc.apart
    exact (copyOf_withStack _).mp hcopy

/-- An entry of the source directory is copied as it needs to be. -/
theorem copyEntry_run (hrec : Source m.fs s t k a → a.fileType = 2 →
      Program.Always answer CopyOk (copyDirRecursive (k + 1) s a.name t a.name) m →
      Copies (copyDirRecursive (k + 1) s a.name t a.name) t a a.name m)
    (ht : Tree m.fs) (hs : IsDirectory m.fs.disk s) (htd : IsDirectory m.fs.disk t)
    (hsrc : Source m.fs s t k a) (hname : a.name.length < 255 ∧ 0 ∉ a.name)
    (hz : Program.Always answer CopyOk (copyEntry (copyDirRecursive (k + 1)) s t a) m) :
    ∃ m', Program.run answer (copyEntry (copyDirRecursive (k + 1)) s t a) m = (some (), m') ∧
      Tree m'.fs ∧ CopyOf m.fs m'.fs t a a.name := by
  have hm := List.mem_of_find?_eq_some hsrc.first
  unfold copyEntry at hz ⊢
  dsimp only at hz ⊢
  rw [cString_eq hname.2] at hz ⊢
  rcases ht.fileType hs hm with h1 | h2
  · rw [if_neg (by omega), if_pos h1] at hz ⊢
    rw [Program.always_bind] at hz
    have hnd : ¬ IsDirectory m.fs.disk a.inode := fun hd => by
      have := (ht.sound.noDangling.isDir_iff hs hm).mp hd
      omega
    obtain ⟨hsize, hwhole⟩ := hsrc.copyable.files a.inode Relation.ReflTransGen.refl hnd
    obtain ⟨m', hrun, ht', hcopy⟩ := copyFile_copies ht hs htd hsrc.first h1 hsize hwhole (by omega)
      hz.1
    exact ⟨m', by rw [Program.run_bind_some hrun, Program.run_pure], ht', hcopy⟩
  · rw [if_pos h2] at hz ⊢
    rw [Program.always_bind] at hz
    obtain ⟨m', hrun, ht', hcopy⟩ := hrec hsrc h2 hz.1
    exact ⟨m', by rw [Program.run_bind_some hrun, Program.run_pure], ht', hcopy⟩

/-- The loop copies one entry after the other. -/
theorem copyEntries_run (hrec : ∀ {m : Machine} {a : Entry}, Tree m.fs → IsDirectory m.fs.disk s →
      IsDirectory m.fs.disk t → a.name.length < 255 → Source m.fs s t k a → a.fileType = 2 →
      Program.Always answer CopyOk (copyDirRecursive (k + 1) s a.name t a.name) m →
      Copies (copyDirRecursive (k + 1) s a.name t a.name) t a a.name m)
    (ht : Tree m.fs) (hs : IsDirectory m.fs.disk s) (htd : IsDirectory m.fs.disk t) (hst : s ≠ t)
    (hsrc : ∀ a ∈ L, Source m.fs s t k a ∧ a.name.length < 255 ∧ 0 ∉ a.name)
    (hz : Program.Always answer CopyOk (L.forM (copyEntry (copyDirRecursive (k + 1)) s t)) m) :
    ∃ m' M, Program.run answer (L.forM (copyEntry (copyDirRecursive (k + 1)) s t)) m =
      (some (), m') ∧
      CopiesOf m.fs m'.fs t L M := by
  induction L generalizing m with
  | nil => exact ⟨m, [], Program.run_pure _ m, CopiesOf.nil ht t⟩
  | cons a L ih =>
    rw [Program.forM_cons, Program.always_bind] at hz
    obtain ⟨hsa, hname⟩ := hsrc a List.mem_cons_self
    obtain ⟨m₁, hrun₁, ht₁, hcopy⟩ :=
      copyEntry_run (hrec ht hs htd hname.1) ht hs htd hsa hname hz.1
    have hL : ∀ b ∈ L, b ∈ proper m.fs.disk s ∧ ¬ Under m.fs.disk b.inode t := fun b hb => by
      have hb := (hsrc b (List.mem_cons_of_mem _ hb)).1
      exact ⟨mem_proper.mpr ⟨List.mem_of_find?_eq_some hb.first, hb.proper⟩, hb.apart⟩
    obtain ⟨_, _, _, -, -, -, -, hg⟩ := id hcopy
    have hkept : ∀ b ∈ L, ∀ y, Under m.fs.disk b.inode y → Intact m.fs.disk m₁.fs.disk y :=
      fun b hb y hy => hg.intact_under ht hs (hL b hb).1 (hL b hb).2 hy
    obtain ⟨m', M, hrun, hcopies⟩ := ih ht₁ (hg.isDirectory hs) (hg.isDirectory htd)
      (fun b hb => by
        obtain ⟨hsb, hnb⟩ := hsrc b (List.mem_cons_of_mem _ hb)
        refine ⟨⟨hsb.proper, ?_, fun hu => hsb.apart ((under_congr (hkept b hb)).mp hu),
          hsb.copyable.congr (hkept b hb), hsb.tall.congr fun y hy => (hkept b hb y hy).links⟩, hnb⟩
        rw [(hg.kept s hs.isInode hs.used hst).entries_eq hs]
        exact hsb.first)
      (hz.2 _ _ hrun₁)
    obtain ⟨M', hM⟩ := hcopies.cons hcopy ht ht₁ htd hs hsa.proper hL
    refine ⟨m', M', ?_, hM⟩
    rw [Program.forM_cons, Program.run_bind_some hrun₁, hrun]

/-- `copy_dir_recursive`, to a depth that suffices, makes a copy. -/
theorem copyDirRecursive_run {n : Nat} (ht : Tree m.fs) (hp : IsDirectory m.fs.disk p)
    (hq : IsDirectory m.fs.disk q) (hsrc : Source m.fs p q n e) (h2 : e.fileType = 2)
    (hself : p = q → name ≠ e.name) (hname : name.length < 256)
    (hz : Program.Always answer CopyOk (copyDirRecursive (n + 1) p e.name q name) m) :
    Copies (copyDirRecursive (n + 1) p e.name q name) q e name m := by
  induction n generalizing m p q e name with
  | zero =>
    apply copies_dir ht hp hq hsrc h2 hself hname hz
    intro m₁ t hadd _
    have hm := List.mem_of_find?_eq_some hsrc.first
    have hd := (ht.sound.noDangling.isDir_iff hp hm).mpr h2
    have hnone : proper m.fs.disk e.inode = [] := by
      apply List.eq_nil_iff_forall_not_mem.mpr
      intro a ha
      obtain ⟨ha', hPa⟩ := mem_proper.mp ha
      exact hsrc.tall a.inode ⟨hd, a, by rwa [graphOf_links], hPa, rfl⟩
    rw [hnone]
    exact ⟨_, [], Program.run_pure _ _, CopiesOf.nil (hadd.tree.withStack _) t⟩
  | succ n ih =>
    apply copies_dir ht hp hq hsrc h2 hself hname hz
    intro m₁ t hadd hz₁
    have hm := List.mem_of_find?_eq_some hsrc.first
    have hd := (ht.sound.noDangling.isDir_iff hp hm).mpr h2
    have hg := hadd.grafted
    rw [ioRequest_parent hq.isInode, enter_disk] at hg
    have hd₁ := hg.isDirectory hd
    have het : e.inode ≠ t := fun he => hg.not_mem hd.used he
    obtain ⟨htd, -⟩ := hadd.dir rfl
    exact @copyEntries_run m₁.enter.enter.enter e.inode t n _
      (fun ht' hs' htd' ha hsa h2' hz' => ih ht' hs' htd' hsa h2' (fun he => absurd he het)
        (by omega)
        hz')
      (enter_tree (enter_tree (enter_tree hadd.tree))) hd₁ htd het
      (fun a ha => hsrc.child ht hd hg ha) hz₁

end Loop

/-! ## The command `cp` -/

/-- The inode that the listing of directory `p` gives for the name passes for a directory. -/
def PassesForDirectory (m : Machine) (p : Nat) (name : List UInt8) : Prop :=
  (Program.run answer (getInodeByName p name >>= testDirectory) m).1 = some true

/-- When `cp` copies file `e` as it is. -/
structure FileCopies (m : Machine) (p : Nat) (e : Entry) (name : List UInt8) : Prop where
  tested : ¬ PassesForDirectory m p e.name
  short : name.length < 256
  size : iSize (slot m.fs.disk e.inode) = 8192
  whole : SameFile m.fs m.fs e.inode e.inode
  room : HasRoom (ioRequest p name (fun _ => 0) 8192 false) m.fs.disk

/-- What `cp -r` needs of a directory. -/
structure DirCopies (m : Machine) (e : Entry) (argv : List (List UInt8)) : Prop where
  recursive : isRecursive argv = true ∧ 4 ≤ argv.length
  proper : Proper e
  allowed : e.inode ≠ 2
  other : destination argv ≠ e.name
  short : (destination argv).length < 256
  copyable : Copyable m.fs e.inode

section Command

variable {m m' : Machine} {p q s i k depth : Nat} {e : Entry} {name destName : List UInt8}
  {argv : List (List UInt8)} {ok : Op → Machine → Prop}

theorem run_testDirectory : Program.run answer (testDirectory i) m =
    (some (decide ((readDirectory (testRequest i (m.user 0)) m.next.enter.fs).1 = 0)),
      m.next.enter) := by
  unfold testDirectory
  rw [run_scratch_bind, run_syscall_bind, Program.run_pure]
  rfl

/-- A directory of one block passes the test. -/
theorem test_one (ht : Tree m.fs) (hp : IsDirectory m.fs.disk p)
    (h1 : iBlocks (slot m.fs.disk p) = 1) :
    Program.run answer (testDirectory p) m = (some true, m.next.enter) := by
  have hparent : (testRequest p (m.user 0)).parentInode.toNat = p :=
    listRequest_parent hp.isInode fun _ => 0
  have ht' : Tree m.next.enter.fs := ht.withStack _
  obtain ⟨-, -, hb0, -⟩ := ht'.first_block hp
  have hfirst : firstNamed (testRequest p (m.user 0)) m.next.enter.fs.disk
      (testRequest p (m.user 0)).parentInode.toNat = some ⟨[46], p, 2⟩ := by
    rw [hparent]
    exact ht'.shaped.firstNamed_dot hp rfl
  have hread := LossOs.Ext2.readDirectory_eq ht'.consistent (by rw [hparent]; exact hp) hfirst rfl
    hp.isInode
  have hsize : iSize (slot m.next.enter.fs.disk p) = 512 := by
    rw [ht'.shaped.size p hp]
    exact congrArg (512 * ·) h1
  rw [run_testDirectory, hread, if_neg, if_neg hb0, if_neg]
  · rfl
  · dsimp only
    rw [hsize]
    show ¬ (512 : UInt32).toNat < 512
    decide
  · dsimp only [enter_disk, next_fs]
    omega

theorem test_always (hp : IsInode p) (hz : Program.Always answer CopyOk (testDirectory p) m) :
    iBlocks (slot m.fs.disk p) = 1 := by
  unfold testDirectory at hz
  rw [show scratch = syscall Op.scratch from rfl, always_syscall_bind] at hz
  obtain ⟨-, hz⟩ := hz
  dsimp only at hz
  rw [always_syscall_bind] at hz
  have h1 : iBlocks (slot m.fs.disk (listRequest p fun _ => 0).parentInode.toNat) = 1 := hz.1
  rwa [listRequest_parent hp] at h1

/-- When `cp` reports success, it has copied what the test says that the source is. -/
theorem cp_success (ht : Tree m.fs) (hp : IsDirectory m.fs.disk p)
    (hz : Program.Always answer ok (cp depth p argv) m)
    (hrun : Program.run answer (cp depth p argv) m = (some true, m')) :
    (PassesForDirectory m p (source argv) ∧
      Program.run answer (copyDirRecursive depth p (source argv) p (destination argv))
        m.enter.next.enter = (some 0, m') ∧
      Program.Always answer ok (copyDirRecursive depth p (source argv) p (destination argv))
        m.enter.next.enter) ∨
    (¬ PassesForDirectory m p (source argv) ∧
      Program.run answer (copyFile p (source argv) p (destination argv)) m.enter.next.enter =
        (some 0, m') ∧
      Program.Always answer ok
        (copyFile p (source argv) p (destination argv)) m.enter.next.enter) := by
  obtain ⟨i, hget⟩ : ∃ i, Program.run answer (getInodeByName p (source argv)) m =
      (some i, m.enter) := ⟨_, getInodeByName_eq ht hp⟩
  obtain ⟨b, htest⟩ : ∃ b, Program.run answer (testDirectory i) m.enter =
      (some b, m.enter.next.enter) := ⟨_, run_testDirectory⟩
  have hpass : PassesForDirectory m p (source argv) ↔ b = true := by
    unfold PassesForDirectory
    rw [Program.run_bind_some hget, htest, Option.some.injEq]
  unfold cp at hz hrun
  obtain ⟨h3, hrun⟩ := Program.run_exit_inv (by decide) hrun
  obtain ⟨h4, hrun⟩ := Program.run_exit_inv (by decide) hrun
  rw [Program.run_bind_some hget] at hrun
  obtain ⟨h0, hrun⟩ := Program.run_exit_inv (by decide) hrun
  obtain ⟨h2, hrun⟩ := Program.run_exit_inv (by decide) hrun
  rw [Program.run_bind_some htest] at hrun
  obtain ⟨hrec, hrun⟩ := Program.run_exit_inv (by decide) hrun
  rw [if_neg h3, if_neg h4, Program.always_bind] at hz
  obtain ⟨-, hz⟩ := hz
  replace hz := hz _ _ hget
  rw [if_neg h0, if_neg h2, Program.always_bind] at hz
  obtain ⟨-, hz⟩ := hz
  replace hz := hz _ _ htest
  rw [if_neg hrec] at hz
  -- success is a 0 from the copy
  have hlast : ∀ copy : Program Op Op.Reply Int, Program.run answer
      (copy >>= fun copyResult => pure (decide (copyResult = 0))) m.enter.next.enter =
        (some true, m') → Program.run answer copy m.enter.next.enter = (some 0, m') := by
    intro copy h
    obtain ⟨code, m₁, hcopy, h⟩ := Program.run_bind_inv h
    rw [Program.run_pure] at h
    obtain ⟨hcode, rfl⟩ := Prod.mk.inj h
    rw [hcopy, of_decide_eq_true (Option.some.inj hcode)]
  by_cases hb : b = true
  · rw [if_pos hb] at hz hrun
    rw [Program.always_bind] at hz
    exact Or.inl ⟨hpass.mpr hb, hlast _ hrun, hz.1⟩
  · rw [if_neg hb] at hz hrun
    rw [Program.always_bind] at hz
    exact Or.inr ⟨fun h => hb (hpass.mp h), hlast _ hrun, hz.1⟩

/-- Careful calls of `write` leave directories behind. -/
theorem answer_isDirectory {c : Op} (ht : Tree m.fs) (hok : CarefulWrites c m) :
    Tree (answer c m).2.fs ∧ ∀ j, IsDirectory m.fs.disk j →
      IsDirectory (answer c m).2.fs.disk j := by
  cases c with
  | scratch => exact ⟨ht, fun _ hd => hd⟩
  | read request => exact ⟨enter_tree ht, fun _ hd => hd⟩
  | readDirectory request => exact ⟨enter_tree ht, fun _ hd => hd⟩
  | delete request => exact hok.elim
  | write request =>
    rcases answer_write ht hok with ⟨code, m₁, -, hans, ht₁, hq⟩ | ⟨m₁, i, hans, -, -, -, hadd⟩
    · rw [hans]
      exact ⟨ht₁, fun j hd => (hq.grafted (enter_tree ht).consistent 0).isDirectory hd⟩
    · rw [hans]
      exact ⟨hadd.tree, fun j hd => hadd.grafted.isDirectory hd⟩

/-- When `copy_dir_recursive` returns 0, it has made a directory. -/
theorem copyDirRecursive_makes (ht : Tree m.fs)
    (hz : Program.Always answer CarefulWrites (copyDirRecursive depth p name q destName) m)
    (hrun : Program.run answer (copyDirRecursive depth p name q destName) m = (some 0, m')) :
    ∃ i, inodeUsed m.fs.disk i = false ∧ IsDirectory m'.fs.disk i := by
  cases depth with
  | zero =>
    rw [copyDirRecursive, Program.run_stuck] at hrun
    cases (Prod.mk.inj hrun).1
  | succ k =>
    rw [copyDirRecursive, always_syscall_bind] at hz
    obtain ⟨hok, hz⟩ := hz
    rw [copyDirRecursive, run_syscall_bind] at hrun
    rcases answer_write ht hok with ⟨code, m₁, hne, hans, -⟩ | ⟨m₁, i, hans, -, -, -, hadd⟩
    · rw [hans] at hrun
      dsimp only at hrun
      rw [if_pos hne, Program.run_pure] at hrun
      cases (Prod.mk.inj hrun).1
    · obtain ⟨-, hu⟩ := hadd.grafted.fresh i rfl
      refine ⟨i, hu, ?_⟩
      rw [hans] at hz hrun
      dsimp only at hz hrun
      rw [if_neg (not_not.mpr rfl)] at hz hrun
      have hinv := Program.Always.invariant (I := fun m => Tree m.fs ∧ IsDirectory m.fs.disk i) hz
        (fun c m hm hc => ⟨(answer_isDirectory hm.1 hc).1, (answer_isDirectory hm.1 hc).2 i hm.2⟩)
        ⟨hadd.tree, (hadd.dir rfl).1⟩
      rw [hrun] at hinv
      exact hinv.2

/-- The lookup lists the directory. -/
theorem getInodeByName_lists (h : ok (.readDirectory (listRequest p fun _ => 0)) m) :
    Program.Always answer ok (getInodeByName p name) m := by
  unfold getInodeByName
  rw [always_syscall_bind]
  refine ⟨h, ?_⟩
  dsimp only
  split
  · exact Program.always_pure _ _
  · exact Program.always_pure _ _

theorem testDirectory_lists (h : ok .scratch m)
    (hread : ok (.readDirectory (testRequest i (m.user 0))) m.next) :
    Program.Always answer ok (testDirectory i) m := by
  unfold testDirectory
  rw [show scratch = syscall Op.scratch from rfl, always_syscall_bind]
  refine ⟨h, ?_⟩
  show Program.Always answer ok (syscall (.readDirectory (testRequest i (m.user 0))) >>= _) m.next
  rw [always_syscall_bind]
  exact ⟨hread, Program.always_pure _ _⟩

theorem getInodeByName_quiet (hread : ∀ m request, ok (.readDirectory request) m) :
    Program.Always answer ok (getInodeByName p name) m := getInodeByName_lists (hread _ _)

theorem testDirectory_quiet
    (hread : ∀ m, ok .scratch m ∧ ∀ request, ok (.readDirectory request) m) :
    Program.Always answer ok (testDirectory i) m :=
  testDirectory_lists (hread _).1 ((hread _).2 _)

/-- A file does not pass it. -/
theorem test_file (ht : Tree m.fs) (hi : IsInode i) (hd : isDir m.fs.disk i = false) :
    Program.run answer (testDirectory i) m = (some false, m.next.enter) := by
  have hparent : (testRequest i (m.user 0)).parentInode.toNat = i :=
    listRequest_parent hi fun _ => 0
  have ht' : Tree m.next.enter.fs := ht.withStack _
  rw [run_testDirectory, readDirectory_not_dir ht'.consistent (by rw [hparent]; exact hi)
    (by rw [hparent]; exact hd)]
  rfl

theorem file_entry {fs : Fs} (ht : Tree fs) (hp : IsDirectory fs.disk p)
    (hm : e ∈ entries fs.disk p) (h1 : e.fileType = 1) :
    IsInode e.inode ∧ isDir fs.disk e.inode = false := by
  obtain ⟨hi, -, hmode⟩ := ht.sound.noDangling.entry p hp e hm
  rcases hmode with ⟨-, hmode⟩ | ⟨h2, -⟩
  · exact ⟨hi, isDir_of_file hmode⟩
  · omega

theorem file_not_passes (ht : Tree m.fs) (hp : IsDirectory m.fs.disk p)
    (hfirst : (entries m.fs.disk p).find? (fun a => a.name == e.name) = some e)
    (hone : iBlocks (slot m.fs.disk p) = 1) (h1 : e.fileType = 1) :
    ¬ PassesForDirectory m p e.name := by
  obtain ⟨hi, hd⟩ := file_entry ht hp (List.mem_of_find?_eq_some hfirst) h1
  unfold PassesForDirectory
  rw [Program.run_bind_some (getInodeByName_one ht hp hone hfirst),
    @test_file m.enter e.inode (enter_tree ht) hi hd]
  exact show some false ≠ some true by decide

/-- `cp` of a file that it finds comes to `copy_file`. -/
theorem cp_file (ht : Tree m.fs) (hp : IsDirectory m.fs.disk p)
    (hfirst : (entries m.fs.disk p).find? (fun a => a.name == e.name) = some e)
    (hone : iBlocks (slot m.fs.disk p) = 1) (h1 : e.fileType = 1) (hne : e.inode ≠ 2)
    (hargs : argv.length = 3) (hrec : isRecursive argv = false) (hsrc : source argv = e.name)
    (hread : ∀ m, ok .scratch m ∧ ∀ request, ok (.readDirectory request) m) :
    (Program.run answer (copyFile p e.name p (destination argv)) m.enter.next.enter = (some 0, m') →
      Program.run answer (cp depth p argv) m = (some true, m')) ∧
    (Program.Always answer ok (copyFile p e.name p (destination argv)) m.enter.next.enter →
      Program.Always answer ok (cp depth p argv) m) := by
  obtain ⟨hi, hd⟩ := file_entry ht hp (List.mem_of_find?_eq_some hfirst) h1
  have h0 : e.inode ≠ 0 := by have := hi.1; omega
  have hget := getInodeByName_one ht hp hone hfirst
  have htest := @test_file m.enter e.inode (enter_tree ht) hi hd
  unfold cp
  rw [if_neg (by omega), if_neg (by rw [hrec]; simp), hsrc]
  constructor
  · intro hrun
    rw [Program.run_bind_some hget, if_neg h0, if_neg hne, Program.run_bind_some htest,
      if_neg (fun h => absurd h.1 (by decide)), if_neg (by decide), Program.run_bind_some hrun,
        Program.run_pure]
    rfl
  · intro hz
    refine (Program.always_bind_some hget).mpr ⟨getInodeByName_quiet fun m => (hread m).2, ?_⟩
    rw [if_neg h0, if_neg hne]
    refine (Program.always_bind_some htest).mpr ⟨testDirectory_quiet hread, ?_⟩
    rw [if_neg (fun h => absurd h.1 (by decide)), if_neg (by decide)]
    exact Program.always_bind.mpr ⟨hz, fun _ _ _ => Program.always_pure _ _⟩

/-- `cp -r` of a directory comes to `copy_dir_recursive`. -/
theorem cp_dir (ht : Tree m.fs) (hp : IsDirectory m.fs.disk p)
    (hfirst : (entries m.fs.disk p).find? (fun a => a.name == e.name) = some e)
    (hsrc : source argv = e.name) (h2 : e.fileType = 2) (hd : DirCopies m e argv)
    (hz : Program.Always answer CopyOk (cp depth p argv) m) :
    Program.Always answer CopyOk (copyDirRecursive depth p e.name p (destination argv))
        m.enter.next.enter ∧
      ∀ m', Program.run answer (copyDirRecursive depth p e.name p (destination argv))
          m.enter.next.enter = (some 0, m') →
        Program.run answer (cp depth p argv) m = (some true, m') := by
  have hm := List.mem_of_find?_eq_some hfirst
  have hdir : IsDirectory m.fs.disk e.inode := (ht.sound.noDangling.isDir_iff hp hm).mpr h2
  have h0 : e.inode ≠ 0 := by have := hdir.isInode.1; omega
  obtain ⟨hrec, h4⟩ := hd.recursive
  have h3 : ¬ argv.length < 3 := by omega
  have h4' : ¬ (isRecursive argv = true ∧ argv.length < 4) := by omega
  unfold cp at hz ⊢
  rw [if_neg h3, if_neg h4', hsrc, Program.always_bind] at hz
  obtain ⟨hz₁, hz⟩ := hz
  have hget := getInodeByName_one ht hp (getInodeByName_always hp.isInode hz₁) hfirst
  replace hz := hz _ _ hget
  rw [if_neg h0, if_neg hd.allowed, Program.always_bind] at hz
  obtain ⟨hz₂, hz⟩ := hz
  have htest := @test_one m.enter e.inode (enter_tree ht) hdir (test_always hdir.isInode hz₂)
  replace hz := hz _ _ htest
  rw [if_neg (by rw [hrec]; decide), if_pos rfl, Program.always_bind] at hz
  refine ⟨hz.1, fun m' hrun => ?_⟩
  rw [if_neg h3, if_neg h4', hsrc, Program.run_bind_some hget, if_neg h0, if_neg hd.allowed,
    Program.run_bind_some htest, if_neg (by rw [hrec]; decide), if_pos rfl,
    Program.run_bind_some hrun, Program.run_pure]
  rfl

end Command

/-! ## What copies are like -/

/-- Only directories and files of 8192 bytes are written, and they get names of fewer than 255 bytes
    and no zeros, except in directory `p`. -/
def PlainWrites (p : Nat) : Op → Machine → Prop
  | .write request, _ => (isDirRequest request = true ∨ request.bufferSize = 8192) ∧
      (request.parentInode = UInt32.ofNat p ∨
        (requestName request).length < 255 ∧ 0 ∉ requestName request)
  | _, _ => True

/-- The inodes taken since `fs₀` are directories with such names, and files of such a size. -/
structure PlainSince (fs₀ fs : Fs) : Prop where
  tree : Tree fs
  kept : ∀ j, IsInode j → inodeUsed fs₀.disk j = true → inodeUsed fs.disk j = true
  names : ∀ j, inodeUsed fs₀.disk j = false → IsDirectory fs.disk j →
    ∀ a ∈ proper fs.disk j, a.name.length < 255 ∧ 0 ∉ a.name
  files : ∀ j, IsInode j → inodeUsed fs₀.disk j = false → inodeUsed fs.disk j = true →
    ¬ IsDirectory fs.disk j → iSize (slot fs.disk j) = 8192

section Plain

variable {m m' : Machine} {fs fs₀ fs' : Fs} {p q s depth : Nat} {e : Entry}
  {name srcName : List UInt8}

theorem cString_short (h : name.length < 255) : (cString name).length < 255 ∧ 0 ∉ cString name := by
  refine ⟨(List.takeWhile_prefix _).length_le.trans_lt h, fun h0 => ?_⟩
  have := List.mem_takeWhile_imp h0
  simp at this

theorem plain_io {buf : Mem} {n : UInt32} {dir : Bool} (h : q = p ∨ name.length < 255 ∧ 0 ∉ name) :
    (ioRequest q name buf n dir).parentInode = UInt32.ofNat p ∨
      (requestName (ioRequest q name buf n dir)).length < 255 ∧
        0 ∉ requestName (ioRequest q name buf n dir) := by
  rcases h with rfl | h
  · exact Or.inl rfl
  · rw [ioRequest_name (by omega)]
    exact Or.inr h

theorem copyFile_plain (h : q = p ∨ name.length < 255 ∧ 0 ∉ name) :
    Program.Always answer (PlainWrites p) (copyFile s srcName q name) m := by
  unfold copyFile
  rw [show scratch = syscall Op.scratch from rfl, always_syscall_bind]
  refine ⟨trivial, ?_⟩
  rw [always_syscall_bind]
  refine ⟨trivial, ?_⟩
  dsimp only
  split
  · exact Program.always_pure _ _
  · exact writeCopy_always.mpr ⟨Or.inr rfl, plain_io h⟩

theorem copyDirRecursive_plain (h : q = p ∨ name.length < 255 ∧ 0 ∉ name) :
    Program.Always answer (PlainWrites p) (copyDirRecursive depth s srcName q name) m := by
  induction depth generalizing m s srcName q name with
  | zero => exact Program.always_stuck _
  | succ k ih =>
    rw [copyDirRecursive, always_syscall_bind]
    refine ⟨⟨Or.inl rfl, plain_io h⟩, ?_⟩
    split
    · exact Program.always_pure _ _
    refine Program.always_bind.mpr ⟨getInodeByName_quiet fun _ _ => trivial, fun i m₁ _ => ?_⟩
    split
    · exact Program.always_pure _ _
    refine Program.always_bind.mpr ⟨getInodeByName_quiet fun _ _ => trivial, fun t m₂ _ => ?_⟩
    split
    · exact Program.always_pure _ _
    rw [always_syscall_bind]
    refine ⟨trivial, ?_⟩
    dsimp only
    split
    · exact Program.always_pure _ _
    refine Program.always_bind.mpr ⟨Program.always_forM (fun a ha m₃ => ?_) _,
      fun _ _ _ => Program.always_pure _ _⟩
    -- the names that are copied are short
    have hlen : a.name.length < 255 := (of_decide_eq_true (List.mem_filter.mp ha).2).2.2
    have hshort := cString_short hlen
    unfold copyEntry
    dsimp only
    split
    · exact Program.always_bind.mpr ⟨ih (Or.inr hshort), fun _ _ _ => Program.always_pure _ _⟩
    split
    · exact Program.always_bind.mpr
        ⟨copyFile_plain (Or.inr hshort), fun _ _ _ => Program.always_pure _ _⟩
    · exact Program.always_pure _ _

theorem cp_plain {argv : List (List UInt8)} :
    Program.Always answer (PlainWrites p) (cp depth p argv) m := by
  unfold cp
  split
  · exact Program.always_pure _ _
  split
  · exact Program.always_pure _ _
  refine Program.always_bind.mpr ⟨getInodeByName_quiet fun _ _ => trivial, fun i m₁ _ => ?_⟩
  split
  · exact Program.always_pure _ _
  split
  · exact Program.always_pure _ _
  refine Program.always_bind.mpr
    ⟨testDirectory_quiet fun _ => ⟨trivial, fun _ => trivial⟩, fun b m₂ _ => ?_⟩
  split
  · exact Program.always_pure _ _
  split
  · exact Program.always_bind.mpr
      ⟨copyDirRecursive_plain (Or.inl rfl), fun _ _ _ => Program.always_pure _ _⟩
  · exact Program.always_bind.mpr
      ⟨copyFile_plain (Or.inl rfl), fun _ _ _ => Program.always_pure _ _⟩

/-- A `write` of a copy keeps to this. -/
theorem PlainSince.added {request : EXT2DriverRequest} {i : Nat} (h : PlainSince fs₀ fs)
    (hadd : Added request fs fs' i) (hq : IsDirectory fs.disk request.parentInode.toNat)
    (hp : inodeUsed fs₀.disk request.parentInode.toNat = false →
      (requestName request).length < 255 ∧ 0 ∉ requestName request)
    (hsize : isDirRequest request = true ∨ request.bufferSize = 8192) : PlainSince fs₀ fs' := by
  have hg := hadd.grafted
  have hused : ∀ j, IsInode j → inodeUsed fs'.disk j = true → j ≠ i →
      j = request.parentInode.toNat ∨ inodeUsed fs.disk j = true ∧ Intact fs.disk fs'.disk j := by
    intro j hj hu hji
    rcases (hg.used j hj).mp hu with hu' | hji'
    · by_cases hjq : j = request.parentInode.toNat
      · exact Or.inl hjq
      · exact Or.inr ⟨hu', hg.kept j hj hu' hjq⟩
    · exact absurd hji' hji
  refine ⟨hadd.tree, fun j hj hu => (hg.used j hj).mpr (Or.inl (h.kept j hj hu)),
    fun j hu hd a ha => ?_, fun j hj hu hu' hnd => ?_⟩
  · by_cases hji : j = i
    · subst hji
      cases hreg : isDirRequest request with
      | true =>
        rw [(hadd.dir hreg).2] at ha
        cases ha
      | false =>
        obtain ⟨ni, L, X, hbuilt, hslot⟩ := hadd.file hreg
        have hdir := hd.dir
        rw [isDir_of_file (hbuilt.node hreg hslot).2] at hdir
        cases hdir
    · rcases hused j hd.isInode hd.used hji with rfl | ⟨hu', hk⟩
      · obtain ⟨A, B, h1, h2, -⟩ := hadd.entries
        obtain ⟨ha, hP⟩ := mem_proper.mp ha
        rw [h2, List.mem_append, List.mem_cons] at ha
        rcases ha with ha | rfl | ha
        · refine h.names _ hu hq a (mem_proper.mpr ⟨?_, hP⟩)
          rw [h1]
          exact List.mem_append_left _ ha
        · exact hp hu
        · refine h.names _ hu hq a (mem_proper.mpr ⟨?_, hP⟩)
          rw [h1]
          exact List.mem_append_right _ ha
      · have hd' := hk.isDirectory_iff.mp hd
        unfold proper at ha
        rw [hk.entries_eq hd'] at ha
        exact h.names j hu hd' a ha
  · by_cases hji : j = i
    · subst hji
      cases hreg : isDirRequest request with
      | true => exact absurd (hadd.dir hreg).1 hnd
      | false =>
        obtain ⟨ni, L, X, hbuilt, hslot⟩ := hadd.file hreg
        rcases hsize with hdir | hsize
        · rw [hreg] at hdir
          cases hdir
        · rw [(hbuilt.node hreg hslot).1, hsize]
          rfl
    · rcases hused j hj hu' hji with rfl | ⟨hu'', hk⟩
      · exact absurd (hg.isDirectory hq) hnd
      · rw [hk.node]
        exact h.files j hj hu hu'' fun hd => hnd (hk.isDirectory_iff.mpr hd)

theorem PlainSince.refl (ht : Tree fs) : PlainSince fs fs := by
  refine ⟨ht, fun _ _ hu => hu, fun j hu hd => ?_, fun j _ hu hu' => ?_⟩
  · rw [hd.used] at hu
    cases hu
  · rw [hu] at hu'
    cases hu'

theorem PlainSince.quiet (h : PlainSince fs₀ fs) (hq : Quiet fs fs') (ht : Tree fs') :
    PlainSince fs₀ fs' := by
  have hk : ∀ j, IsInode j → inodeUsed fs'.disk j = true → Intact fs.disk fs'.disk j := by
    intro j hj hu
    refine (hq.grafted h.tree.consistent 0).kept j hj ?_ (by have := hj.1; omega)
    rwa [← hq.inodes j hj]
  refine ⟨ht, fun j hj hu => ?_, fun j hu hd a ha => ?_, fun j hj hu hu' hnd => ?_⟩
  · rw [hq.inodes j hj]
    exact h.kept j hj hu
  · have hkj := hk j hd.isInode hd.used
    have hd' := hkj.isDirectory_iff.mp hd
    unfold proper at ha
    rw [hkj.entries_eq hd'] at ha
    exact h.names j hu hd' a ha
  · have hkj := hk j hj hu'
    rw [hkj.node]
    exact h.files j hj hu (by rw [← hq.inodes j hj]; exact hu')
      fun hd => hnd (hkj.isDirectory_iff.mpr hd)

theorem PlainSince.withStack (h : PlainSince fs₀ fs) (stack : Mem) :
    PlainSince fs₀ (fs.withStack stack) :=
  ⟨h.tree.withStack stack, h.kept, h.names, h.files⟩

/-- The calls of a copy keep to this. -/
theorem answer_plain {c : Op} (h : PlainSince fs₀ m.fs) (hp : IsDirectory fs₀.disk p)
    (hok : CarefulWrites c m) (hplain : PlainWrites p c m) :
    PlainSince fs₀ (answer c m).2.fs := by
  cases c with
  | scratch => exact h
  | read request => exact h.withStack _
  | readDirectory request => exact h.withStack _
  | delete request => exact hok.elim
  | write request =>
    obtain ⟨hsize, hname⟩ := hplain
    rcases answer_write h.tree hok with ⟨code, m₁, -, hans, ht₁, hq⟩ |
      ⟨m₁, i, hans, hqd, -, -, hadd⟩
    · rw [hans]
      exact (h.withStack _).quiet hq ht₁
    · rw [hans]
      refine (h.withStack _).added hadd hqd (fun hu => ?_) hsize
      rcases hname with hpar | hname
      · have hsame : request.parentInode.toNat = p := by
          rw [hpar]
          exact listRequest_parent hp.isInode fun _ => 0
        rw [hsame, hp.used] at hu
        cases hu
      · exact hname

/-- What was copied is plain. -/
theorem CopyOf.plain (h : CopyOf fs fs' q e name) (hs : PlainSince fs fs') :
    Plain fs e.inode := by
  obtain ⟨t, A, B, -, -, -, htree, hg⟩ := h
  have hpaths : ∀ j, Under fs.disk e.inode j → ∃ path, LinkGraph.Leads Entry.inode Proper
      (fun e => (e.name, e.fileType)) (graphOf fs.disk) path e.inode j := fun j hj =>
    LinkGraph.exists_leads hj
  -- what a path leads to was taken since
  have hnew : ∀ {path j'}, LinkGraph.Leads Entry.inode Proper (fun e => (e.name, e.fileType))
      (graphOf fs'.disk) path t j' → IsInode j' ∧ inodeUsed fs.disk j' = false ∧
        inodeUsed fs'.disk j' = true := by
    intro path j' hj'
    obtain ⟨hi, hu⟩ := hg.fresh j' hj'.below
    exact ⟨hi, hu, (hg.used j' hi).mpr (Or.inr hj'.below)⟩
  refine ⟨fun j hj hd a ha => ?_, fun j hj hnd => ?_⟩
  · obtain ⟨path, hpath⟩ := hpaths j hj
    obtain ⟨ha, hP⟩ := mem_proper.mp ha
    have hlink : LinkGraph.Leads Entry.inode Proper (fun e => (e.name, e.fileType))
        (graphOf fs.disk) [(a.name, a.fileType)] j a.inode :=
      LinkGraph.leads_link hd (by rwa [graphOf_links]) hP
    obtain ⟨k', hk', -⟩ := htree.there _ _ (LinkGraph.leads_append.mpr ⟨j, hpath, hlink⟩)
    obtain ⟨j', hj', hd', b, hb, hPb, hkey, -⟩ := LinkGraph.leads_append.mp hk'
    obtain ⟨hi, hu, hu'⟩ := hnew hj'
    rw [graphOf_links] at hb
    have hname : b.name = a.name := congrArg Prod.fst hkey
    rw [← hname]
    exact hs.names j' hu hd' b (mem_proper.mpr ⟨hb, hPb⟩)
  · obtain ⟨path, hpath⟩ := hpaths j hj
    obtain ⟨j', hj', hsame⟩ := htree.there path j hpath
    obtain ⟨hi, hu, hu'⟩ := hnew hj'
    cases hsame with
    | dir hd => exact absurd hd hnd
    | file hf =>
      refine ⟨hf.size.symm.trans (hs.files j' hi hu hu' hf.not_directory.2), hf.mode, hf.mode, rfl,
        fun out out' k hk => ?_⟩
      rw [← hf.bytes out' (fun _ => 0) k hk, hf.bytes out (fun _ => 0) k hk]

end Plain

/-! ## A file `a` in the root directory -/

section Page

variable {m : Machine} {n : UInt32}

theorem page_lookup {fs : Fs} (h : RootBlock fs pageRecords [3, 2, 1] 217) :
    (entries fs.disk 1).find? (fun a => a.name == [97]) = some ⟨[97], 3, 1⟩ := by
  rw [h.entries_eq]
  decide

theorem needed_io (p : Nat) (name : List UInt8) (buf : Mem) :
    needed (ioRequest p name buf 8192 false) = 17 := by
  have hreg : isDirRequest (ioRequest p name buf 8192 false) = false := rfl
  have hcount : exactBlocks (ioRequest p name buf 8192 false) = 16 := by
    show ((8192 : UInt32).toNat + 511) / 512 = 16
    decide
  unfold needed
  rw [hreg, hcount]
  rfl

/-- `copy_file` copies it to `b`. -/
theorem page_copy (h : RootBlock m.fs pageRecords [3, 2, 1] 217)
    (hsize : iSize (slot m.fs.disk 3) ≤ 8192) :
    HasRoom (ioRequest 1 [98] (fun _ => 0) 8192 false) m.fs.disk ∧
    Program.Always answer CarefulWrites (copyFile 1 [97] 1 [98]) m ∧
    ∃ m', Program.run answer (copyFile 1 [97] 1 [98]) m = (some 0, m') ∧
      RootBlock m'.fs [⟨0, 1, 12, [46], 2⟩, ⟨12, 1, 12, [46, 46], 2⟩, ⟨24, 2, 12, [120], 1⟩,
        ⟨36, 3, 12, [97], 1⟩, ⟨48, 4, 464, [98], 1⟩] [4, 3, 2, 1] 200 := by
  obtain ⟨-, hsmall⟩ := @copyFile_read m 1 1 ⟨[97], 3, 1⟩ [98] CarefulWrites h.tree h.root
    (page_lookup h) rfl
  obtain ⟨hrun, halways⟩ := hsmall hsize
  dsimp only at hrun halways
  generalize fileBytes m 3 = buf at hrun halways
  have h₂ : RootBlock m.next.enter.enter.fs ([⟨0, 1, 12, [46], 2⟩, ⟨12, 1, 12, [46, 46], 2⟩,
    ⟨24, 2, 12, [120], 1⟩] ++ [⟨36, 3, 476, [97], 1⟩]) [3, 2, 1] 217 :=
    (h.withStack _).withStack _
  obtain ⟨⟨hok, -, hroom⟩, h0, -, -, h₃⟩ := h₂.write (ioRequest 1 [98] buf 8192 false) _ 4 rfl
    (show ∀ q ∈ [⟨0, 1, 12, [46], 2⟩, ⟨12, 1, 12, [46, 46], 2⟩, ⟨24, 2, 12, [120], 1⟩],
      Rec.named (fileRequest 98) q = false ∧ Rec.roomy (fileRequest 98) q = false by decide)
    (show Rec.named (fileRequest 98) ⟨36, 3, 476, [97], 1⟩ = false ∧
      Rec.roomy (fileRequest 98) ⟨36, 3, 476, [97], 1⟩ = true by decide)
    (by decide) (by decide) (mem_of_lt (by decide)) (by decide) (by rw [needed_io]; decide)
  refine ⟨(hasRoom_io _).mp hroom, ?_, ?_⟩
  · rw [halways, writeCopy_always]
    exact ⟨trivial, trivial, hok⟩
  · refine ⟨{ m.next.enter.enter with
      fs := (write (ioRequest 1 [98] buf 8192 false) m.next.enter.enter.fs).2 }, ?_, ?_⟩
    · rw [hrun]
      unfold writeCopy
      rw [run_syscall_bind, answer_write_eq, h0]
      dsimp only
      rw [if_neg (not_not.mpr rfl), Program.run_pure]
    · rw [needed_io] at h₃
      exact h₃

/-- `cp a b` reports success, and has made a copy if `a` has 8192 bytes. -/
theorem page_cp (h : RootBlock m.fs pageRecords [3, 2, 1] 217)
    (hsize : iSize (slot m.fs.disk 3) ≤ 8192) :
    Program.Always answer CarefulWrites (cp 0 1 [[99, 112], [97], [98]]) m ∧
    ∃ m', Program.run answer (cp 0 1 [[99, 112], [97], [98]]) m = (some true, m') ∧
      (CopyOf m.fs m'.fs 1 ⟨[97], 3, 1⟩ [98] → iSize (slot m.fs.disk 3) = 8192) := by
  obtain ⟨-, hz, m', hrun, -⟩ := @page_copy m.enter.next.enter ((h.withStack _).withStack _) hsize
  obtain ⟨hsuccess, halways⟩ := @cp_file m m' 1 0 ⟨[97], 3, 1⟩ [[99, 112], [97], [98]] CarefulWrites
    h.tree h.root (page_lookup h) h.iBlocks_eq rfl (by decide) rfl (by decide) rfl
    fun _ => ⟨trivial, fun _ => trivial⟩
  refine ⟨halways hz, m', hsuccess hrun, fun hcopy => ?_⟩
  have hlook := page_lookup h
  have hiff := @copyFile_copy_iff m.enter.next.enter m' 1 1 ⟨[97], 3, 1⟩ [98] CarefulWrites
    ((h.tree.withStack _).withStack _) h.root h.root hlook rfl (fun _ _ hc => hc) hz hrun
  exact (hiff.mp ((copyOf_withStack _).mpr ((copyOf_withStack _).mpr hcopy))).2.1

end Page

/-! ## An empty directory `d` in the root directory -/

section Hollow

variable {m : Machine} {k : Nat}

theorem copyable_hollow {fs : Fs} {i : Nat} (h : Hollow fs.disk i) (ht : Tree fs) :
    Copyable fs i := by
  refine ⟨⟨fun j hj _ a ha => ?_, fun j hj hnd => ?_⟩, fun j hj _ => ?_⟩ <;>
    obtain rfl := h.under hj
  · rw [h.empty] at ha
    cases ha
  · exact absurd h.dir hnd
  · obtain ⟨up, hup, heq⟩ := ht.entries_eq h.dir
    rw [heq, h.empty]
    show ([[46], up.name] : List (List UInt8)).Nodup
    rw [hup]
    decide

theorem hollow_lookup {fs : Fs} (h : RootBlock fs hollowRecords [3, 2, 1] 233) :
    (entries fs.disk 1).find? (fun a => a.name == [100]) = some ⟨[100], 3, 2⟩ := by
  rw [h.entries_eq]
  decide

theorem copyOk_hollow {i : Nat} (h : Hollow m.fs.disk i) :
    CopyOk (.readDirectory (listRequest i fun _ => 0)) m := by
  show iBlocks (slot m.fs.disk (listRequest i fun _ => 0).parentInode.toNat) = 1
  rw [listRequest_parent h.dir.isInode]
  exact h.single

theorem copyOk_root {rs : List Rec} {used : List Nat} {room : Nat}
    (h : RootBlock m.fs rs used room) : CopyOk (.readDirectory (listRequest 1 fun _ => 0)) m :=
  h.iBlocks_eq

/-- `copy_dir_recursive` copies it to `c`. -/
theorem hollow_copy (h : RootBlock m.fs hollowRecords [3, 2, 1] 233) (hd : Hollow m.fs.disk 3) :
    Program.Always answer CopyOk (copyDirRecursive (k + 1) 1 [100] 1 [99]) m ∧
    ∃ m', Program.run answer (copyDirRecursive (k + 1) 1 [100] 1 [99]) m = (some 0, m') ∧
      RootBlock m'.fs [⟨0, 1, 12, [46], 2⟩, ⟨12, 1, 12, [46, 46], 2⟩, ⟨24, 2, 12, [120], 1⟩,
        ⟨36, 3, 12, [100], 2⟩, ⟨48, 4, 464, [99], 2⟩] [4, 3, 2, 1] 232 ∧ Hollow m'.fs.disk 3 := by
  have h₁ : RootBlock m.enter.fs _ _ _ := h.withStack _
  obtain ⟨hok, h0, hadd, -, hroot⟩ := h₁.write (ioRequest 1 [99] (fun _ => 0) 0 true)
    [⟨0, 1, 12, [46], 2⟩, ⟨12, 1, 12, [46, 46], 2⟩, ⟨24, 2, 12, [120], 1⟩] 4 rfl (by decide)
    (by decide) (by decide) (by decide) (mem_of_lt (by decide)) (by decide) (by decide)
  rw [show needed (ioRequest 1 [99] (fun _ => 0) 0 true) = 1 from rfl] at hroot
  have hkept := hd.kept (hadd.grafted.kept 3 hd.dir.isInode hd.dir.used (by decide))
  have hans : answer (.write (ioRequest 1 [99] (fun _ => 0) 0 true)) m =
      (0, (answer (.write (ioRequest 1 [99] (fun _ => 0) 0 true)) m).2) := by
    rw [answer_write_eq, h0]
  rw [← answer_write_fs] at hroot hkept
  rw [copyDirRecursive, always_syscall_bind, run_syscall_bind, hans]
  generalize (answer (.write (ioRequest 1 [99] (fun _ => 0) 0 true)) m).2 = m₁ at hroot hkept ⊢
  dsimp only
  rw [if_neg (not_not.mpr rfl)]
  -- both names are found
  have ht := hroot.tree
  have hsrc : Program.run answer (getInodeByName 1 [100]) m₁ = (some 3, m₁.enter) :=
    @getInodeByName_one m₁ 1 ⟨[100], 3, 2⟩ [100] ht hroot.root hroot.iBlocks_eq (by
      rw [hroot.entries_eq]
      decide)
  have hdst : Program.run answer (getInodeByName 1 [99]) m₁.enter = (some 4, m₁.enter.enter) :=
    @getInodeByName_one m₁.enter 1 ⟨[99], 4, 2⟩ [99] (enter_tree ht) hroot.root hroot.iBlocks_eq (by
      rw [enter_disk, hroot.entries_eq]
      decide)
  rw [Program.always_bind_some hsrc, Program.run_bind_some hsrc, if_neg (by decide),
    Program.always_bind_some hdst, Program.run_bind_some hdst, if_neg (by decide)]
  -- and nothing is listed
  have hlist := @answer_list m₁.enter.enter 3 (enter_tree (enter_tree ht)) hkept.dir fun _ => 0
  have hnone : copyEntries (listed m₁.enter.enter.enter.fs (fun _ => 0) 3) = [] := by
    rw [copyEntries_one (enter_tree (enter_tree (enter_tree ht))) hkept.dir hkept.single
      (fun a ha => by
        rw [show proper m₁.enter.enter.enter.fs.disk 3 = [] from hkept.empty] at ha
        cases ha)]
    exact hkept.empty
  rw [always_syscall_bind, run_syscall_bind, hlist]
  dsimp only
  rw [if_neg (by decide), hnone, Program.forM_nil, Program.run_bind_some (Program.run_pure _ _)]
  exact ⟨⟨⟨hok.1, hok.2.1, hok.2.2⟩, getInodeByName_lists (copyOk_root hroot),
    getInodeByName_lists (copyOk_root (m := m₁.enter) (hroot.withStack _)),
    copyOk_hollow (m := m₁.enter.enter) hkept, Program.always_pure _ _⟩,
    m₁.enter.enter.enter, Program.run_pure _ _, ((hroot.withStack _).withStack _).withStack _,
    hkept⟩

/-- `cp -r d c` copies it. -/
theorem hollow_cp (h : RootBlock m.fs hollowRecords [3, 2, 1] 233) (hd : Hollow m.fs.disk 3) :
    DirCopies m ⟨[100], 3, 2⟩ [[99, 112], [45, 114], [100], [99]] ∧
    Program.Always answer CopyOk (cp (k + 1) 1 [[99, 112], [45, 114], [100], [99]]) m := by
  refine ⟨⟨by decide, by decide, by decide, by decide, by decide, copyable_hollow hd h.tree⟩, ?_⟩
  have ht := h.tree
  have hget : Program.run answer (getInodeByName 1 [100]) m = (some 3, m.enter) :=
    getInodeByName_one ht h.root h.iBlocks_eq (hollow_lookup h)
  have htest := @test_one m.enter 3 (enter_tree ht) hd.dir hd.single
  obtain ⟨hcopy, -⟩ := @hollow_copy m.enter.next.enter k ((h.withStack _).withStack _) hd
  unfold cp
  rw [if_neg (by decide), if_neg (by decide),
    show source [[99, 112], [45, 114], [100], [99]] = [100] by decide,
    Program.always_bind_some hget, if_neg (by decide), if_neg (by decide),
    Program.always_bind_some htest, if_neg (by decide), if_pos rfl]
  exact ⟨getInodeByName_lists (copyOk_root h),
    testDirectory_lists trivial (copyOk_hollow (m := m.enter.next) hd),
    Program.always_bind.mpr ⟨hcopy, fun _ _ _ => Program.always_pure _ _⟩⟩

end Hollow

/-! ## Results -/

/-- When `cp` reports success on a file, it has made a copy exactly if the file has 8192 bytes,
    stored in full, and there is room for them. A directory below which everything can be copied is
    copied, and what `cp -r` has made a copy of is plain. -/
theorem cp_copies {m : Machine} {p : Nat} {argv : List (List UInt8)} {e : Entry} (ht : Tree m.fs)
    (hp : IsDirectory m.fs.disk p)
    (hfirst : (entries m.fs.disk p).find? (fun a => a.name == source argv) = some e) :
    (e.fileType = 1 → ∀ depth m', Program.Always answer CarefulWrites (cp depth p argv) m →
      Program.run answer (cp depth p argv) m = (some true, m') →
        (CopyOf m.fs m'.fs p e (destination argv) ↔ FileCopies m p e (destination argv))) ∧
    (e.fileType = 2 → DirCopies m e argv → ∃ n, ∀ depth, n < depth →
      Program.Always answer CopyOk (cp depth p argv) m →
        ∃ m', Program.run answer (cp depth p argv) m = (some true, m') ∧
          CopyOf m.fs m'.fs p e (destination argv)) ∧
    ∀ depth m', Program.Always answer CarefulWrites (cp depth p argv) m →
      Program.run answer (cp depth p argv) m = (some true, m') →
        CopyOf m.fs m'.fs p e (destination argv) → Plain m.fs e.inode := by
  have hm := List.mem_of_find?_eq_some hfirst
  have hname : e.name = source argv := by simpa using List.find?_some hfirst
  rw [← hname] at hfirst
  have hfs : m.enter.next.enter.fs = (m.fs.withStack (m.kernel 0)).withStack (m.kernel 1) := rfl
  have ht₃ : Tree m.enter.next.enter.fs := (ht.withStack _).withStack _
  refine ⟨?_, ?_, fun depth m' hz hrun hcopy => ?_⟩
  · intro h1 depth m' hz hrun
    rcases cp_success ht hp hz hrun with ⟨hpass, hrun', hz'⟩ | ⟨hpass, hrun', hz'⟩
    · -- it has made a directory
      obtain ⟨i, hu, hd⟩ := copyDirRecursive_makes ht₃ hz' hrun'
      refine iff_of_false (fun h => h.no_directory ht hp hm h1 hu hd) fun h => h.tested ?_
      rwa [hname]
    · rw [← hname] at hpass hrun' hz'
      have hcopy := copyFile_copy_iff ht₃ hp hp hfirst h1 (fun _ _ hc => hc) hz' hrun'
      rw [hfs, copyOf_withStack, copyOf_withStack] at hcopy
      rw [hcopy]
      constructor
      · rintro ⟨hshort, hsize, hwhole, hroom⟩
        exact ⟨hpass, hshort, hsize,
          hwhole.congr (Intact.refl m.fs.disk e.inode) (Intact.refl m.fs.disk e.inode), hroom⟩
      · rintro ⟨-, hshort, hsize, hwhole, hroom⟩
        exact ⟨hshort, hsize,
          hwhole.congr (Intact.refl m.fs.disk e.inode) (Intact.refl m.fs.disk e.inode), hroom⟩
  · intro h2 hd
    have hself := ht.child_ne hp hm hd.proper
    obtain ⟨n, htall⟩ := ht.tall
    refine ⟨n, fun depth hdepth hz => ?_⟩
    obtain ⟨k, rfl⟩ : ∃ k, depth = k + 1 := ⟨depth - 1, by omega⟩
    obtain ⟨hz', hsuccess⟩ := cp_dir ht hp hfirst hname.symm h2 hd hz
    have hcopyable : Copyable m.enter.next.enter.fs e.inode :=
      hd.copyable.congr fun y _ => Intact.refl m.fs.disk y
    have hsrc : Source m.enter.next.enter.fs p p k e :=
      ⟨hd.proper, hfirst, hself, hcopyable, (htall e.inode).mono (by omega)⟩
    obtain ⟨m', hrun, -, hcopy⟩ :=
      copyDirRecursive_run ht₃ hp hp hsrc h2 (fun _ => hd.other) hd.short
      hz'
    rw [hfs, copyOf_withStack, copyOf_withStack] at hcopy
    exact ⟨m', hsuccess m' hrun, hcopy⟩
  · have hinv := Program.Always.invariant (hz.and cp_plain)
      (fun c m₁ hm₁ hc => answer_plain hm₁ hp hc.1 hc.2) (PlainSince.refl ht)
    rw [hrun] at hinv
    exact hcopy.plain hinv

/-- A file of 8192 bytes is copied, and an empty directory. -/
theorem cp_copies_page :
    (∃ m', Program.run answer (cp 0 1 [[99, 112], [97], [98]])
        (Machine.zeros (pageFs 8192)) = (some true, m') ∧
      CopyOf (pageFs 8192) m'.fs 1 ⟨[97], 3, 1⟩ [98]) ∧
    ∃ depth m', Program.run answer (cp depth 1 [[99, 112], [45, 114], [100], [99]])
        (Machine.zeros hollowFs) = (some true, m') ∧
      CopyOf hollowFs m'.fs 1 ⟨[100], 3, 2⟩ [99] := by
  constructor
  · obtain ⟨h, hsize, hwhole⟩ := @pageFs_root 8192 (by decide)
    generalize pageFs 8192 = fs at h hsize hwhole ⊢
    replace hsize : iSize (slot fs.disk 3) = 8192 := hsize
    obtain ⟨hz, m', hrun, -⟩ := @page_cp (Machine.zeros fs) h hsize.le
    obtain ⟨hroom, -⟩ := @page_copy (Machine.zeros fs) h hsize.le
    have htest := @file_not_passes (Machine.zeros fs) 1 ⟨[97], 3, 1⟩ h.tree h.root (page_lookup h)
      h.iBlocks_eq rfl
    exact ⟨m', hrun, ((@cp_copies (Machine.zeros fs) 1 [[99, 112], [97], [98]] ⟨[97], 3, 1⟩ h.tree
      h.root (page_lookup h)).1 rfl 0 m' hz hrun).mpr ⟨htest, by decide, hsize, hwhole, hroom⟩⟩
  · obtain ⟨h, hd⟩ := hollowFs_root
    generalize hollowFs = fs at h hd ⊢
    obtain ⟨n, hn⟩ := (@cp_copies (Machine.zeros fs) 1 [[99, 112], [45, 114], [100], [99]]
      ⟨[100], 3, 2⟩ h.tree h.root (hollow_lookup h)).2.1 rfl (@hollow_cp _ 0 h hd).1
    exact ⟨n + 1, hn (n + 1) (Nat.lt_succ_self n) (hollow_cp h hd).2⟩

/-- The copy of an empty file has 8192 bytes. -/
theorem cp_pads_file : ∃ m', Program.run answer (cp 0 1 [[99, 112], [97], [98]])
      (Machine.zeros (pageFs 0)) = (some true, m') ∧
    ¬ CopyOf (pageFs 0) m'.fs 1 ⟨[97], 3, 1⟩ [98] := by
  obtain ⟨h, hsize, -⟩ := @pageFs_root 0 (by decide)
  generalize pageFs 0 = fs at h hsize ⊢
  replace hsize : iSize (slot fs.disk 3) = 0 := hsize
  obtain ⟨-, m', hrun, hcopy⟩ := @page_cp (Machine.zeros fs) h (by
    show iSize (slot fs.disk 3) ≤ 8192
    omega)
  refine ⟨m', hrun, fun hc => ?_⟩
  have h8192 : iSize (slot fs.disk 3) = 8192 := hcopy hc
  omega

end LossOs.Shell
