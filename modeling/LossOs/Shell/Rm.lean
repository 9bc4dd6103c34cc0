/-
  `commands/rm.c`.

  `remove_recursive` tries to delete its target as a file, and else clears it as a directory: it
  collects up to 64 names of fewer than 255 bytes from one listing, removes each of them, and
  deletes the directory. Where each directory of the subtree has one block, and nothing but zeros
  lies behind it when it is tested for emptiness, exactly the subtree is taken out
  (`removeRecursive_subtree`).
-/
import LossOs.Ext2.Prune
import LossOs.Ext2.RootBlock
import LossOs.Shell.Syscalls

namespace LossOs.Shell

open LossOs.Lib LossOs.Ext2

/-! ## The command -/

/-- The request of a `delete`. -/
def deleteRequest (parentInode : Nat) (name : List UInt8) (isDirectory : Bool) :
    EXT2DriverRequest where
  buf := fun _ => 0
  name := fun k => name.getD k 0
  nameLen := UInt8.ofNat name.length
  parentInode := UInt32.ofNat parentInode
  bufferSize := 0
  isDirectory := isDirectory

/-- `get_inode_by_name`: 0 when it finds no entry of the name. -/
def getInodeByName (parentInode : Nat) (name : List UInt8) : Program Op Op.Reply Nat := do
  let (retCode, dataBuffer) ← syscall (.readDirectory (listRequest parentInode fun _ => 0))
  if retCode ≠ 0 then pure 0
  else pure (((walk dataBuffer 8192 0).find? fun r => r.name == name).elim 0 Rec.inode)

/-- A name as a string: the bytes before the first zero. -/
def cString (name : List UInt8) : List UInt8 := name.takeWhile (· ≠ 0)

/-- The names that `remove_recursive` collects from a listing. -/
def entryNames (dataBuffer : Mem) : List (List UInt8) :=
  ((((walk dataBuffer 8192 0).map Rec.name).filter fun n =>
    n ≠ [46] ∧ n ≠ [46, 46] ∧ n.length < 255).take 64).map cString

/-- `remove_recursive`, to a depth. -/
def removeRecursive :
    (depth : Nat) → (parentInode : Nat) → (name : List UInt8) → Program Op Op.Reply Unit
  | 0, _, _ => Program.stuck
  | depth + 1, parentInode, name => do
      let deleteRetCode ← syscall (.delete (deleteRequest parentInode name false))
      if deleteRetCode = 0 then pure ()
      else do
        let targetInode ← getInodeByName parentInode name
        if targetInode = 0 then pure ()
        else do
          let (retCode, dataBuffer) ← syscall (.readDirectory (listRequest targetInode fun _ => 0))
          if retCode ≠ 0 then pure ()
          else do
            (entryNames dataBuffer).forM (removeRecursive depth targetInode)
            let _ ← syscall (.delete (deleteRequest parentInode name true))
            pure ()

/-! ## What the listings give -/

section Listings

variable {m : Machine} {fs : Fs} {p : Nat} {name : List UInt8} {e : Entry}

/-- The records that a walk over a directory's listing meets, those of its first block first. -/
theorem walk_listed (ht : Tree fs) (hp : IsDirectory fs.disk p) (buf : Mem) :
    (walk (listed fs buf p) 8192 0).map Rec.entry = live (firstRecords fs.disk p) ++
      (walk (listed fs buf p) 8192 512).map Rec.entry :=
  walk_tiles (ht.listed_tiles hp buf) (by decide)

/-- A directory of one block is listed as a whole in a buffer of zeros. -/
theorem walk_listed_one (ht : Tree fs) (hp : IsDirectory fs.disk p)
    (h1 : iBlocks (slot fs.disk p) = 1) :
    (walk (listed fs (fun _ => 0) p) 8192 0).map Rec.entry = entries fs.disk p := by
  have hzero : ∀ o, 512 ≤ o → listed fs (fun _ => 0) p o = 0 := by
    intro o ho
    have hsize := ht.shaped.size p hp
    unfold listed
    rw [blit_of_not_mem (by omega)]
  obtain ⟨rest, heq, hrest⟩ := ht.entries_first hp
  rw [walk_listed ht hp, heq, hrest h1, walk_zeros hzero]
  rfl

theorem find_name (rs : List Rec) (name : List UInt8) :
    (rs.find? fun r => r.name == name).elim 0 Rec.inode =
      ((rs.map Rec.entry).find? fun e => e.name == name).elim 0 Entry.inode := by
  rw [List.find?_map, Option.elim_map]
  rfl

/-- `get_inode_by_name` in a directory. -/
theorem getInodeByName_eq (ht : Tree m.fs) (hp : IsDirectory m.fs.disk p) :
    Program.run answer (getInodeByName p name) m =
      (some (((live (firstRecords m.fs.disk p) ++
        (walk (listed m.enter.fs (fun _ => 0) p) 8192 512).map Rec.entry).find?
          fun e => e.name == name).elim 0 Entry.inode), m.enter) := by
  have hwalk := walk_listed (enter_tree ht) hp fun _ => 0
  rw [enter_disk] at hwalk
  unfold getInodeByName
  rw [run_syscall_bind, answer_list ht hp]
  dsimp only
  rw [if_neg (by decide), find_name, hwalk, Program.run_pure]

/-- It finds an entry that lies in the first block. -/
theorem getInodeByName_first (ht : Tree m.fs) (hp : IsDirectory m.fs.disk p)
    (hfirst : (entries m.fs.disk p).find? (fun e => e.name == name) = some e)
    (hin : e ∈ live (firstRecords m.fs.disk p)) :
    Program.run answer (getInodeByName p name) m = (some e.inode, m.enter) := by
  obtain ⟨rest, heq, -⟩ := ht.entries_first hp
  have hname := List.find?_some hfirst
  have hfind : (live (firstRecords m.fs.disk p)).find? (fun e => e.name == name) = some e := by
    rw [heq, List.find?_append] at hfirst
    cases h : (live (firstRecords m.fs.disk p)).find? (fun e => e.name == name) with
    | some a =>
      rw [h] at hfirst
      exact hfirst
    | none => exact absurd hname (List.find?_eq_none.mp h e hin)
  rw [getInodeByName_eq ht hp, List.find?_append, hfind]
  rfl

/-- A name without zeros is a string. -/
theorem cString_eq (h : 0 ∉ name) : cString name = name := by
  refine List.takeWhile_eq_self_iff.mpr fun c hc => decide_eq_true ?_
  rintro rfl
  exact h hc

/-- The names that are collected from a directory of one block. -/
theorem entryNames_one (ht : Tree fs) (hp : IsDirectory fs.disk p)
    (h1 : iBlocks (slot fs.disk p) = 1)
    (hnames : ∀ a ∈ proper fs.disk p, a.name.length < 255 ∧ 0 ∉ a.name) :
    entryNames (listed fs (fun _ => 0) p) = (proper fs.disk p).map Entry.name := by
  have hwalk : (walk (listed fs (fun _ => 0) p) 8192 0).map Rec.name =
      (entries fs.disk p).map Entry.name := by
    rw [← walk_listed_one ht hp h1, List.map_map]
    rfl
  have hfilter : ((entries fs.disk p).map Entry.name).filter (fun n =>
      n ≠ [46] ∧ n ≠ [46, 46] ∧ n.length < 255) = (proper fs.disk p).map Entry.name := by
    unfold proper
    rw [List.filter_map]
    refine congrArg (List.map Entry.name) (List.filter_congr fun a ha => decide_eq_decide.mpr ?_)
    exact ⟨fun h => ⟨h.1, h.2.1⟩, fun h => ⟨h.1, h.2, (hnames a (mem_proper.mpr ⟨ha, h⟩)).1⟩⟩
  have hlen : (proper fs.disk p).length ≤ 64 := by
    obtain ⟨rest, heq, hrest⟩ := ht.entries_first hp
    have h42 := (ht.listed_tiles hp fun _ => 0).length_le
    have hle : (proper fs.disk p).length ≤ (entries fs.disk p).length := List.length_filter_le _ _
    have hlive : (live (firstRecords fs.disk p)).length ≤ (firstRecords fs.disk p).length := by
      unfold live
      rw [List.length_map]
      exact List.length_filter_le _ _
    rw [heq, hrest h1, List.append_nil] at hle
    omega
  unfold entryNames
  rw [hwalk, hfilter, List.take_of_length_le (by rwa [List.length_map]), List.map_map]
  exact List.map_congr_left fun a ha => cString_eq (hnames a ha).2

end Listings

/-! ## The calls of `remove_recursive` -/

/-- When a directory is deleted, zeros lie behind the block that the kernel tests. -/
def ZeroBehind : Op → Machine → Prop
  | .delete request, m => request.isDirectory = true → entryInode (m.kernel 0) 512 = 0
  | _, _ => True

section Calls

variable {m : Machine} {p : Nat} {e : Entry} {isDirectory : Bool}

theorem deleteRequest_parent (hp : IsInode p) (name : List UInt8) (isDirectory : Bool) :
    (deleteRequest p name isDirectory).parentInode.toNat = p := listRequest_parent hp fun _ => 0

theorem firstNamed_delete (ht : Tree m.fs) (hp : IsDirectory m.fs.disk p)
    (hfirst : (entries m.fs.disk p).find? (fun a => a.name == e.name) = some e)
    (isDirectory : Bool) : firstNamed (deleteRequest p e.name isDirectory) m.fs.disk
      (deleteRequest p e.name isDirectory).parentInode.toNat = some e := by
  have hle := ht.consistent.name_le hp (List.mem_of_find?_eq_some hfirst)
  have hname : requestName (deleteRequest p e.name isDirectory) = e.name :=
    @requestName_root e.name [] isDirectory (by omega)
  unfold firstNamed
  rw [deleteRequest_parent hp.isInode, hname]
  exact hfirst

/-- A `delete` that takes its entry out. -/
theorem answer_delete (ht : Tree m.fs) (hp : IsDirectory m.fs.disk p)
    (hfirst : (entries m.fs.disk p).find? (fun a => a.name == e.name) = some e)
    (hok : Careful (.delete (deleteRequest p e.name isDirectory)) m.enter.fs)
    (htwo : isDirectory = true → e.fileType = 2 ∧ isDirectoryEmpty e.inode m.enter.fs = true)
    (hone : isDirectory = false → e.fileType = 1) :
    ∃ m', answer (.delete (deleteRequest p e.name isDirectory)) m = (0, m') ∧ Tree m'.fs ∧
      ∃ A B, entries m.fs.disk p = A ++ e :: B ∧ (∀ a ∈ A, a.name ≠ e.name) ∧
        Pruned m.fs.disk m'.fs.disk p (fun j => j = e.inode) (A ++ B) := by
  have hle := ht.consistent.name_le hp (List.mem_of_find?_eq_some hfirst)
  have hname : requestName (deleteRequest p e.name isDirectory) = e.name :=
    @requestName_root e.name [] isDirectory (by omega)
  have hparent := deleteRequest_parent hp.isInode e.name isDirectory
  have hdel := (enter_tree ht).delete_first hok (by rw [hparent]; exact hp)
    (firstNamed_delete (enter_tree ht) hp hfirst isDirectory) htwo hone
  rw [hparent, hname] at hdel
  obtain ⟨h0, htree, hrest⟩ := hdel
  exact ⟨{ m.enter with fs := (delete (deleteRequest p e.name isDirectory) m.enter.fs).2 },
    by rw [← h0]; rfl, htree, hrest⟩

theorem answer_delete_same {request : EXT2DriverRequest}
    (h : (delete request m.enter.fs).2 = m.enter.fs) :
    answer (.delete request) m = ((delete request m.enter.fs).1, m.enter) := by
  refine Prod.ext rfl ?_
  show { m.enter with fs := (delete request m.enter.fs).2 } = m.enter
  rw [h]

/-- A directory is not deleted as a file. -/
theorem answer_delete_dir (ht : Tree m.fs) (hp : IsDirectory m.fs.disk p)
    (hfirst : (entries m.fs.disk p).find? (fun a => a.name == e.name) = some e)
    (h2 : e.fileType = 2) :
    ∃ code, code ≠ 0 ∧ answer (.delete (deleteRequest p e.name false)) m = (code, m.enter) := by
  have hparent := deleteRequest_parent hp.isInode e.name false
  have hok : Careful (.delete (deleteRequest p e.name false)) m.enter.fs :=
    careful_file rfl (by rw [hparent]; exact hp.isInode.2)
  rcases (enter_tree ht).sound.delete_careful hok with ⟨hne, he⟩ | ⟨-, -, a, ha, -, -, hone, -⟩
  · exact ⟨_, hne, answer_delete_same he⟩
  · obtain rfl := Option.some.inj
      ((firstNamed_delete (enter_tree ht) hp hfirst false).symm.trans ha)
    rw [hone rfl] at h2
    cases h2

/-- A directory that does not pass for empty is not deleted, and the attempt is careful. -/
theorem answer_delete_kept (ht : Tree m.fs) (hp : IsDirectory m.fs.disk p)
    (hfirst : (entries m.fs.disk p).find? (fun a => a.name == e.name) = some e)
    (hkept : isDirectoryEmpty e.inode m.enter.fs = false) :
    Careful (.delete (deleteRequest p e.name true)) m.enter.fs ∧
      ∃ code, answer (.delete (deleteRequest p e.name true)) m = (code, m.enter) := by
  have hnamed := firstNamed_delete (enter_tree ht) hp hfirst true
  have hparent := deleteRequest_parent hp.isInode e.name true
  have hno : ∀ r a, Call.delete (deleteRequest p e.name true) = .delete r →
      firstNamed r m.enter.fs.disk r.parentInode.toNat = some a →
      isDirectoryEmpty a.inode m.enter.fs ≠ true := by
    intro r a hc ha
    obtain rfl := Call.delete.inj hc
    obtain rfl := Option.some.inj (hnamed.symm.trans ha)
    rw [hkept]
    exact Bool.false_ne_true
  have hok : Careful (.delete (deleteRequest p e.name true)) m.enter.fs :=
    ⟨⟨by show (deleteRequest p e.name true).parentInode.toNat ≤ 896
         rw [hparent]
         exact hp.isInode.2,
      fun _ hc => (by cases hc), fun r a hc _ ha _ hempty => absurd hempty (hno r a hc ha)⟩,
    fun _ hc => (by cases hc), fun r a hc _ ha _ hempty => absurd hempty (hno r a hc ha)⟩
  rcases (enter_tree ht).sound.delete_careful hok with ⟨-, he⟩ | ⟨-, -, a, ha, -, htwo, -⟩
  · exact ⟨hok, _, answer_delete_same he⟩
  · exact absurd (htwo rfl).2 (hno _ a rfl ha)

end Calls

/-! ## The run of `remove_recursive` -/

/-- Directory `p` has one block, and `remove_recursive` collects all of its names. -/
def Listable (d : Disk) (p : Nat) : Prop :=
  iBlocks (slot d p) = 1 ∧ ∀ a ∈ proper d p, a.name.length < 255 ∧ 0 ∉ a.name

/-- What `remove_recursive` needs of entry `e` of directory `p`. -/
structure Removable (d : Disk) (p : Nat) (e : Entry) : Prop where
  proper : Proper e
  first : (entries d p).find? (fun a => a.name == e.name) = some e
  seen : e.fileType = 2 → e ∈ live (firstRecords d p)
  listable : ∀ j, Under d e.inode j → IsDirectory d j → Listable d j

/-- `remove_recursive` returns, and has taken the entry out with all that lies below. -/
def Removes (depth p : Nat) (e : Entry) (m : Machine) : Prop :=
  ∃ m', Program.run answer (removeRecursive depth p e.name) m = (some (), m') ∧ Tree m'.fs ∧
    SubtreeRemoved m.fs.disk m'.fs.disk p e

section Run

variable {m : Machine} {t p k : Nat} {a e : Entry} {L : List Entry}

/-- In a directory of one block the first entry behind `.` and `..` can be removed. -/
theorem removable_head (ht : Tree m.fs) (hp : IsDirectory m.fs.disk t)
    (hL : proper m.fs.disk t = a :: L) (h1 : iBlocks (slot m.fs.disk t) = 1)
    (hlist : ∀ j, Under m.fs.disk a.inode j → IsDirectory m.fs.disk j → Listable m.fs.disk j) :
    Removable m.fs.disk t a := by
  have hmem : a ∈ proper m.fs.disk t := hL ▸ List.mem_cons_self
  obtain ⟨hm, hP⟩ := mem_proper.mp hmem
  obtain ⟨up, hup, heq⟩ := ht.entries_eq hp
  obtain ⟨rest, hfirst, hrest⟩ := ht.entries_first hp
  refine ⟨hP, ?_, fun _ => ?_, hlist⟩
  · have hdot : ¬ ((⟨[46], t, 2⟩ : Entry).name == a.name) = true := fun h =>
      hP.1 (beq_iff_eq.mp h).symm
    have hdots : ¬ (up.name == a.name) = true := fun h => hP.2 ((beq_iff_eq.mp h).symm.trans hup)
    rw [heq, hL, List.find?_cons, eq_false_of_ne_true hdot, List.find?_cons,
      eq_false_of_ne_true hdots, List.find?_cons, beq_self_eq_true]
  · rw [hfirst, hrest h1, List.append_nil] at hm
    exact hm

/-- The loop clears the directory, one entry after the other. -/
theorem clear_run (hrec : ∀ {m : Machine} {e : Entry}, Tree m.fs → IsDirectory m.fs.disk t →
      Removable m.fs.disk t e → LinkGraph.Tall Entry.inode Proper (graphOf m.fs.disk) k e.inode →
      Program.Always answer ZeroBehind (removeRecursive (k + 1) t e.name) m →
      Removes (k + 1) t e m)
    (ht : Tree m.fs) (hp : IsDirectory m.fs.disk t) (hL : proper m.fs.disk t = L)
    (h1 : iBlocks (slot m.fs.disk t) = 1)
    (hlist : ∀ a ∈ L, ∀ j, Under m.fs.disk a.inode j → IsDirectory m.fs.disk j →
      Listable m.fs.disk j)
    (htall : ∀ a ∈ L, LinkGraph.Tall Entry.inode Proper (graphOf m.fs.disk) k a.inode)
    (hz : Program.Always answer ZeroBehind
      ((L.map Entry.name).forM (removeRecursive (k + 1) t)) m) :
    ∃ m', Program.run answer ((L.map Entry.name).forM (removeRecursive (k + 1) t)) m =
      (some (), m') ∧ Tree m'.fs ∧ Cleared m.fs.disk m'.fs.disk t := by
  induction L generalizing m with
  | nil => exact ⟨m, Program.run_pure _ m, ht, Cleared.refl hL⟩
  | cons a L ih =>
    rw [List.map_cons, Program.forM_cons, Program.always_bind] at hz
    have hr := removable_head ht hp hL h1 (hlist a List.mem_cons_self)
    obtain ⟨m₁, hrun₁, ht₁, hsub⟩ := hrec ht hp hr (htall a List.mem_cons_self) hz.1
    have hframe := fun b (hb : b ∈ L) => hsub.frame ht hp hL hb
    have hlinks := fun b (hb : b ∈ L) => hsub.links ht hp hL hb
    have hself : ¬ Under m.fs.disk a.inode t :=
      ht.child_ne hp (List.mem_of_find?_eq_some hr.first) hr.proper
    obtain ⟨A, B, -, -, hpr⟩ := id hsub
    have hp₁ : IsDirectory m₁.fs.disk t := hpr.isDirectory_iff.mpr ⟨hp, hself⟩
    have hunder : ∀ b ∈ L, ∀ j, Under m₁.fs.disk b.inode j ↔ Under m.fs.disk b.inode j :=
      fun b hb j => LinkGraph.below_congr (hlinks b hb)
    obtain ⟨m', hrun, ht', hclear⟩ := ih ht₁ hp₁ (hsub.rest hL)
      (by rw [hpr.slots t hp.isInode hself]; exact h1)
      (fun b hb j hj hd => by
        have hj' := (hunder b hb j).mp hj
        obtain ⟨hd', hen, hslot⟩ := hframe b hb j hj'
        have hd'' := hd'.mp hd
        have := hlist b (List.mem_cons_of_mem _ hb) j hj' hd''
        unfold Listable proper at this ⊢
        rw [hslot, hen hd'']
        exact this)
      (fun b hb => (htall b (List.mem_cons_of_mem _ hb)).congr (hlinks b hb))
      (hz.2 _ _ hrun₁)
    refine ⟨m', ?_, ht', hclear.cons hsub ht ht₁ hp hL⟩
    rw [List.map_cons, Program.forM_cons, Program.run_bind_some hrun₁, hrun]

/-- A file has nothing below. -/
theorem under_file {d : Disk} {i j : Nat} (h : ¬ IsDirectory d i) : Under d i j ↔ j = i := by
  rw [show Under d i j ↔ _ from LinkGraph.below_iff, or_iff_left fun h' => h h'.1]
  exact eq_comm

theorem removes_file (ht : Tree m.fs) (hp : IsDirectory m.fs.disk p) (hr : Removable m.fs.disk p e)
    (h1 : e.fileType = 1) : Removes (k + 1) p e m := by
  have hm := List.mem_of_find?_eq_some hr.first
  have hparent := deleteRequest_parent hp.isInode e.name false
  obtain ⟨m', hans, ht', A, B, heq, hA, hpr⟩ := @answer_delete m p e false ht hp hr.first
    (careful_file rfl (by rw [hparent]; exact hp.isInode.2)) (fun h => by cases h) fun _ => h1
  have hdir : ¬ IsDirectory m.fs.disk e.inode := by
    rw [ht.sound.noDangling.isDir_iff hp hm, h1]
    decide
  refine ⟨m', ?_, ht', A, B, heq, hA, hpr.congr fun j => (under_file hdir).symm⟩
  rw [removeRecursive, run_syscall_bind, hans, if_pos rfl, Program.run_pure]

/-- What is left to do when the target is listed as a directory. -/
def clearAndDelete (depth parentInode : Nat) (name : List UInt8) (targetInode : Nat)
    (names : List (List UInt8)) : Program Op Op.Reply Unit := do
  names.forM (removeRecursive depth targetInode)
  let _ ← syscall (.delete (deleteRequest parentInode name true))
  pure ()

/-- `remove_recursive` of a directory comes to clearing it and deleting it. -/
theorem removeRecursive_dir (ht : Tree m.fs) (hp : IsDirectory m.fs.disk p)
    (hr : Removable m.fs.disk p e) (h2 : e.fileType = 2) :
    Program.run answer (removeRecursive (k + 1) p e.name) m =
        Program.run answer (clearAndDelete k p e.name e.inode
          ((proper m.fs.disk e.inode).map Entry.name)) m.enter.enter.enter ∧
      (Program.Always answer ZeroBehind (removeRecursive (k + 1) p e.name) m →
        Program.Always answer ZeroBehind (clearAndDelete k p e.name e.inode
          ((proper m.fs.disk e.inode).map Entry.name)) m.enter.enter.enter) := by
  have hm := List.mem_of_find?_eq_some hr.first
  have hd : IsDirectory m.fs.disk e.inode := (ht.sound.noDangling.isDir_iff hp hm).mpr h2
  have h0 : e.inode ≠ 0 := by have := hd.isInode.1; omega
  obtain ⟨h1, hnames⟩ := hr.listable _ Relation.ReflTransGen.refl hd
  have ht₃ : Tree m.enter.enter.enter.fs := enter_tree (enter_tree (enter_tree ht))
  obtain ⟨code, hcode, hans⟩ := answer_delete_dir ht hp hr.first h2
  have hget := @getInodeByName_first m.enter p e.name e (enter_tree ht) hp hr.first (hr.seen h2)
  have hlist := @answer_list m.enter.enter e.inode (enter_tree (enter_tree ht)) hd fun _ => 0
  have hcollect : entryNames (listed m.enter.enter.enter.fs (fun _ => 0) e.inode) =
      (proper m.fs.disk e.inode).map Entry.name := entryNames_one ht₃ hd h1 hnames
  unfold clearAndDelete
  constructor
  · rw [removeRecursive, run_syscall_bind, hans]
    dsimp only
    rw [if_neg hcode, Program.run_bind_some hget, if_neg h0, run_syscall_bind, hlist]
    dsimp only
    rw [if_neg (by decide), hcollect]
  · intro hz
    rw [removeRecursive, always_syscall_bind, hans] at hz
    obtain ⟨-, hz⟩ := hz
    dsimp only at hz
    rw [if_neg hcode, Program.always_bind] at hz
    obtain ⟨-, hz⟩ := hz
    replace hz := hz _ _ hget
    rw [if_neg h0, always_syscall_bind, hlist] at hz
    obtain ⟨-, hz⟩ := hz
    dsimp only at hz
    rwa [if_neg (by decide), hcollect] at hz

/-- When the loop has cleared the directory, this goes as well. -/
theorem removes_dir (ht : Tree m.fs) (hp : IsDirectory m.fs.disk p) (hr : Removable m.fs.disk p e)
    (h2 : e.fileType = 2)
    (hz : Program.Always answer ZeroBehind (removeRecursive (k + 1) p e.name) m)
    (hloop : Program.Always answer ZeroBehind (((proper m.fs.disk e.inode).map Entry.name).forM
        (removeRecursive k e.inode)) m.enter.enter.enter →
      ∃ m', Program.run answer (((proper m.fs.disk e.inode).map Entry.name).forM
          (removeRecursive k e.inode)) m.enter.enter.enter = (some (), m') ∧ Tree m'.fs ∧
        Cleared m.fs.disk m'.fs.disk e.inode) : Removes (k + 1) p e m := by
  have hm := List.mem_of_find?_eq_some hr.first
  have hd : IsDirectory m.fs.disk e.inode := (ht.sound.noDangling.isDir_iff hp hm).mpr h2
  obtain ⟨h1, -⟩ := hr.listable _ Relation.ReflTransGen.refl hd
  obtain ⟨hrun, halways⟩ := removeRecursive_dir (k := k) ht hp hr h2
  replace hz := halways hz
  unfold clearAndDelete at hz hrun
  rw [Program.always_bind] at hz
  obtain ⟨hz₃, hz⟩ := hz
  obtain ⟨m₄, hrun₄, ht₄, hclear⟩ := hloop hz₃
  replace hz := hz _ _ hrun₄
  rw [always_syscall_bind] at hz
  obtain ⟨hzero, -⟩ := hz
  -- the entry is where it was, and the directory has two records left
  have hP := hr.proper
  have hself := ht.child_ne hp hm hP
  have hbelow : ∀ j, (∃ a ∈ proper m.fs.disk e.inode, Under m.fs.disk a.inode j) →
      Under m.fs.disk e.inode j ∧ j ≠ e.inode := by
    rintro j ⟨a, ha, hj⟩
    exact ht.under_child hd ha hj
  have hpS : ¬ ∃ a ∈ proper m.fs.disk e.inode, Under m.fs.disk a.inode p := fun h =>
    hself (hbelow p h).1
  have htS : ¬ ∃ a ∈ proper m.fs.disk e.inode, Under m.fs.disk a.inode e.inode := fun h =>
    (hbelow _ h).2 rfl
  have hpe : p ≠ e.inode := fun hpe => hself (by rw [← hpe])
  have hp₄ : IsDirectory m₄.fs.disk p := hclear.pruned.isDirectory_iff.mpr ⟨hp, hpS⟩
  have hd₄ : IsDirectory m₄.fs.disk e.inode := hclear.pruned.isDirectory_iff.mpr ⟨hd, htS⟩
  have hfirst₄ : (entries m₄.fs.disk p).find? (fun a => a.name == e.name) = some e := by
    rw [hclear.pruned.entries_other hp hpe hpS]
    exact hr.first
  have hok : Careful (.delete (deleteRequest p e.name true)) m₄.enter.fs :=
    careful_dir (by rw [deleteRequest_parent hp.isInode]; exact hp.isInode.2)
      (firstNamed_delete (enter_tree ht₄) hp₄ hfirst₄ true) hP
      (by rw [enter_disk, hclear.pruned.slots _ hd.isInode htS, h1]; decide) hclear.clear
  have hempty : isDirectoryEmpty e.inode m₄.enter.fs = true :=
    ((enter_tree ht₄).isDirectoryEmpty_iff hd₄ hclear.clear).mpr (hzero rfl)
  obtain ⟨m₅, hans₅, ht₅, A, B, heq, hA, hpr⟩ := answer_delete ht₄ hp₄ hfirst₄ hok
    (fun _ => ⟨h2, hempty⟩) fun h => by cases h
  refine ⟨m₅, ?_, ht₅, hclear.removed hpr ht hp (mem_proper.mpr ⟨hm, hP⟩) hd heq hA⟩
  rw [hrun, Program.run_bind_some hrun₄, run_syscall_bind, hans₅, Program.run_pure]

/-- To a depth that suffices, `remove_recursive` takes out the subtree. -/
theorem removeRecursive_run {n : Nat} (ht : Tree m.fs) (hp : IsDirectory m.fs.disk p)
    (hr : Removable m.fs.disk p e)
    (htall : LinkGraph.Tall Entry.inode Proper (graphOf m.fs.disk) n e.inode)
    (hz : Program.Always answer ZeroBehind (removeRecursive (n + 1) p e.name) m) :
    Removes (n + 1) p e m := by
  induction n generalizing m p e with
  | zero =>
    have hm := List.mem_of_find?_eq_some hr.first
    rcases ht.fileType hp hm with h1 | h2
    · exact removes_file ht hp hr h1
    · have hd := (ht.sound.noDangling.isDir_iff hp hm).mpr h2
      have hnone : proper m.fs.disk e.inode = [] := by
        apply List.eq_nil_iff_forall_not_mem.mpr
        intro a ha
        obtain ⟨ha', hPa⟩ := mem_proper.mp ha
        exact htall a.inode ⟨hd, a, by rwa [graphOf_links], hPa, rfl⟩
      apply removes_dir ht hp hr h2 hz
      intro _
      rw [hnone]
      exact ⟨_, Program.run_pure _ _, enter_tree (enter_tree (enter_tree ht)), Cleared.refl hnone⟩
  | succ n ih =>
    have hm := List.mem_of_find?_eq_some hr.first
    rcases ht.fileType hp hm with h1 | h2
    · exact removes_file ht hp hr h1
    · have hd := (ht.sound.noDangling.isDir_iff hp hm).mpr h2
      have hchild : ∀ a ∈ proper m.fs.disk e.inode,
          LinkGraph.Child Entry.inode Proper (graphOf m.fs.disk) e.inode a.inode := fun a ha =>
        ⟨hd, a, by rw [graphOf_links]; exact (mem_proper.mp ha).1, (mem_proper.mp ha).2, rfl⟩
      apply removes_dir ht hp hr h2 hz
      intro hz₃
      exact @clear_run m.enter.enter.enter e.inode n _ ih (enter_tree (enter_tree (enter_tree ht)))
        hd rfl (hr.listable _ Relation.ReflTransGen.refl hd).1
        (fun a ha j hj hdj => hr.listable j (Relation.ReflTransGen.head (hchild a ha) hj) hdj)
        (fun a ha => htall _ (hchild a ha)) hz₃

end Run

/-! ## Results -/

/-- Where each directory of the subtree has one block and names that are collected, and only zeros
    lie behind a block that is tested, `remove_recursive` returns and has removed the subtree. -/
theorem removeRecursive_subtree {m : Machine} {p : Nat} {e : Entry} (ht : Tree m.fs)
    (hp : IsDirectory m.fs.disk p) (hr : Removable m.fs.disk p e) :
    ∃ n, ∀ depth, n < depth → Program.Always answer ZeroBehind (removeRecursive depth p e.name) m →
      ∃ m', Program.run answer (removeRecursive depth p e.name) m = (some (), m') ∧
        SubtreeRemoved m.fs.disk m'.fs.disk p e := by
  obtain ⟨n, htall⟩ := ht.tall
  refine ⟨n, fun depth hdepth hz => ?_⟩
  obtain ⟨k, rfl⟩ : ∃ k, depth = k + 1 := ⟨depth - 1, by omega⟩
  obtain ⟨m', hrun, -, hsub⟩ := removeRecursive_run ht hp hr ((htall e.inode).mono (by omega)) hz
  exact ⟨m', hrun, hsub⟩

theorem zeroBehind_always {α : Type} {m : Machine} (p : Program Op Op.Reply α)
    (h : ∀ n o, m.kernel n o = 0) : Program.Always answer ZeroBehind p m := by
  refine Program.always_of_invariant (I := fun m => ∀ n o, m.kernel n o = 0) p
    (fun c m hm => ?_) (fun c m hm => ?_) h
  · cases c with
    | scratch => exact hm
    | read request => exact fun n o => hm (n + 1) o
    | readDirectory request => exact fun n o => hm (n + 1) o
    | write request => exact fun n o => hm (n + 1) o
    | delete request => exact fun n o => hm (n + 1) o
  · cases c with
    | delete request => exact fun _ => rd32_eq_zero fun o _ _ => hm 0 o
    | scratch => trivial
    | read request => trivial
    | readDirectory request => trivial
    | write request => trivial

/-- Behind `.` and `..` the root holds `/bin`, and that the file `shell`. -/
theorem shellFs_proper : proper shellFs.disk 1 = [⟨[98, 105, 110], 2, 2⟩] ∧
    proper shellFs.disk 2 = [⟨[115, 104, 101, 108, 108], 3, 1⟩] ∧
    ∀ j, Under shellFs.disk 2 j → j = 2 ∨ j = 3 := by
  obtain ⟨h, -, hfile, b, hb⟩ := shellFs_root
  generalize shellFs = fs at h hfile hb ⊢
  have h1 : entries fs.disk 1 = live _ := h.entries_eq
  have h2 : entries fs.disk 2 = live _ := hb.entries_eq
  have hproper₁ : proper fs.disk 1 = [⟨[98, 105, 110], 2, 2⟩] := by
    unfold proper
    rw [h1]
    decide
  have hproper₂ : proper fs.disk 2 = [⟨[115, 104, 101, 108, 108], 3, 1⟩] := by
    unfold proper
    rw [h2]
    decide
  refine ⟨hproper₁, hproper₂, fun j hj => ?_⟩
  rcases LinkGraph.below_iff.mp hj with h' | ⟨-, a, ha, hP, hj'⟩
  · exact Or.inl h'.symm
  · rw [graphOf_links] at ha
    have hm := mem_proper.mpr ⟨ha, hP⟩
    rw [hproper₂, List.mem_singleton] at hm
    subst hm
    rcases LinkGraph.below_iff.mp hj' with h' | ⟨hd, -⟩
    · exact Or.inr h'.symm
    · exact absurd hd hfile

/-- `/bin` with `shell` in it can be removed from the root. -/
theorem removable_shell : Removable shellFs.disk 1 ⟨[98, 105, 110], 2, 2⟩ := by
  obtain ⟨hproper₁, hproper₂, hunder⟩ := shellFs_proper
  obtain ⟨h, -, hfile, b, hb⟩ := shellFs_root
  generalize shellFs = fs at hproper₁ hproper₂ hunder h hfile hb ⊢
  refine @removable_head (Machine.zeros fs) 1 _ [] h.tree h.root hproper₁ h.iBlocks_eq
    fun j hj hd => ?_
  rcases hunder j hj with rfl | rfl
  · refine ⟨hb.iBlocks_eq h.tree hd, fun a ha => ?_⟩
    have ha' : a ∈ proper fs.disk 2 := ha
    rw [hproper₂, List.mem_singleton] at ha'
    subst ha'
    decide
  · exact absurd hd hfile

theorem removeRecursive_subtree_shell : ∃ n, ∀ depth, n < depth →
    ∃ m', Program.run answer (removeRecursive depth 1 [98, 105, 110]) (Machine.zeros shellFs) =
      (some (), m') ∧ SubtreeRemoved shellFs.disk m'.fs.disk 1 ⟨[98, 105, 110], 2, 2⟩ := by
  obtain ⟨h, -⟩ := shellFs_root
  have hr := removable_shell
  generalize shellFs = fs at h hr ⊢
  obtain ⟨n, hn⟩ := @removeRecursive_subtree (Machine.zeros fs) 1 _ h.tree h.root hr
  exact ⟨n, fun depth hdepth => hn depth hdepth (zeroBehind_always _ fun _ _ => rfl)⟩

/-- `/bin`, which is empty, can be removed. -/
theorem removable_bin : Removable binFs.disk 1 ⟨[98, 105, 110], 2, 2⟩ := by
  obtain ⟨h, b, hb⟩ := binFs_rootBlock
  generalize binFs = fs at h hb ⊢
  have h1 : entries fs.disk 1 = live _ := h.entries_eq
  have h2 : entries fs.disk 2 = live _ := hb.entries_eq
  have hproper : proper fs.disk 1 = [⟨[98, 105, 110], 2, 2⟩] := by
    unfold proper
    rw [h1]
    decide
  have hnone : proper fs.disk 2 = [] := by
    unfold proper
    rw [h2]
    decide
  refine @removable_head (Machine.zeros fs) 1 _ [] h.tree h.root hproper h.iBlocks_eq
    fun j hj hd => ?_
  rcases LinkGraph.below_iff.mp hj with hj | ⟨-, a, ha, hP, -⟩
  · subst hj
    refine ⟨hb.iBlocks_eq h.tree hd, fun a ha => ?_⟩
    have ha' : a ∈ proper fs.disk 2 := ha
    rw [hnone] at ha'
    cases ha'
  · rw [graphOf_links] at ha
    have ha' : a ∈ proper fs.disk 2 := mem_proper.mpr ⟨ha, hP⟩
    rw [hnone] at ha'
    cases ha'

/-- With other bytes on the kernel's stack `/bin` stays, however deep `remove_recursive` may go. -/
theorem removeRecursive_keeps_bin : Removable binFs.disk 1 ⟨[98, 105, 110], 2, 2⟩ ∧
    ∀ depth, ∃ m', Program.run answer (removeRecursive (depth + 1) 1 [98, 105, 110])
        ⟨binFs, fun _ _ => 0, fun _ _ => 1⟩ = (some (), m') ∧ m'.fs.disk = binFs.disk ∧
      ¬ SubtreeRemoved binFs.disk m'.fs.disk 1 ⟨[98, 105, 110], 2, 2⟩ := by
  have hr := removable_bin
  obtain ⟨ht, hroot, hbin, -⟩ := binFs_root
  obtain ⟨-, -, hdots⟩ := binFs_blocks
  refine ⟨hr, fun depth => ?_⟩
  generalize binFs = fs at ht hroot hbin hdots hr ⊢
  generalize hm : (⟨fs, fun _ _ => 0, fun _ _ => 1⟩ : Machine) = m
  obtain rfl : m.fs = fs := by rw [← hm]
  have hkernel : ∀ n o, m.kernel n o = 1 := fun n o => by rw [← hm]
  clear hm
  have hnone : proper m.fs.disk 2 = [] := by
    unfold proper
    rw [hdots]
    decide
  obtain ⟨hrun, -⟩ := @removeRecursive_dir m 1 depth ⟨_, 2, 2⟩ ht hroot hr rfl
  unfold clearAndDelete at hrun
  -- nothing is collected, and the directory does not pass for empty
  have hkept : isDirectoryEmpty 2 m.enter.enter.enter.enter.fs = false := by
    have ht₄ : Tree m.enter.enter.enter.enter.fs :=
      enter_tree (enter_tree (enter_tree (enter_tree ht)))
    have hstack : m.enter.enter.enter.enter.fs.stack = fun _ => 1 := funext fun o => hkernel 3 o
    rw [← Bool.not_eq_true, ht₄.isDirectoryEmpty_iff hbin hnone, hstack]
    decide
  obtain ⟨-, code, hans⟩ := @answer_delete_kept m.enter.enter.enter 1 ⟨_, 2, 2⟩
    (enter_tree (enter_tree (enter_tree ht))) hroot hr.first hkept
  refine ⟨m.enter.enter.enter.enter, ?_, rfl, ?_⟩
  · dsimp only at hrun
    rw [hnone, List.map_nil, Program.forM_nil, Program.run_bind_some (Program.run_pure () _),
      run_syscall_bind, hans, Program.run_pure] at hrun
    exact hrun
  · rintro ⟨A, B, h1, -, hpr⟩
    have h2 := hpr.entries_self
    have hlen := congrArg List.length (h1.symm.trans h2)
    simp at hlen

end LossOs.Shell
