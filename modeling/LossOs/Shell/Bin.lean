/-
  `commands/touch.c`, `commands/echo.c`, `rm` of `commands/rm.c`, and what protects `/bin`.

  Each command has its own guard. `mkdir`, `touch`, `echo` and `rm` ask for the current directory,
  `cp` and `mv` for the source; none asks what lies below a directory that it removes, and `cp` and
  `mv` may be issued in `/bin`. Where neither happens, `/bin` and the files in it stay through every
  sequence of commands (`bin_protected`).
-/
import LossOs.Ext2.Spared
import LossOs.Shell.Mkdir
import LossOs.Shell.Mv

namespace LossOs.Shell

open LossOs.Lib LossOs.Ext2

/-! ## The commands -/

/-- `touch`. -/
def touch (currentInode : Nat) (argv : List (List UInt8)) : Program Op Op.Reply Unit :=
  if currentInode = 2 then pure ()
  else if argv.length < 2 then pure ()
  else do
    let _ ← syscall (.write (ioRequest currentInode (argv.getD 1 []) (fun _ => 0) 0 false))
    pure ()

/-- `echo`. -/
def echo (currentInode : Nat) (argv : List (List UInt8)) : Program Op Op.Reply Unit :=
  if argv.length = 2 then pure ()
  else if 4 ≤ argv.length then
    if currentInode = 2 then pure ()
    else if (argv.getD 2 []).head? = some 62 ∧ 0 < (argv.getD 3 []).length then do
      let text := argv.getD 1 []
      let _ ← syscall (.write (ioRequest currentInode (argv.getD 3 []) (fun k => text.getD k 0)
        (UInt32.ofNat text.length) false))
      pure ()
    else pure ()
  else pure ()

/-- A target of `rm` without `-r`: a file, or else an empty directory. -/
def removeTarget (currentInode : Nat) (target : List UInt8) : Program Op Op.Reply Unit := do
  let retCode ← syscall (.delete (deleteRequest currentInode target false))
  if retCode ≠ 0 then do
    let _ ← syscall (.delete (deleteRequest currentInode target true))
    pure ()
  else pure ()

/-- `rm`. -/
def rm (depth currentInode : Nat) (argv : List (List UInt8)) : Program Op Op.Reply Unit :=
  if currentInode = 2 then pure ()
  else if argv.length < 2 then pure ()
  else if isRecursive argv = true ∧ argv.length < 3 then pure ()
  else if isRecursive argv = true then
    (argv.drop (startIndex argv)).forM (removeRecursive depth currentInode)
  else (argv.drop (startIndex argv)).forM (removeTarget currentInode)

/-- The shell's file commands. -/
inductive Command where
  | mkdir
  | touch
  | echo
  | rm
  | cp
  | mv

/-- What a command does, when what it prints is left out. -/
def Command.program (depth currentInode : Nat) (argv : List (List UInt8)) :
    Command → Program Op Op.Reply Unit
  | .mkdir => do
      let _ ← LossOs.Shell.mkdir currentInode argv
      pure ()
  | .touch => LossOs.Shell.touch currentInode argv
  | .echo => LossOs.Shell.echo currentInode argv
  | .rm => LossOs.Shell.rm depth currentInode argv
  | .cp => do
      let _ ← LossOs.Shell.cp depth currentInode argv
      pure ()
  | .mv => LossOs.Shell.mv depth currentInode argv

/-! ## What spares `/bin` -/

/-- Each `write` and `delete` is careful, and each directory that is listed has one block. -/
def Orderly : Op → Machine → Prop
  | .readDirectory request, m => IsDirectory m.fs.disk request.parentInode.toNat →
      iBlocks (slot m.fs.disk request.parentInode.toNat) = 1
  | .write request, m => Careful (.write request) m.enter.fs
  | .delete request, m => Careful (.delete request) m.enter.fs
  | _, _ => True

/-- No entry of the name leads to `/bin`, or to a directory above it. -/
def AwayFromBin (d : Disk) (p : Nat) (name : List UInt8) : Prop :=
  ∀ e ∈ entries d p, e.name = name → ¬ Under d e.inode 2

/-- What is found under the source name, if not `/bin` itself, is a file of more than 8192 bytes, or
    its copy cannot be created; directories count when they are copied too. -/
def RefusesCopy (d : Disk) (p : Nat) (source destination : List UInt8) (dirs : Bool) : Prop :=
  ∀ e, (entries d p).find? (fun a => a.name == source) = some e → e.inode ≠ 2 →
    (e.fileType = 1 → 8192 < iSize (slot d e.inode) ∨
      ¬ Creates (ioRequest p destination (fun _ => 0) 8192 false) d) ∧
    (e.fileType = 2 → dirs = true → ¬ Creates (ioRequest p destination (fun _ => 0) 0 true) d)

/-- The command has no way to `/bin`: `rm` does not get there through a target, `cp` copies nothing
    into it, and `mv` copies nothing at all, or neither copies into it nor moves what it lies in. -/
def Command.SparesBin (d : Disk) (p : Nat) (argv : List (List UInt8)) : Command → Prop
  | .rm => p = 2 ∨ if isRecursive argv = true then
        ∀ target ∈ argv.drop (startIndex argv), AwayFromBin d p target
      else 2 < firstCount d 2 ∨ ∀ target ∈ argv.drop (startIndex argv), ∀ e ∈ entries d p,
        e.name = requestName (deleteRequest p target true) → e.inode ≠ 2
  | .cp => argv.length < 3 ∨ (isRecursive argv = true ∧ argv.length < 4) ∨ p ≠ 2 ∨
      RefusesCopy d p (source argv) (destination argv) (isRecursive argv)
  | .mv => argv.length < 3 ∨ (p ≠ 2 ∧ AwayFromBin d p (argv.getD 1 [])) ∨
      (∃ e ∈ entries d p, e.name = argv.getD 2 []) ∨
      RefusesCopy d p (argv.getD 1 []) (argv.getD 2 []) true
  | _ => True

/-! ## Calls that spare it -/

/-- The name is a string. -/
def IsString (name : List UInt8) : Prop := 0 ∉ name

/-- A careful call that avoids `/bin` and makes no other names than strings. -/
def Safe : Op → Machine → Prop
  | .write request, m => Careful (.write request) m.enter.fs ∧
    Avoids 2 (.write request) m.enter.fs ∧
      IsString (requestName request)
  | .delete request, m => Careful (.delete request) m.enter.fs ∧
      Avoids 2 (.delete request) m.enter.fs
  | _, _ => True

/-- Nothing is deleted. -/
def NoDelete : Op → Machine → Prop
  | .delete _, _ => False
  | _, _ => True

/-- Nothing is written. -/
def NoWrite : Op → Machine → Prop
  | .write _, _ => False
  | _, _ => True

/-- The directories are a tree of strings in which `/bin` has inode 2. -/
structure HasBin (fs : Fs) : Prop where
  tree : Tree fs
  bin : IsDirectory fs.disk 2
  names : LinkGraph.All (fun _ a => IsString a.name) (graphOf fs.disk)

section Calls

variable {m m' : Machine} {fs : Fs} {c : Op} {p : Nat} {name : List UInt8} {buf : Mem} {n : UInt32}
  {dir : Bool} {α : Type} {prog : Program Op Op.Reply α} {r : Option α} {Q : Nat → Entry → Prop}

theorem isString_io (h : IsString name) : IsString (requestName (ioRequest p name buf n dir)) := by
  have hle : (UInt8.ofNat name.length).toNat ≤ name.length := by
    rw [UInt8.toNat_ofNat']
    exact Nat.mod_le _ _
  intro h0
  obtain ⟨k, hk, h0⟩ := List.mem_map.mp h0
  have hlt : 0 + k < name.length := by
    have := List.mem_range.mp hk
    have : k < (UInt8.ofNat name.length).toNat := this
    omega
  have hget : name.getD (0 + k) 0 = 0 := h0
  rw [List.getD_eq_getElem _ _ hlt] at hget
  exact h (hget ▸ List.getElem_mem hlt)

theorem HasBin.withStack (h : HasBin fs) (s : Mem) : HasBin (fs.withStack s) :=
  ⟨h.tree.withStack s, h.bin, h.names⟩

/-- A safe call keeps `/bin` where it is, and spares it. -/
theorem answer_safe (h : HasBin m.fs) (hok : Safe c m) :
    HasBin (answer c m).2.fs ∧ Spared m.fs.disk (answer c m).2.fs.disk 2 := by
  cases c with
  | scratch => exact ⟨h, Spared.refl _ _⟩
  | read request => exact ⟨h.withStack _, Spared.refl _ _⟩
  | readDirectory request => exact ⟨h.withStack _, Spared.refl _ _⟩
  | write request =>
    obtain ⟨hcare, havoid, hname⟩ := hok
    have h₁ : HasBin m.enter.fs := h.withStack _
    have hs := h₁.tree.write_spared h₁.bin hcare havoid
    refine ⟨⟨h₁.tree.run hcare, hs.isDirectory h₁.bin, ?_⟩, hs⟩
    refine h₁.tree.all_write hcare h₁.names fun i _ _ => ⟨hname, fun a ha => ?_⟩
    rcases mem_dotEntries.mp ha with rfl | rfl
    · exact show IsString [46] by unfold IsString; decide
    · exact show IsString [46, 46] by unfold IsString; decide
  | delete request =>
    obtain ⟨hcare, havoid⟩ := hok
    have h₁ : HasBin m.enter.fs := h.withStack _
    have hs := h₁.tree.delete_spared h₁.bin hcare havoid
    exact ⟨⟨h₁.tree.run hcare, hs.isDirectory h₁.bin, h₁.tree.all_delete hcare h₁.names⟩, hs⟩

/-- So does a program of safe calls. -/
theorem run_safe (h : HasBin m.fs) (hz : Program.Always answer Safe prog m)
    (hrun : Program.run answer prog m = (r, m')) :
    HasBin m'.fs ∧ Spared m.fs.disk m'.fs.disk 2 := by
  have hinv := Program.Always.invariant
    (I := fun m' => HasBin m'.fs ∧ Spared m.fs.disk m'.fs.disk 2) hz
    (fun c m₁ hm₁ hc => by
      obtain ⟨h₂, hs⟩ := answer_safe hm₁.1 hc
      exact ⟨h₂, hm₁.2.trans hs h.bin⟩)
    ⟨h, Spared.refl _ _⟩
  rw [hrun] at hinv
  exact hinv

end Calls

/-! ## Removals -/

/-- Links lead from the inodes of `S` to inodes of `S` only, and so do the entries of the name in
    directory `t`. -/
def LeadsInto (S : Nat → Prop) (t : Nat) (name : List UInt8) (p : Nat) (a : Entry) : Prop :=
  (S p → Proper a → S a.inode) ∧ (p = t → a.name = name → S a.inode)

/-- What removals may reach. -/
structure Confined (S : Nat → Prop) (t : Nat) (name : List UInt8) (fs : Fs) : Prop
    extends HasBin fs where
  links : LinkGraph.All (LeadsInto S t name) (graphOf fs.disk)

section Removals

variable {m m' : Machine} {fs : Fs} {c : Op} {S : Nat → Prop} {p t i k depth : Nat}
  {name target : List UInt8} {α : Type} {prog : Program Op Op.Reply α} {r : Option α} {e : Entry}

theorem Confined.withStack (h : Confined S t name fs) (s : Mem) :
    Confined S t name (fs.withStack s) := ⟨h.toHasBin.withStack s, h.links⟩

/-- Below an inode of `S` every name of its own leads into `S`. -/
theorem Confined.below (h : Confined S t name fs) (hi : S i) (h1 : target ≠ [46])
    (h2 : target ≠ [46, 46]) : Confined S i target fs := by
  refine ⟨h.toHasBin, fun p hp a ha => ⟨(h.links p hp a ha).1, ?_⟩⟩
  rintro rfl rfl
  exact (h.links p hp a ha).1 hi ⟨h1, h2⟩

theorem Confined.leads (h : Confined S t name fs) (hp : IsDirectory fs.disk t)
    (he : e ∈ entries fs.disk t) (hname : e.name = name) : S e.inode :=
  (h.links t hp e (by rwa [graphOf_links])).2 rfl hname

/-- Calls that delete keep this. -/
theorem answer_confined (h : Confined S t name m.fs) (hok : Safe c m) (hno : NoWrite c m) :
    Confined S t name (answer c m).2.fs := by
  refine ⟨(answer_safe h.toHasBin hok).1, ?_⟩
  cases c with
  | scratch => exact h.links
  | read request => exact h.links
  | readDirectory request => exact h.links
  | write request => exact hno.elim
  | delete request => exact (enter_tree h.tree).all_delete hok.1 h.links

theorem run_confined (h : Confined S t name m.fs)
    (hz : Program.Always answer (fun c m => Safe c m ∧ NoWrite c m) prog m)
    (hrun : Program.run answer prog m = (r, m')) : Confined S t name m'.fs := by
  have hinv := Program.Always.invariant (I := fun m => Confined S t name m.fs) hz
    (fun c m₁ hm₁ hc => answer_confined hm₁ hc.1 hc.2) h
  rwa [hrun] at hinv

theorem getInodeByName_enter :
    ∃ i, Program.run answer (getInodeByName p name) m = (some i, m.enter) := by
  unfold getInodeByName
  rw [run_syscall_bind, answer_readDirectory]
  dsimp only
  split
  · exact ⟨_, Program.run_pure _ _⟩
  · exact ⟨_, Program.run_pure _ _⟩

theorem orderly_list {request : EXT2DriverRequest} (h : Orderly (.readDirectory request) m)
    (hp : request.parentInode.toNat = p) (hd : IsDirectory m.fs.disk p) :
    iBlocks (slot m.fs.disk p) = 1 := by
  subst hp
  exact h hd

/-- In orderly listings a lookup finds the first entry of the name. -/
theorem lookup_orderly (ht : Tree m.fs) (hp : IsInode p)
    (hz : Program.Always answer Orderly (getInodeByName p name) m) :
    ∃ i, Program.run answer (getInodeByName p name) m = (some i, m.enter) ∧
      (i = 0 ∨ IsDirectory m.fs.disk p ∧
        ∃ e, (entries m.fs.disk p).find? (fun a => a.name == name) = some e ∧ e.inode = i) := by
  have hparent : (listRequest p fun _ => 0).parentInode.toNat = p :=
    listRequest_parent hp fun _ => 0
  cases hd : isDir m.fs.disk p with
  | false =>
    refine ⟨0, ?_, Or.inl rfl⟩
    unfold getInodeByName
    rw [run_syscall_bind, answer_readDirectory, readDirectory_not_dir (enter_tree ht).consistent
      (by rw [hparent]; exact hp) (by rw [hparent]; exact hd)]
    dsimp only
    rw [if_pos (by decide), Program.run_pure]
  | true =>
    have hpd := ht.consistent.isDirectory hp hd
    unfold getInodeByName at hz
    rw [always_syscall_bind] at hz
    have hlookup := @lookupInode_one m p name ht hpd (orderly_list hz.1 hparent hpd)
    refine ⟨_, run_lookup ht hpd, ?_⟩
    rw [hlookup]
    cases hfind : (entries m.fs.disk p).find? fun a => a.name == name with
    | none => exact Or.inl rfl
    | some e => exact Or.inr ⟨hpd, e, rfl, rfl⟩

/-- A `delete` of a target that leads into `S`. -/
theorem delete_safe (h : Confined S t name m.fs) (hS : ¬ S 2) (ht : IsInode t) (h2 : t ≠ 2)
    {dir : Bool} (hok : Careful (.delete (deleteRequest t name dir)) m.enter.fs)
    (hname : dir = true → requestName (deleteRequest t name dir) = name) :
    Safe (.delete (deleteRequest t name dir)) m ∧
      NoWrite (.delete (deleteRequest t name dir)) m := by
  have hparent := deleteRequest_parent ht name dir
  refine ⟨⟨hok, fun e he => ?_⟩, trivial⟩
  obtain ⟨hp, hfirst, -, hfile⟩ := he
  rw [hparent] at hp hfirst ⊢
  obtain ⟨hm, hen⟩ := firstNamed_mem hfirst
  refine ⟨h2, fun h0 => ?_⟩
  cases dir with
  | false =>
    -- what is deleted as a file is none of the directories
    have h1 := hfile rfl
    have hd := (h.tree.sound.noDangling.isDir_iff hp hm).mp (h0 ▸ h.bin)
    omega
  | true =>
    rw [hname rfl] at hen
    exact hS (h0 ▸ h.leads hp hm hen)

/-- The names that are collected from an orderly listing are those of entries. -/
theorem entryNames_orderly (h : HasBin fs) (hp : IsDirectory fs.disk p)
    (hone : iBlocks (slot fs.disk p) = 1) {n : List UInt8}
    (hn : n ∈ entryNames (listed fs (fun _ => 0) p)) : n ≠ [46] ∧ n ≠ [46, 46] := by
  unfold entryNames at hn
  obtain ⟨x, hx, rfl⟩ := List.mem_map.mp hn
  obtain ⟨hx, hfilter⟩ := List.mem_filter.mp (List.mem_of_mem_take hx)
  obtain ⟨rec, hrec, rfl⟩ := List.mem_map.mp hx
  obtain ⟨h1, h2, -⟩ := of_decide_eq_true hfilter
  have hm : rec.entry ∈ entries fs.disk p := by
    rw [← walk_listed_one h.tree hp hone]
    exact List.mem_map_of_mem hrec
  have hstring : IsString rec.name := h.names p hp rec.entry (by rwa [graphOf_links])
  rw [cString_eq hstring]
  exact ⟨h1, h2⟩

/-- The loop of `remove_recursive`. -/
theorem clear_safe (hrec : ∀ {m : Machine} {n : List UInt8}, Confined S i n m.fs →
      Program.Always answer Orderly (removeRecursive k i n) m →
      Program.Always answer (fun c m => Safe c m ∧ NoWrite c m) (removeRecursive k i n) m)
    {L : List (List UInt8)} (h : Confined S t name m.fs) (hi : S i)
    (hL : ∀ n ∈ L, n ≠ [46] ∧ n ≠ [46, 46])
    (hz : Program.Always answer Orderly (L.forM (removeRecursive k i)) m) :
    Program.Always answer (fun c m => Safe c m ∧ NoWrite c m) (L.forM (removeRecursive k i)) m := by
  induction L generalizing m with
  | nil => exact Program.always_pure _ _
  | cons n L ih =>
    rw [Program.forM_cons, Program.always_bind] at hz ⊢
    obtain ⟨h1, h2⟩ := hL n List.mem_cons_self
    have hhead := hrec (h.below hi h1 h2) hz.1
    exact ⟨hhead, fun a m₁ hrun => ih (run_confined h hhead hrun)
      (fun b hb => hL b (List.mem_cons_of_mem _ hb)) (hz.2 a m₁ hrun)⟩

/-- `remove_recursive` of a name that leads into `S` makes safe calls only, if `/bin` is outside. -/
theorem removeRecursive_safe (hS : ¬ S 2) (h : Confined S t name m.fs) (ht : IsInode t) (h2 : t ≠ 2)
    (hz : Program.Always answer Orderly (removeRecursive depth t name) m) :
    Program.Always answer (fun c m => Safe c m ∧ NoWrite c m) (removeRecursive depth t name) m := by
  induction depth generalizing m t name with
  | zero => exact Program.always_stuck _
  | succ k ih =>
    rw [removeRecursive, always_syscall_bind] at hz ⊢
    obtain ⟨hok, hz⟩ := hz
    have hfile := delete_safe h hS ht h2 hok fun hdir => by cases hdir
    have h₁ := answer_confined h hfile.1 hfile.2
    refine ⟨hfile, ?_⟩
    generalize answer (.delete (deleteRequest t name false)) m = r at hz h₁ ⊢
    obtain ⟨code, m₁⟩ := r
    dsimp only at hz h₁ ⊢
    split
    · exact Program.always_pure _ _
    rename_i hcode
    rw [if_neg hcode, Program.always_bind] at hz
    obtain ⟨i, hget, hi⟩ := lookup_orderly h₁.tree ht hz.1
    replace hz := hz.2 _ _ hget
    refine (Program.always_bind_some hget).mpr
      ⟨getInodeByName_quiet fun _ _ => ⟨trivial, trivial⟩, ?_⟩
    split
    · exact Program.always_pure _ _
    rename_i hi0
    rw [if_neg hi0, always_syscall_bind] at hz
    obtain ⟨hlist, hz⟩ := hz
    obtain ⟨hp, e, hfirst, rfl⟩ := hi.resolve_left hi0
    have hm := List.mem_of_find?_eq_some hfirst
    have hname : e.name = name := by simpa using List.find?_some hfirst
    have hSe : S e.inode := h₁.leads hp hm hname
    obtain ⟨hei, -, -⟩ := h₁.tree.sound.noDangling.entry t hp e hm
    have hne : e.inode ≠ 2 := fun he => hS (he ▸ hSe)
    have hparent : (listRequest e.inode fun _ => 0).parentInode.toNat = e.inode :=
      listRequest_parent hei fun _ => 0
    have h₂ : Confined S t name m₁.enter.fs := h₁.withStack _
    have h₃ : Confined S t name m₁.enter.enter.fs := h₂.withStack _
    rw [always_syscall_bind]
    refine ⟨⟨trivial, trivial⟩, ?_⟩
    cases hd : isDir m₁.enter.fs.disk e.inode with
    | false =>
      rw [answer_readDirectory,
        readDirectory_not_dir h₃.tree.consistent (by rw [hparent]; exact hei)
        (by rw [hparent]; exact hd)]
      dsimp only
      rw [if_pos (by decide)]
      exact Program.always_pure _ _
    | true =>
      have hed := h₂.tree.consistent.isDirectory hei hd
      have hone := orderly_list hlist hparent hed
      rw [answer_list h₂.tree hed] at hz ⊢
      dsimp only at hz ⊢
      rw [if_neg (by decide), Program.always_bind] at hz
      rw [if_neg (by decide), Program.always_bind]
      have hnames : ∀ n ∈ entryNames (listed m₁.enter.enter.fs (fun _ => 0) e.inode),
          n ≠ [46] ∧ n ≠ [46, 46] := fun n hn => entryNames_orderly h₃.toHasBin hed hone hn
      have hloop := clear_safe (fun h hz => ih h hei hne hz) h₃ hSe hnames hz.1
      refine ⟨hloop, fun a m₄ hrun => ?_⟩
      have h₄ := run_confined h₃ hloop hrun
      replace hz := hz.2 a m₄ hrun
      rw [always_syscall_bind] at hz ⊢
      have hle := h₁.tree.consistent.name_le hp hm
      refine ⟨delete_safe h₄ hS ht h2 hz.1 fun _ => ?_, Program.always_pure _ _⟩
      exact @requestName_root name [] true (by rw [← hname]; omega)

end Removals

/-! ## Copies -/

section Copies

variable {m m' : Machine} {p q s i k depth : Nat} {name srcName : List UInt8} {α : Type}
  {prog : Program Op Op.Reply α} {r : Option α} {buf : Mem} {n : UInt32} {dir : Bool}

theorem write_safe (hq : IsInode q) (hname : IsString name)
    (hok : Careful (.write (ioRequest q name buf n dir)) m.enter.fs)
    (hno : q = 2 → ¬ Creates (ioRequest q name (fun _ => 0) n dir) m.fs.disk) :
    Safe (.write (ioRequest q name buf n dir)) m ∧
      NoDelete (.write (ioRequest q name buf n dir)) m := by
  refine ⟨⟨hok, fun h2 hcr => ?_, isString_io hname⟩, trivial⟩
  rw [ioRequest_parent hq] at h2
  exact hno h2 ((creates_io _).mp hcr)

theorem copyFile_safe (hq : IsInode q) (hname : IsString name)
    (hno : q = 2 → ¬ Creates (ioRequest q name (fun _ => 0) 8192 false) m.fs.disk)
    (hz : Program.Always answer Orderly (copyFile s srcName q name) m) :
    Program.Always answer (fun c m => Safe c m ∧ NoDelete c m) (copyFile s srcName q name) m := by
  unfold copyFile at hz ⊢
  rw [show scratch = syscall Op.scratch from rfl, always_syscall_bind] at hz ⊢
  refine ⟨⟨trivial, trivial⟩, ?_⟩
  replace hz := hz.2
  rw [always_syscall_bind] at hz ⊢
  refine ⟨⟨trivial, trivial⟩, ?_⟩
  replace hz := hz.2
  dsimp only at hz ⊢
  split
  · exact Program.always_pure _ _
  rename_i hread
  rw [if_neg hread] at hz
  exact writeCopy_always.mpr (write_safe hq hname (writeCopy_always.mp hz) hno)

/-- The loop of `copy_dir_recursive` copies into a directory other than `/bin`. -/
theorem copyEntries_safe (hrec : ∀ {m : Machine} {n : List UInt8}, HasBin m.fs → IsString n →
      Program.Always answer Orderly (copyDirRecursive k s n q n) m →
      Program.Always answer (fun c m => Safe c m ∧ NoDelete c m) (copyDirRecursive k s n q n) m)
    {L : List Entry} (h : HasBin m.fs) (hq : IsInode q) (h2 : q ≠ 2)
    (hz : Program.Always answer Orderly (L.forM (copyEntry (copyDirRecursive k) s q)) m) :
    Program.Always answer (fun c m => Safe c m ∧ NoDelete c m)
      (L.forM (copyEntry (copyDirRecursive k) s q)) m := by
  induction L generalizing m with
  | nil => exact Program.always_pure _ _
  | cons a L ih =>
    rw [Program.forM_cons, Program.always_bind] at hz ⊢
    have hstring : IsString (cString a.name) := fun h0 => by
      have := List.mem_takeWhile_imp h0
      simp at this
    have hhead : Program.Always answer (fun c m => Safe c m ∧ NoDelete c m)
        (copyEntry (copyDirRecursive k) s q a) m := by
      replace hz := hz.1
      unfold copyEntry at hz ⊢
      dsimp only at hz ⊢
      split
      · rename_i hdir
        rw [if_pos hdir, Program.always_bind] at hz
        exact Program.always_bind.mpr ⟨hrec h hstring hz.1, fun _ _ _ => Program.always_pure _ _⟩
      rename_i hdir
      split
      · rename_i hfile
        rw [if_neg hdir, if_pos hfile, Program.always_bind] at hz
        exact Program.always_bind.mpr ⟨copyFile_safe hq hstring (fun he => absurd he h2) hz.1,
          fun _ _ _ => Program.always_pure _ _⟩
      · exact Program.always_pure _ _
    exact ⟨hhead, fun b m₁ hrun => ih (run_safe h (hhead.mono fun _ _ hc => hc.1) hrun).1
      (hz.2 b m₁ hrun)⟩

/-- `copy_dir_recursive` makes safe calls only, if it may not create its directory in `/bin`. -/
theorem copyDirRecursive_safe (h : HasBin m.fs) (hq : IsInode q) (hname : IsString name)
    (hno : q = 2 → ¬ Creates (ioRequest q name (fun _ => 0) 0 true) m.fs.disk)
    (hz : Program.Always answer Orderly (copyDirRecursive depth s srcName q name) m) :
    Program.Always answer (fun c m => Safe c m ∧ NoDelete c m)
      (copyDirRecursive depth s srcName q name) m := by
  induction depth generalizing m s srcName q name with
  | zero => exact Program.always_stuck _
  | succ k ih =>
    rw [copyDirRecursive, always_syscall_bind] at hz ⊢
    obtain ⟨hok, hz⟩ := hz
    have hwrite := write_safe hq hname hok hno
    refine ⟨hwrite, ?_⟩
    have h₁ := (answer_safe h hwrite.1).1
    rcases answer_write h.tree hok with ⟨code, m₁, hne, hans, -⟩ | ⟨m₁, t, hans, hqd, -, -, hadd⟩
    · rw [hans]
      dsimp only
      rw [if_pos hne]
      exact Program.always_pure _ _
    rw [hans] at hz h₁ ⊢
    dsimp only at hz h₁ ⊢
    have hread : ∀ m request, Safe (.readDirectory request) m ∧
        NoDelete (.readDirectory request) m :=
      fun _ _ => ⟨trivial, trivial⟩
    obtain ⟨src, hsrc⟩ := @getInodeByName_enter m₁ s srcName
    rw [if_neg (not_not.mpr rfl), Program.always_bind_some hsrc] at hz ⊢
    refine ⟨getInodeByName_quiet hread, ?_⟩
    replace hz := hz.2
    split
    · exact Program.always_pure _ _
    rename_i hsrc0
    rw [if_neg hsrc0, Program.always_bind] at hz
    -- the lookup finds the directory that was made
    obtain ⟨t', hget, ht'⟩ := lookup_orderly (enter_tree h₁.tree) hq hz.1
    replace hz := hz.2 _ _ hget
    refine (Program.always_bind_some hget).mpr ⟨getInodeByName_quiet hread, ?_⟩
    split
    · exact Program.always_pure _ _
    rename_i ht0
    rw [if_neg ht0, always_syscall_bind] at hz
    replace hz := hz.2
    obtain ⟨hq₁, e, hfirst, rfl⟩ := ht'.resolve_left ht0
    have hm := List.mem_of_find?_eq_some hfirst
    have hen : e.name = name := by simpa using List.find?_some hfirst
    have hle := h₁.tree.consistent.name_le hq₁ hm
    have hnew := hadd.find_new
    rw [ioRequest_parent hq, ioRequest_name (by rw [← hen]; omega)] at hnew
    obtain rfl := Option.some.inj (hfirst.symm.trans hnew)
    have ht2 : t ≠ 2 := fun he => hadd.grafted.not_mem h.bin.used he.symm
    have hti : IsInode t := (hadd.grafted.fresh t rfl).1
    rw [always_syscall_bind]
    refine ⟨⟨trivial, trivial⟩, ?_⟩
    generalize hlist : answer (.readDirectory _) _ = r at hz ⊢
    obtain ⟨⟨code, dataBuffer⟩, m₄⟩ := r
    have h₄ : HasBin m₄.fs := by
      rw [show m₄ = _ from (congrArg Prod.snd hlist).symm]
      exact ((h₁.withStack _).withStack _).withStack _
    dsimp only at hz ⊢
    split
    · exact Program.always_pure _ _
    rename_i hcode
    rw [if_neg hcode, Program.always_bind] at hz
    rw [Program.always_bind]
    exact ⟨copyEntries_safe
      (fun h hn hz => ih h hti hn (fun he => absurd he ht2) hz) h₄ hti ht2 hz.1,
      fun _ _ _ => Program.always_pure _ _⟩

end Copies

/-! ## Copies that are refused -/

section Refused

variable {m m' : Machine} {p i q s depth : Nat} {e : Entry} {name srcName : List UInt8} {code : Int}
  {dirs : Bool}

/-- In an orderly listing the test tells the directories. -/
theorem test_orderly (ht : Tree m.fs) (hi : IsInode i)
    (hz : Program.Always answer Orderly (testDirectory i) m) :
    Program.run answer (testDirectory i) m = (some (isDir m.fs.disk i), m.next.enter) := by
  cases hd : isDir m.fs.disk i with
  | false => exact test_file ht hi hd
  | true =>
    have hp := ht.consistent.isDirectory hi hd
    unfold testDirectory at hz
    rw [show scratch = syscall Op.scratch from rfl, always_syscall_bind] at hz
    replace hz := hz.2
    dsimp only at hz
    rw [always_syscall_bind] at hz
    have hparent : (testRequest i (m.user 0)).parentInode.toNat = i :=
      listRequest_parent hi fun _ => 0
    have hone : iBlocks (slot m.next.fs.disk i) = 1 := orderly_list hz.1 hparent hp
    exact test_one ht hp hone

theorem copyDirRecursive_refused (ht : Tree m.fs)
    (hno : ¬ Creates (ioRequest q name (fun _ => 0) 0 true) m.fs.disk)
    (hz : Program.Always answer Orderly (copyDirRecursive depth s srcName q name) m)
    (hrun : Program.run answer (copyDirRecursive depth s srcName q name) m = (some code, m')) :
    code ≠ 0 := by
  cases depth with
  | zero =>
    rw [copyDirRecursive, Program.run_stuck] at hrun
    cases (Prod.mk.inj hrun).1
  | succ k =>
    rw [copyDirRecursive, always_syscall_bind] at hz
    rw [copyDirRecursive, run_syscall_bind, if_pos (answer_refused ht hz.1 hno),
      Program.run_pure] at hrun
    obtain rfl := Option.some.inj (Prod.mk.inj hrun).1
    decide

/-- Below `cp` and `mv`: copy a directory, or a file. -/
def copyAny (depth p : Nat) (source destination : List UInt8) (isDirectory : Bool) :
    Program Op Op.Reply Int :=
  if isDirectory = true then copyDirRecursive depth p source p destination
  else copyFile p source p destination

/-- A copy outside of `/bin` makes safe calls. -/
theorem copyAny_safe (h : HasBin m.fs) (hp : IsInode p) (h2 : p ≠ 2) (hname : IsString name)
    {b : Bool} (hz : Program.Always answer Orderly (copyAny depth p srcName name b) m) :
    Program.Always answer (fun c m => Safe c m ∧ NoDelete c m)
      (copyAny depth p srcName name b) m := by
  unfold copyAny at hz ⊢
  split
  · rename_i hb
    rw [if_pos hb] at hz
    exact copyDirRecursive_safe h hp hname (fun he => absurd he h2) hz
  · rename_i hb
    rw [if_neg hb] at hz
    exact copyFile_safe hp hname (fun he => absurd he h2) hz

/-- A copy that is refused makes safe calls in `/bin` too, and fails. -/
theorem copyAny_refused (h : HasBin m.fs) (hp : IsDirectory m.fs.disk p) (hname : IsString name)
    (hfirst : (entries m.fs.disk p).find? (fun a => a.name == e.name) = some e) (h2 : e.inode ≠ 2)
    (href : RefusesCopy m.fs.disk p e.name name dirs)
    (hdirs : isDir m.fs.disk e.inode = true → dirs = true)
    (hz : Program.Always answer Orderly
      (copyAny depth p e.name name (isDir m.fs.disk e.inode)) m) :
    Program.Always answer Safe (copyAny depth p e.name name (isDir m.fs.disk e.inode)) m ∧
      ∀ code m', Program.run answer (copyAny depth p e.name name (isDir m.fs.disk e.inode)) m =
        (some code, m') → code ≠ 0 := by
  have hm := List.mem_of_find?_eq_some hfirst
  obtain ⟨hfile, hdir⟩ := href e hfirst h2
  obtain ⟨hei, heu, -⟩ := h.tree.sound.noDangling.entry p hp e hm
  unfold copyAny at hz ⊢
  cases hd : isDir m.fs.disk e.inode with
  | true =>
    rw [hd, if_pos rfl] at hz
    rw [if_pos rfl]
    have hno := hdir ((h.tree.sound.noDangling.isDir_iff hp hm).mp ⟨hei, heu, hd⟩) (hdirs hd)
    exact ⟨(copyDirRecursive_safe h hp.isInode hname (fun _ => hno) hz).mono fun _ _ hc => hc.1,
      fun code m' hrun => copyDirRecursive_refused h.tree hno hz hrun⟩
  | false =>
    rw [hd, if_neg (by decide)] at hz
    rw [if_neg (by decide)]
    have h1 : e.fileType = 1 := by
      refine (h.tree.fileType hp hm).resolve_right fun h2' => ?_
      have := ((h.tree.sound.noDangling.isDir_iff hp hm).mpr h2').dir
      rw [hd] at this
      cases this
    rcases hfile h1 with hbig | hno
    · have hans := answer_read h.tree hp hfirst h1
      rw [if_pos hbig] at hans
      obtain ⟨hrun, -⟩ := @copyFile_read m p p e name Orderly h.tree hp hfirst h1
      refine ⟨?_, fun code m' hrun' => ?_⟩
      · unfold copyFile
        rw [show scratch = syscall Op.scratch from rfl, always_syscall_bind]
        refine ⟨trivial, ?_⟩
        rw [show answer Op.scratch m = (m.user 0, m.next) from rfl]
        dsimp only
        rw [always_syscall_bind, hans]
        dsimp only
        rw [if_pos (by decide)]
        exact ⟨trivial, Program.always_pure _ _⟩
      · obtain ⟨rfl, -⟩ := Program.run_eq hrun' (hrun hbig)
        decide
    · refine ⟨(copyFile_safe hp.isInode hname (fun _ => hno) hz).mono fun _ _ hc => hc.1,
        fun code m' hrun' => ?_⟩
      rcases copyFile_outcome h.tree hp hp hfirst h1 (fun _ _ hc => hc) hz hrun' with
        ⟨hne, -⟩ | ⟨-, ⟨-, hcr⟩, -⟩
      · exact hne
      · exact absurd hcr hno

end Refused

/-! ## The commands make safe calls -/

section Commands

variable {m m' : Machine} {p depth : Nat} {e : Entry} {name target : List UInt8}
  {argv L : List (List UInt8)}

theorem isString_getD (h : ∀ arg ∈ argv, IsString arg) (k : Nat) : IsString (argv.getD k []) := by
  by_cases hk : k < argv.length
  · rw [List.getD_eq_getElem _ _ hk]
    exact h _ (List.getElem_mem hk)
  · rw [List.getD_eq_default _ _ (not_lt.mp hk)]
    exact List.not_mem_nil

/-- One `write` outside of `/bin`. -/
theorem writes_safe {buf : Mem} {n : UInt32} {dir : Bool} {α : Type} {a : Int → α}
    (hp : IsInode p) (h2 : p ≠ 2) (hname : IsString name)
    (hz : Program.Always answer Orderly (do
      let code ← syscall (.write (ioRequest p name buf n dir))
      pure (a code)) m) :
    Program.Always answer Safe (do
      let code ← syscall (.write (ioRequest p name buf n dir))
      pure (a code)) m := by
  rw [always_syscall_bind] at hz ⊢
  exact ⟨(write_safe hp hname hz.1 fun he => absurd he h2).1, Program.always_pure _ _⟩

theorem mkdir_safe (hp : IsInode p) (hargs : ∀ arg ∈ argv, IsString arg)
    (hz : Program.Always answer Orderly (mkdir p argv) m) :
    Program.Always answer Safe (mkdir p argv) m := by
  unfold mkdir at hz ⊢
  split
  · exact Program.always_pure _ _
  rename_i h2
  rw [if_neg h2] at hz
  split at hz
  · rename_i dirname _
    have hname : IsString dirname := hargs dirname (by simp)
    exact @writes_safe m p dirname (fun _ => 0) 0 true _ _ hp h2 hname hz
  · exact Program.always_pure _ _

theorem touch_safe (hp : IsInode p) (hargs : ∀ arg ∈ argv, IsString arg)
    (hz : Program.Always answer Orderly (touch p argv) m) :
    Program.Always answer Safe (touch p argv) m := by
  unfold touch at hz ⊢
  split
  · exact Program.always_pure _ _
  rename_i h2
  split
  · exact Program.always_pure _ _
  rename_i hlen
  rw [if_neg h2, if_neg hlen] at hz
  exact writes_safe hp h2 (isString_getD hargs 1) hz

theorem echo_safe (hp : IsInode p) (hargs : ∀ arg ∈ argv, IsString arg)
    (hz : Program.Always answer Orderly (echo p argv) m) :
    Program.Always answer Safe (echo p argv) m := by
  unfold echo at hz ⊢
  split
  · exact Program.always_pure _ _
  rename_i hlen
  rw [if_neg hlen] at hz
  split
  · rename_i h4
    rw [if_pos h4] at hz
    split
    · exact Program.always_pure _ _
    rename_i h2
    rw [if_neg h2] at hz
    split
    · rename_i hredirect
      rw [if_pos hredirect] at hz
      exact writes_safe hp h2 (isString_getD hargs 3) hz
    · exact Program.always_pure _ _
  · exact Program.always_pure _ _

/-- `rm -r` of targets that lead into `S`. -/
theorem removals_safe {S : Nat → Prop} (hS : ¬ S 2) (hp : IsInode p) (h2 : p ≠ 2)
    (h : ∀ target ∈ L, Confined S p target m.fs)
    (hz : Program.Always answer Orderly (L.forM (removeRecursive depth p)) m) :
    Program.Always answer Safe (L.forM (removeRecursive depth p)) m := by
  induction L generalizing m with
  | nil => exact Program.always_pure _ _
  | cons target L ih =>
    rw [Program.forM_cons, Program.always_bind] at hz ⊢
    have hhead := removeRecursive_safe hS (h target List.mem_cons_self) hp h2 hz.1
    exact ⟨hhead.mono fun _ _ hc => hc.1, fun a m₁ hrun => ih
      (fun b hb => run_confined (h b (List.mem_cons_of_mem _ hb)) hhead hrun) (hz.2 a m₁ hrun)⟩

/-- The number of records in the first block of a directory that is kept. -/
theorem firstCount_eq {fs fs' : Fs} (h : Intact fs.disk fs'.disk p) (ht : Tree fs)
    (hp : IsDirectory fs.disk p) : firstCount fs'.disk p = firstCount fs.disk p := by
  obtain ⟨-, -, -, post, -, -, hbs, -⟩ := ht.first_block hp
  have hm : iBlock (slot fs.disk p) 0 ∈ reach fs.disk p := by
    rw [reach_of_dir hp.dir, hbs]
    exact List.mem_cons_self
  unfold firstCount
  rw [h.node, h.blocks _ hm]

/-- `/bin` does not pass for empty, or no entry that is deleted by this name leads to it. -/
def Keeps (p : Nat) (target : List UInt8) (d : Disk) : Prop :=
  2 < firstCount d 2 ∨ LinkGraph.All (fun q a => q = p →
    a.name = requestName (deleteRequest p target true) → a.inode ≠ 2) (graphOf d)

theorem answer_keeps {c : Op} (h : HasBin m.fs) (hk : Keeps p target m.fs.disk) (hok : Safe c m)
    (hno : NoWrite c m) : Keeps p target (answer c m).2.fs.disk := by
  rcases hk with hcount | hall
  · apply Or.inl
    rwa [firstCount_eq (answer_safe h hok).2.node h.tree h.bin]
  · apply Or.inr
    cases c with
    | scratch => exact hall
    | read request => exact hall
    | readDirectory request => exact hall
    | write request => exact hno.elim
    | delete request => exact (enter_tree h.tree).all_delete hok.1 hall

theorem removeTarget_safe (h : HasBin m.fs) (hp : IsInode p) (h2 : p ≠ 2)
    (hk : Keeps p target m.fs.disk) (hz : Program.Always answer Orderly (removeTarget p target) m) :
    Program.Always answer (fun c m => Safe c m ∧ NoWrite c m) (removeTarget p target) m := by
  have hparent := fun dir => deleteRequest_parent hp target dir
  unfold removeTarget at hz ⊢
  rw [always_syscall_bind] at hz ⊢
  have hfile : Safe (.delete (deleteRequest p target false)) m ∧
      NoWrite (.delete (deleteRequest p target false)) m := by
    refine ⟨⟨hz.1, fun e he => ⟨by rw [hparent]; exact h2, fun h0 => ?_⟩⟩, trivial⟩
    have hd := (h.tree.sound.noDangling.isDir_iff he.parent (firstNamed_mem he.first).1).mp
      (h0 ▸ h.bin)
    have h1 := he.file rfl
    omega
  refine ⟨hfile, ?_⟩
  have h₁ := (answer_safe h hfile.1).1
  have hk₁ := answer_keeps h hk hfile.1 hfile.2
  replace hz := hz.2
  generalize answer (.delete (deleteRequest p target false)) m = r at hz h₁ hk₁ ⊢
  obtain ⟨code, m₁⟩ := r
  dsimp only at hz h₁ hk₁ ⊢
  split
  · rename_i hcode
    rw [if_pos hcode, always_syscall_bind] at hz
    rw [always_syscall_bind]
    refine ⟨⟨⟨hz.1, fun e he => ⟨by rw [hparent]; exact h2, fun h0 => ?_⟩⟩, trivial⟩,
      Program.always_pure _ _⟩
    rcases hk₁ with hcount | hall
    · -- the kernel's test finds more than two records
      have hempty := (he.empty rfl).2
      rw [h0, (enter_tree h₁.tree).shaped.isDirectoryEmpty_eq h₁.bin] at hempty
      exact absurd hempty.1 (not_le.mpr hcount)
    · obtain ⟨hm, hname⟩ := firstNamed_mem he.first
      exact hall _ he.parent e (by rwa [graphOf_links]) (hparent true) hname h0
  · exact Program.always_pure _ _

/-- `rm` without `-r`. -/
theorem targets_safe (h : HasBin m.fs) (hp : IsInode p) (h2 : p ≠ 2)
    (hk : ∀ target ∈ L, Keeps p target m.fs.disk)
    (hz : Program.Always answer Orderly (L.forM (removeTarget p)) m) :
    Program.Always answer Safe (L.forM (removeTarget p)) m := by
  induction L generalizing m with
  | nil => exact Program.always_pure _ _
  | cons target L ih =>
    rw [Program.forM_cons, Program.always_bind] at hz ⊢
    have hhead := removeTarget_safe h hp h2 (hk target List.mem_cons_self) hz.1
    refine ⟨hhead.mono fun _ _ hc => hc.1, fun a m₁ hrun => ?_⟩
    have hstep : ∀ c (m₂ : Machine), (HasBin m₂.fs ∧ ∀ b ∈ L, Keeps p b m₂.fs.disk) →
        Safe c m₂ ∧ NoWrite c m₂ →
        HasBin (answer c m₂).2.fs ∧ ∀ b ∈ L, Keeps p b (answer c m₂).2.fs.disk := by
      rintro c m₂ ⟨hb₂, hk₂⟩ ⟨hsafe, hno⟩
      exact ⟨(answer_safe hb₂ hsafe).1, fun b hb => answer_keeps hb₂ (hk₂ b hb) hsafe hno⟩
    have hrest : ∀ b ∈ L, Keeps p b m.fs.disk := fun b hb => hk b (List.mem_cons_of_mem _ hb)
    have hinv := Program.Always.invariant (I := fun m => HasBin m.fs ∧ ∀ b ∈ L, Keeps p b m.fs.disk)
      hhead hstep ⟨h, hrest⟩
    rw [hrun] at hinv
    exact ih hinv.1 hinv.2 (hz.2 a m₁ hrun)

/-- What lies below the entries of the name, and below others. -/
theorem confined_under {fs : Fs} (h : HasBin fs) {T : Nat → Prop}
    (hT : ∀ a ∈ entries fs.disk p, a.name = target → T a.inode) :
    Confined (fun j => ∃ u, T u ∧ Under fs.disk u j) p target fs := by
  refine ⟨h, fun q hq a ha => ⟨?_, ?_⟩⟩
  · rintro ⟨u, hu, hj⟩ hP
    exact ⟨u, hu, hj.tail ⟨hq, a, ha, hP, rfl⟩⟩
  · rintro rfl hname
    rw [graphOf_links] at ha
    exact ⟨a.inode, hT a ha hname, Relation.ReflTransGen.refl⟩

theorem rm_safe (h : HasBin m.fs) (hp : IsInode p) (hcond : Command.rm.SparesBin m.fs.disk p argv)
    (hz : Program.Always answer Orderly (rm depth p argv) m) :
    Program.Always answer Safe (rm depth p argv) m := by
  unfold rm at hz ⊢
  split
  · exact Program.always_pure _ _
  rename_i h2
  rw [if_neg h2] at hz
  replace hcond := hcond.resolve_left h2
  split
  · exact Program.always_pure _ _
  rename_i hlen
  rw [if_neg hlen] at hz
  split
  · exact Program.always_pure _ _
  rename_i hargs
  rw [if_neg hargs] at hz
  split
  · rename_i hrec
    rw [if_pos hrec] at hz hcond
    let T : Nat → Prop := fun u => ∃ target ∈ argv.drop (startIndex argv),
      ∃ e ∈ entries m.fs.disk p, e.name = target ∧ e.inode = u
    refine removals_safe (S := fun j => ∃ u, T u ∧ Under m.fs.disk u j) ?_ hp h2
      (fun target ht => ?_) hz
    · rintro ⟨u, ⟨target, ht, e, he, hname, rfl⟩, hu⟩
      exact hcond target ht e he hname hu
    · exact confined_under h fun a ha hname => ⟨target, ht, a, ha, hname, rfl⟩
  · rename_i hrec
    rw [if_neg hrec] at hz hcond
    refine targets_safe h hp h2 (fun target ht => hcond.imp id fun hno q _ a ha hq hname => ?_) hz
    subst hq
    rw [graphOf_links] at ha
    exact hno target ht a ha hname

/-- In an orderly listing of a directory. -/
theorem lookup_dir (ht : Tree m.fs) (hp : IsDirectory m.fs.disk p)
    (hz : Program.Always answer Orderly (getInodeByName p name) m) :
    Program.run answer (getInodeByName p name) m =
      (some (((entries m.fs.disk p).find? fun a => a.name == name).elim 0 Entry.inode),
        m.enter) := by
  have hparent : (listRequest p fun _ => 0).parentInode.toNat = p :=
    listRequest_parent hp.isInode fun _ => 0
  unfold getInodeByName at hz
  rw [always_syscall_bind] at hz
  rw [run_lookup ht hp, lookupInode_one ht hp (orderly_list hz.1 hparent hp)]

/-- An entry of the name is found. -/
theorem lookup_ne_zero (ht : Tree m.fs) (hp : IsDirectory m.fs.disk p)
    (he : e ∈ entries m.fs.disk p) (hname : e.name = name) :
    ((entries m.fs.disk p).find? fun a => a.name == name).elim 0 Entry.inode ≠ 0 := by
  cases hfind : (entries m.fs.disk p).find? fun a => a.name == name with
  | none => exact absurd (beq_iff_eq.mpr hname) (List.find?_eq_none.mp hfind e he)
  | some a =>
    have ha := (ht.sound.noDangling.entry p hp a (List.mem_of_find?_eq_some hfind)).1.1
    rw [Option.elim_some]
    omega

/-- The two branches of `cp` are one copy. -/
theorem cp_copy (depth p : Nat) (source destination : List UInt8) (b : Bool) :
    (if b = true then do
      let code ← copyDirRecursive depth p source p destination
      pure (decide (code = 0))
    else do
      let code ← copyFile p source p destination
      pure (decide (code = 0)) : Program Op Op.Reply Bool) =
      copyAny depth p source destination b >>= fun code => pure (decide (code = 0)) := by
  unfold copyAny
  cases b <;> rfl

theorem cp_safe (h : HasBin m.fs) (hp : IsDirectory m.fs.disk p)
    (hargs : ∀ arg ∈ argv, IsString arg) (hcond : Command.cp.SparesBin m.fs.disk p argv)
    (hz : Program.Always answer Orderly (cp depth p argv) m) :
    Program.Always answer Safe (cp depth p argv) m := by
  have hread : ∀ m, Safe .scratch m ∧ ∀ request, Safe (.readDirectory request) m :=
    fun _ => ⟨trivial, fun _ => trivial⟩
  unfold cp at hz ⊢
  split
  · exact Program.always_pure _ _
  rename_i h3
  split
  · exact Program.always_pure _ _
  rename_i h4
  rw [if_neg h3, if_neg h4, Program.always_bind] at hz
  replace hcond := (hcond.resolve_left h3).resolve_left h4
  have hget := lookup_dir h.tree hp hz.1
  replace hz := hz.2 _ _ hget
  refine (Program.always_bind_some hget).mpr ⟨getInodeByName_quiet fun m => (hread m).2, ?_⟩
  cases hfind : (entries m.fs.disk p).find? fun a => a.name == source argv with
  | none => exact Program.always_pure _ _
  | some e =>
    rw [hfind] at hz
    rw [Option.elim_some] at hz ⊢
    have hm := List.mem_of_find?_eq_some hfind
    have hname : e.name = source argv := by simpa using List.find?_some hfind
    split
    · exact Program.always_pure _ _
    rename_i h0
    split
    · exact Program.always_pure _ _
    rename_i h2
    rw [if_neg h0, if_neg h2, Program.always_bind] at hz
    have h₁ : HasBin m.enter.fs := h.withStack _
    have h₂ : HasBin m.enter.next.enter.fs := h₁.withStack _
    obtain ⟨hei, -, -⟩ := h.tree.sound.noDangling.entry p hp e hm
    have htest := test_orderly h₁.tree hei hz.1
    replace hz := hz.2 _ _ htest
    refine (Program.always_bind_some htest).mpr ⟨testDirectory_quiet hread, ?_⟩
    split
    · exact Program.always_pure _ _
    rename_i hrec
    rw [if_neg hrec] at hz
    have hdst : IsString (destination argv) := isString_getD hargs _
    rw [cp_copy, Program.always_bind] at hz ⊢
    refine ⟨?_, fun _ _ _ => Program.always_pure _ _⟩
    rcases hcond with hp2 | href
    · exact (copyAny_safe h₂ hp.isInode hp2 hdst hz.1).mono fun _ _ hc => hc.1
    · rw [← hname] at hfind href hz ⊢
      refine (@copyAny_refused m.enter.next.enter p depth e
        (destination argv) _ h₂ hp hdst hfind h2 href (fun hd => ?_) hz.1).1
      by_contra hr
      exact hrec ⟨hd, Bool.eq_false_iff.mpr hr⟩

/-- What a move may reach while it copies: the inodes that are free lie in `S` as well. -/
structure Copying (S : Nat → Prop) (p : Nat) (name : List UInt8) (fs : Fs) : Prop
    extends Confined S p name fs where
  dir : IsDirectory fs.disk p
  free : ∀ j, IsInode j → inodeUsed fs.disk j = false → S j

/-- Copies keep this. -/
theorem answer_copying {S : Nat → Prop} {c : Op} (h : Copying S p name m.fs) (hok : Safe c m)
    (hno : NoDelete c m) : Copying S p name (answer c m).2.fs := by
  have hbin := (answer_safe h.toHasBin hok).1
  cases c with
  | scratch => exact h
  | read request => exact ⟨⟨hbin, h.links⟩, h.dir, h.free⟩
  | readDirectory request => exact ⟨⟨hbin, h.links⟩, h.dir, h.free⟩
  | delete request => exact hno.elim
  | write request =>
    obtain ⟨hcare, -, -⟩ := hok
    have hlinks : LinkGraph.All (LeadsInto S p name)
        (graphOf (answer (.write request) m).2.fs.disk) :=
      (enter_tree h.tree).all_write hcare h.links fun i hi hu => by
        refine ⟨⟨fun _ _ => h.free i hi hu, fun _ _ => h.free i hi hu⟩, fun a ha =>
          ⟨fun _ hP => absurd hP (not_proper_dot a ha), ?_⟩⟩
        rintro rfl
        have := h.dir.used
        rw [show inodeUsed m.fs.disk i = false from hu] at this
        cases this
    refine ⟨⟨hbin, hlinks⟩, (answer_isDirectory (c := .write request) h.tree hcare).2 p h.dir,
      fun j hj hu => h.free j hj (Bool.eq_false_iff.mpr fun hu' => ?_)⟩
    -- what is in use stays in use
    rcases answer_write h.tree hcare with ⟨code, m₁, -, hans, -, hq⟩ | ⟨m₁, i, hans, -, -, -, hadd⟩
    · rw [hans] at hu
      rw [hq.inodes j hj] at hu
      exact absurd hu' (Bool.eq_false_iff.mp hu)
    · rw [hans] at hu
      exact absurd ((hadd.grafted.used j hj).mpr (Or.inl hu')) (Bool.eq_false_iff.mp hu)

/-- What follows the copy. -/
def moveRest (depth p : Nat) (source : List UInt8) (isDirectory : Bool) (copyResult : Int) :
    Program Op Op.Reply Unit :=
  if copyResult = 0 then
    if isDirectory = true then removeRecursive depth p source
    else do
      let _ ← syscall (.delete (deleteRequest p source false))
      pure ()
  else pure ()

theorem moveTo_eq (depth p : Nat) (source destination : List UInt8) (b : Bool) :
    moveTo depth p source destination b =
      copyAny depth p source destination b >>= moveRest depth p source b := by
  cases b <;> rfl

/-- The source that is copied and removed lies in `S`. -/
theorem moveTo_safe {S : Nat → Prop} (hS : ¬ S 2) (h : Copying S p name m.fs) (h2 : p ≠ 2)
    (hstring : IsString target) {b : Bool}
    (hz : Program.Always answer Orderly (moveTo depth p name target b) m) :
    Program.Always answer Safe (moveTo depth p name target b) m := by
  rw [moveTo_eq, Program.always_bind] at hz ⊢
  obtain ⟨hcopy, hrest⟩ := hz
  have hp := h.dir.isInode
  have hsafe := copyAny_safe h.toHasBin hp h2 hstring hcopy
  refine ⟨hsafe.mono fun _ _ hc => hc.1, fun code m₁ hrun => ?_⟩
  have h₁ : Copying S p name m₁.fs := by
    have hinv := Program.Always.invariant (I := fun m => Copying S p name m.fs) hsafe
      (fun c m₂ hm₂ hc => answer_copying hm₂ hc.1 hc.2) h
    rwa [hrun] at hinv
  replace hrest := hrest code m₁ hrun
  unfold moveRest at hrest ⊢
  split
  · rename_i hcode
    rw [if_pos hcode] at hrest
    split
    · rename_i hb
      rw [if_pos hb] at hrest
      exact (removeRecursive_safe hS h₁.toConfined hp h2 hrest).mono fun _ _ hc => hc.1
    · rename_i hb
      rw [if_neg hb, always_syscall_bind] at hrest
      rw [always_syscall_bind]
      exact ⟨(delete_safe h₁.toConfined hS hp h2 hrest.1 fun hdir => by cases hdir).1,
        Program.always_pure _ _⟩
  · exact Program.always_pure _ _

/-- A copy that is refused ends a move. -/
theorem moveTo_refused (h : HasBin m.fs) (hp : IsDirectory m.fs.disk p) (hstring : IsString target)
    (hfirst : (entries m.fs.disk p).find? (fun a => a.name == e.name) = some e) (h2 : e.inode ≠ 2)
    (href : RefusesCopy m.fs.disk p e.name target true)
    (hz : Program.Always answer Orderly
      (moveTo depth p e.name target (isDir m.fs.disk e.inode)) m) :
    Program.Always answer Safe (moveTo depth p e.name target (isDir m.fs.disk e.inode)) m := by
  rw [moveTo_eq, Program.always_bind] at hz ⊢
  obtain ⟨hsafe, hfail⟩ := copyAny_refused h hp hstring hfirst h2 href (fun _ => rfl) hz.1
  refine ⟨hsafe, fun code m₁ hrun => ?_⟩
  unfold moveRest
  rw [if_neg (hfail code m₁ hrun)]
  exact Program.always_pure _ _

/-- When a move starts, `S` is what lies below the source, and what is free. -/
theorem copying_start (h : HasBin m.fs) (hp : IsDirectory m.fs.disk p) : Copying
    (fun j => (∃ e ∈ entries m.fs.disk p, e.name = name ∧ Under m.fs.disk e.inode j) ∨
      inodeUsed m.fs.disk j = false) p name m.fs := by
  refine ⟨⟨h, fun q hq a ha => ⟨fun hqS hP => ?_, ?_⟩⟩, hp, fun j _ hu => Or.inr hu⟩
  · rcases hqS with ⟨e, he, hname, hj⟩ | hu
    · exact Or.inl ⟨e, he, hname, hj.tail ⟨hq, a, ha, hP, rfl⟩⟩
    · have hused : inodeUsed m.fs.disk q = true := (show IsDirectory m.fs.disk q from hq).used
      rw [hu] at hused
      cases hused
  · rintro rfl hname
    rw [graphOf_links] at ha
    exact Or.inl ⟨a, ha, hname, Relation.ReflTransGen.refl⟩

theorem mv_safe (h : HasBin m.fs) (hp : IsDirectory m.fs.disk p)
    (hargs : ∀ arg ∈ argv, IsString arg) (hcond : Command.mv.SparesBin m.fs.disk p argv)
    (hz : Program.Always answer Orderly (mv depth p argv) m) :
    Program.Always answer Safe (mv depth p argv) m := by
  have hread : ∀ m, Safe .scratch m ∧ ∀ request, Safe (.readDirectory request) m :=
    fun _ => ⟨trivial, fun _ => trivial⟩
  have h₁ : HasBin m.enter.fs := h.withStack _
  have h₂ : HasBin m.enter.enter.fs := h₁.withStack _
  have h₃ : HasBin m.checked.fs := h₂.withStack _
  unfold mv at hz ⊢
  split
  · exact Program.always_pure _ _
  rename_i h3
  replace hcond := hcond.resolve_left h3
  rw [if_neg h3, Program.always_bind] at hz
  have hsrc := lookup_dir h.tree hp hz.1
  replace hz := hz.2 _ _ hsrc
  refine (Program.always_bind_some hsrc).mpr ⟨getInodeByName_quiet fun m => (hread m).2, ?_⟩
  cases hfind : (entries m.fs.disk p).find? fun a => a.name == argv.getD 1 [] with
  | none => exact Program.always_pure _ _
  | some e =>
  rw [hfind] at hz
  rw [Option.elim_some] at hz ⊢
  have hm := List.mem_of_find?_eq_some hfind
  have hname : e.name = argv.getD 1 [] := by simpa using List.find?_some hfind
  obtain ⟨hei, -, -⟩ := h.tree.sound.noDangling.entry p hp e hm
  split
  · exact Program.always_pure _ _
  rename_i h0
  rw [if_neg h0, Program.always_bind] at hz
  have hdst := @lookup_dir m.enter p _ h₁.tree hp hz.1
  replace hz := hz.2 _ _ hdst
  refine (Program.always_bind_some hdst).mpr ⟨getInodeByName_quiet fun m => (hread m).2, ?_⟩
  split
  · exact Program.always_pure _ _
  rename_i hfree
  rw [if_neg hfree] at hz
  split
  · exact Program.always_pure _ _
  rename_i h2
  rw [if_neg h2, Program.always_bind] at hz
  have htest := test_orderly h₂.tree hei hz.1
  replace hz := hz.2 _ _ htest
  refine (Program.always_bind_some htest).mpr ⟨testDirectory_quiet hread, ?_⟩
  have hstring : IsString (argv.getD 2 []) := isString_getD hargs 2
  rcases hcond with ⟨hp2, haway⟩ | ⟨e', he', hname'⟩ | href
  · refine moveTo_safe ?_ (@copying_start m.checked p (argv.getD 1 []) h₃ hp) hp2 hstring hz
    rintro (⟨e', he', hname', hu⟩ | hu)
    · exact haway e' he' hname' hu
    · have hused := h.bin.used
      rw [show inodeUsed m.fs.disk 2 = false from hu] at hused
      cases hused
  · -- the destination is there
    rw [enter_disk] at hfree
    exact absurd (lookup_ne_zero h.tree hp he' hname') hfree
  · rw [← hname] at hfind href hz ⊢
    exact @moveTo_refused m.checked p depth e (argv.getD 2 []) h₃ hp hstring hfind h2 href hz

end Commands

/-! ## Sequences of commands -/

/-- The machine runs one command to its end: in a directory, with strings, careful, and with no way
    to `/bin`. -/
def Issues (m m' : Machine) : Prop :=
  ∃ (c : Command) (depth p : Nat) (argv : List (List UInt8)), IsDirectory m.fs.disk p ∧
    (∀ arg ∈ argv, IsString arg) ∧ c.SparesBin m.fs.disk p argv ∧
    Program.Always answer Orderly (c.program depth p argv) m ∧
    Program.run answer (c.program depth p argv) m = (some (), m')

section Sequences

variable {m m' : Machine} {p depth : Nat} {argv : List (List UInt8)}

/-- Each command makes safe calls only. -/
theorem Command.safe (c : Command) (h : HasBin m.fs) (hp : IsDirectory m.fs.disk p)
    (hargs : ∀ arg ∈ argv, IsString arg) (hcond : c.SparesBin m.fs.disk p argv)
    (hz : Program.Always answer Orderly (c.program depth p argv) m) :
    Program.Always answer Safe (c.program depth p argv) m := by
  cases c with
  | mkdir =>
    have hcall := (Program.always_bind.mp hz).1
    exact Program.always_bind.mpr ⟨mkdir_safe hp.isInode hargs hcall,
      fun _ _ _ => Program.always_pure _ _⟩
  | touch => exact touch_safe hp.isInode hargs hz
  | echo => exact echo_safe hp.isInode hargs hz
  | rm => exact rm_safe h hp.isInode hcond hz
  | cp =>
    have hcall := (Program.always_bind.mp hz).1
    exact Program.always_bind.mpr ⟨cp_safe h hp hargs hcond hcall,
      fun _ _ _ => Program.always_pure _ _⟩
  | mv => exact mv_safe h hp hargs hcond hz

/-- One command keeps `/bin`. -/
theorem HasBin.issues (h : HasBin m.fs) (hrun : Issues m m') :
    HasBin m'.fs ∧ Spared m.fs.disk m'.fs.disk 2 := by
  obtain ⟨c, depth, p, argv, hp, hargs, hcond, hz, hrun⟩ := hrun
  exact run_safe h (c.safe h hp hargs hcond hz) hrun

/-- And so do all. -/
theorem HasBin.sequence (h : HasBin m.fs) (hrun : Relation.ReflTransGen Issues m m') :
    HasBin m'.fs ∧ Spared m.fs.disk m'.fs.disk 2 := by
  induction hrun with
  | refl => exact ⟨h, Spared.refl _ _⟩
  | tail _ hstep ih =>
    obtain ⟨h₁, hs₁⟩ := ih
    obtain ⟨h₂, hs₂⟩ := h₁.issues hstep
    exact ⟨h₂, hs₁.trans hs₂ h.bin⟩

end Sequences

/-! ## `shell` in `/bin` -/

/-- In the file system with `shell` in `/bin`, the directories are the root and `/bin`. -/
theorem hasBin_shellFs : HasBin shellFs := by
  obtain ⟨h, hbin, hfile, b, hb⟩ := shellFs_root
  generalize shellFs = fs at h hbin hfile hb ⊢
  have h1 : entries fs.disk 1 = live _ := h.entries_eq
  have h2 : entries fs.disk 2 = live _ := hb.entries_eq
  refine ⟨h.tree, hbin, fun p hp a ha => ?_⟩
  -- the inodes in use are 1, 2 and 3, and 3 is a file
  rw [graphOf_links] at ha
  have hd : IsDirectory fs.disk p := hp
  have hused := hd.used
  rw [h.inodes p hd.isInode] at hused
  have hp3 : p = 3 ∨ p = 2 ∨ p = 1 := by simpa using of_decide_eq_true hused
  have hall : ∀ a ∈ live [(⟨0, 1, 12, [46], 2⟩ : Rec), ⟨12, 1, 12, [46, 46], 2⟩,
      ⟨24, 2, 488, [98, 105, 110], 2⟩], 0 ∉ a.name := by decide
  have hall' : ∀ a ∈ live [(⟨0, 2, 12, [46], 2⟩ : Rec), ⟨12, 1, 12, [46, 46], 2⟩,
      ⟨24, 3, 488, [115, 104, 101, 108, 108], 1⟩], 0 ∉ a.name := by decide
  rcases hp3 with rfl | rfl | rfl
  · exact absurd hd hfile
  · exact hall' a (h2 ▸ ha)
  · exact hall a (h1 ▸ ha)

/-- `rm -r bin` from the root takes `/bin` away. -/
theorem rm_removes_bin : HasBin shellFs ∧ ∃ depth m', Program.run answer
    (Command.rm.program depth 1 [[114, 109], [45, 114], [98, 105, 110]]) (Machine.zeros shellFs) =
      (some (), m') ∧ ¬ IsDirectory m'.fs.disk 2 := by
  have hbin := hasBin_shellFs
  have hr := removable_shell
  refine ⟨hbin, ?_⟩
  generalize shellFs = fs at hbin hr ⊢
  have ht := hbin.tree
  obtain ⟨n, htall⟩ := ht.tall
  obtain ⟨m', hrun, -, A, B, -, -, hpruned⟩ := @removeRecursive_run (Machine.zeros fs) 1 _ n ht
    ht.sound.noDangling.root hr (htall 2) (zeroBehind_always _ fun _ _ => rfl)
  refine ⟨n + 1, m', ?_, fun hd => ((hpruned.graph.isDir 2).mp hd).2 Relation.ReflTransGen.refl⟩
  show Program.run answer ([[98, 105, 110]].forM (removeRecursive (n + 1) 1)) (Machine.zeros fs) = _
  rw [Program.forM_cons, Program.run_bind_some hrun]
  exact Program.run_pure _ _

/-- `touch a` in the root puts a record behind that of `/bin`. -/
theorem touch_shell : ∃ m₁ used room,
    Program.run answer (Command.touch.program 0 1 [[116], [97]]) (Machine.zeros shellFs) =
      (some (), m₁) ∧
    Issues (Machine.zeros shellFs) m₁ ∧
    RootBlock m₁.fs [⟨0, 1, 12, [46], 2⟩, ⟨12, 1, 12, [46, 46], 2⟩, ⟨24, 2, 12, [98, 105, 110], 2⟩,
      ⟨36, 4, 476, [97], 1⟩] used room := by
  obtain ⟨h, -⟩ := shellFs_root
  generalize shellFs = fs at h ⊢
  have h₁ : RootBlock (Machine.zeros fs).enter.fs _ _ _ := h.withStack _
  obtain ⟨⟨hcare, -⟩, -, -, -, hroot⟩ := h₁.write (ioRequest 1 [97] (fun _ => 0) 0 false)
    [⟨0, 1, 12, [46], 2⟩, ⟨12, 1, 12, [46, 46], 2⟩] 4 rfl (by decide) (by decide) (by decide)
    (by decide) (mem_of_lt (by decide)) (by decide) (by decide)
  have hrun : Program.run answer (Command.touch.program 0 1 [[116], [97]]) (Machine.zeros fs) =
      (some (), (answer (.write (ioRequest 1 [97] (fun _ => 0) 0 false))
        (Machine.zeros fs)).2) := by
    show Program.run answer (syscall (.write (ioRequest 1 [97] (fun _ => 0) 0 false)) >>=
      fun _ => pure ()) (Machine.zeros fs) = _
    rw [run_syscall_bind]
    exact Program.run_pure _ _
  rw [← answer_write_fs] at hroot
  refine ⟨_, _, _, hrun, ⟨.touch, 0, 1, [[116], [97]], h.root, by unfold IsString; decide, trivial,
    ?_, hrun⟩, hroot⟩
  show Program.Always answer Orderly (syscall (.write (ioRequest 1 [97] (fun _ => 0) 0 false)) >>=
    fun _ => pure ()) (Machine.zeros fs)
  rw [always_syscall_bind]
  exact ⟨hcare, Program.always_pure _ _⟩

/-! ## Result -/

/-- In every sequence of commands that are careful and have no way to `/bin`, it stays a directory
    with the same entries, and its files keep their bytes. -/
theorem bin_protected {m m' : Machine} (h : HasBin m.fs)
    (hrun : Relation.ReflTransGen Issues m m') :
    IsDirectory m'.fs.disk 2 ∧ entries m'.fs.disk 2 = entries m.fs.disk 2 ∧
      ∀ e ∈ entries m.fs.disk 2, e.fileType = 1 →
        iSize (slot m'.fs.disk e.inode) = iSize (slot m.fs.disk e.inode) ∧
        ∀ out, LossOs.Ext2.copyFile m'.fs (slot m'.fs.disk e.inode) out =
          LossOs.Ext2.copyFile m.fs (slot m.fs.disk e.inode) out := by
  obtain ⟨h', hs⟩ := h.sequence hrun
  refine ⟨h'.bin, hs.node.entries_eq h.bin, fun e he h1 => ?_⟩
  have hk := hs.files e he h1
  obtain ⟨-, -, hagrees⟩ := h.tree.sound.noDangling.entry 2 h.bin e he
  have hmode : iMode (slot m.fs.disk e.inode) = 0x8000 := by
    rcases hagrees with ⟨-, h0⟩ | ⟨h2, -⟩
    · exact h0
    · omega
  exact ⟨by rw [hk.node], fun out => hk.copyFile_eq hmode out⟩

/-- `touch a` in the root, and then `rm bin`, which is refused. -/
theorem bin_protected_touch_rm : ∃ m₁ m₂,
    Program.run answer (Command.touch.program 0 1 [[116], [97]]) (Machine.zeros shellFs) =
      (some (), m₁) ∧
    Program.run answer (Command.rm.program 0 1 [[114, 109], [98, 105, 110]]) m₁ = (some (), m₂) ∧
    IsDirectory m₂.fs.disk 2 ∧ entries m₂.fs.disk 2 = entries shellFs.disk 2 ∧
    iSize (slot m₂.fs.disk 3) = iSize (slot shellFs.disk 3) ∧
    ∀ out, LossOs.Ext2.copyFile m₂.fs (slot m₂.fs.disk 3) out =
      LossOs.Ext2.copyFile shellFs (slot shellFs.disk 3) out := by
  obtain ⟨m₁, used, room, htouch, hstep, hroot⟩ := touch_shell
  have hbin := hasBin_shellFs
  obtain ⟨h, hdir, -, b, hb⟩ := shellFs_root
  generalize shellFs = fs at htouch hstep hbin h hdir hb ⊢
  -- `/bin` has three records, so it does not pass for empty
  obtain ⟨hbin₁, hspared⟩ := hbin.issues hstep
  have hcount : 2 < firstCount m₁.fs.disk 2 := by
    rw [firstCount_eq hspared.node h.tree hdir]
    unfold firstCount
    rw [show (Machine.zeros fs).fs = fs from rfl,
      (h.tree.consistent.first_block hdir hb.blocks).2.1, hb.records]
    decide
  have hfind : (entries m₁.fs.disk 1).find? (fun a => a.name == [98, 105, 110]) =
      some ⟨[98, 105, 110], 2, 2⟩ := by
    rw [hroot.entries_eq]
    decide
  obtain ⟨code, hcode, hfile⟩ := @answer_delete_dir m₁ 1 ⟨[98, 105, 110], 2, 2⟩ hroot.tree
    hroot.root hfind rfl
  have hkept : isDirectoryEmpty 2 m₁.enter.enter.fs = false := by
    rw [← Bool.not_eq_true, (enter_tree (enter_tree hroot.tree)).shaped.isDirectoryEmpty_eq
      hbin₁.bin]
    exact fun hle => absurd hle.1 (not_le.mpr hcount)
  obtain ⟨hcare, code', hdelete⟩ := @answer_delete_kept m₁.enter 1 ⟨[98, 105, 110], 2, 2⟩
    (enter_tree hroot.tree) hroot.root hfind hkept
  dsimp only at hfile hdelete hcare
  have hrm : Program.run answer (Command.rm.program 0 1 [[114, 109], [98, 105, 110]]) m₁ =
      (some (), m₁.enter.enter) := by
    show Program.run answer ([[98, 105, 110]].forM (removeTarget 1)) m₁ = _
    rw [Program.forM_cons, Program.forM_nil, removeTarget, Program.run_bind_some]
    · exact Program.run_pure _ _
    rw [run_syscall_bind, hfile]
    dsimp only
    rw [if_pos hcode, run_syscall_bind, hdelete]
    exact Program.run_pure _ _
  have hstep₂ : Issues m₁ m₁.enter.enter := by
    refine ⟨.rm, 0, 1, [[114, 109], [98, 105, 110]], hroot.root, by unfold IsString; decide,
      Or.inr (Or.inl hcount), ?_, hrm⟩
    show Program.Always answer Orderly ([[98, 105, 110]].forM (removeTarget 1)) m₁
    rw [Program.forM_cons, Program.forM_nil, Program.always_bind, removeTarget, always_syscall_bind,
      hfile]
    dsimp only
    rw [if_pos hcode, always_syscall_bind]
    exact ⟨⟨careful_file rfl (by decide), hcare, Program.always_pure _ _⟩,
      fun _ _ _ => Program.always_pure _ _⟩
  obtain ⟨hdir₂, hentries, hfiles⟩ := bin_protected hbin ((Relation.ReflTransGen.single hstep).tail
    hstep₂)
  obtain ⟨hsize, hcopy⟩ := hfiles ⟨[115, 104, 101, 108, 108], 3, 1⟩ (by
    rw [show entries (Machine.zeros fs).fs.disk 2 = _ from hb.entries_eq]
    decide) rfl
  exact ⟨m₁, _, htouch, hrm, hdir₂, hentries, hsize, hcopy⟩

end LossOs.Shell
