/-
  `commands/find.c`.

  `find_recursive` prints the path of an entry when its name is the start of the target: only as
  many bytes as the entry's own name has are compared. It puts the path together from what lies at
  the names on the disk, up to a NUL, so that a name that fills its record runs on into the next
  one; it leaves out each directory whose name starts with a dot; and it believes a result
  variable of which the system call has set one byte of four. `find_exactly_iff` says on which
  trees, and for which targets, the paths are still those of the entries of the name.
-/
import LossOs.Lib.Chains
import LossOs.Shell.Mkdir
import LossOs.Shell.PathDisplay
import LossOs.Shell.Rm

namespace LossOs.Shell

open LossOs.Lib LossOs.Ext2

/-! ## The command -/

/-- What `find_recursive` asks for: a listing, or a string on the screen. -/
inductive FindOp where
  | readDirectory (request : EXT2DriverRequest)
  | puts (str : List UInt8) (color : Nat)

abbrev FindOp.Reply : FindOp → Type
  | readDirectory _ => Int × Mem
  | puts _ _ => Unit

/-- The strings that were put on the screen, with their colours. -/
abbrev Screen := List (List UInt8 × Nat)

/-- The machine answers. -/
def answerFind : (c : FindOp) → Machine × Screen → c.Reply × (Machine × Screen)
  | .readDirectory request, (m, screen) => (readDirectory request m.enter.fs, (m.enter, screen))
  | .puts str color, (m, screen) => ((), (m, screen ++ [(str, color)]))

def puts (str : List UInt8) (color : Nat) : Program FindOp FindOp.Reply Unit :=
  Program.perform (FindOp.puts str color)

/-- `"\n\n"`. -/
def finalNewline : List UInt8 := [10, 10]

def folderError : List UInt8 := "Error when appending folder name to path\n\n".toUTF8.toList

def fileError : List UInt8 := "Error when appending file name to path\n\n".toUTF8.toList

def accessError : List UInt8 := "find: cannot access directory\n\n".toUTF8.toList

/-- `append`: -1 when the buffer is too small. -/
def append (dest src : List UInt8) (bufsize : Nat) : Option (List UInt8) :=
  if dest.length + src.length + 1 > bufsize then none else some (dest ++ src)

/-- The string that starts at an address of the buffer; nothing when there is no NUL up to its
    end. -/
def stringFrom (dataBuffer : Mem) (o : Nat) : Option (List UInt8) :=
  if 0 ∈ bytes dataBuffer o (8192 - o) then some (cString (bytes dataBuffer o (8192 - o))) else none

/-- The size of `newPath`. -/
def pathSize (currentPath : List UInt8) (r : Rec) : Nat := currentPath.length + r.name.length + 5

/-- `append(newPath, currentPath) == 0 && append(newPath, entry_name) == 0`. -/
def newPath (currentPath entryName : List UInt8) (r : Rec) : Option (List UInt8) := do
  let path ← append [] currentPath (pathSize currentPath r)
  append path entryName (pathSize currentPath r)

/-- The two strings that are printed for an entry that matches, and what follows. -/
def printPath (target : Mem) (r : Rec) (path : List UInt8)
    (rest : Program FindOp FindOp.Reply Unit) :
    Program FindOp FindOp.Reply Unit :=
  if bytes target 0 r.name.length = r.name then do
    puts path 15
    puts finalNewline 15
    rest
  else rest

section Entries

variable (target : Mem) (recurse : Nat → List UInt8 → Program FindOp FindOp.Reply Unit)
  (currentPath : List UInt8) (dataBuffer : Mem) (r : Rec)

/-- What happens to a directory. -/
def findFolder (entryName : List UInt8) : Program FindOp FindOp.Reply Unit :=
  match newPath currentPath entryName r with
  | none => puts folderError 12
  | some path =>
      let path := (append path [47] (pathSize currentPath r)).getD path
      printPath target r path (recurse r.inode path)

/-- What happens to a file. -/
def findFile (entryName : List UInt8) : Program FindOp FindOp.Reply Unit :=
  match newPath currentPath entryName r with
  | none => puts fileError 12
  | some path => printPath target r path (pure ())

/-- What happens to a record. -/
def findEntry : Program FindOp FindOp.Reply Unit :=
  if r.fileType = 2 ∧ dataBuffer (r.off + 9) ≠ 46 ∧
      ¬ (dataBuffer (r.off + 9) = 46 ∧ dataBuffer (r.off + 9 + 1) = 46) then
    (stringFrom dataBuffer (r.off + 9)).elim Program.stuck
      (findFolder target recurse currentPath r)
  else if r.fileType = 1 then
    (stringFrom dataBuffer (r.off + 9)).elim Program.stuck (findFile target currentPath r)
  else pure ()

end Entries

/-- `find_recursive`, to a depth. A directory is listed once, so it says what the uninitialised
    `ret_code` of its call holds. -/
def findRecursive (target : Mem) (retCodes : Nat → BitVec 32) :
    (depth : Nat) → (parentInode : Nat) →
    (currentPath : List UInt8) → Program FindOp FindOp.Reply Unit
  | 0, _, _ => Program.stuck
  | depth + 1, parentInode, currentPath => do
      let (code, dataBuffer) ← Program.perform
        (FindOp.readDirectory (listRequest parentInode fun _ => 0))
      if storeResult (retCodes parentInode) (BitVec.ofInt 8 code) = 0 then
        (walk dataBuffer 8192 0).forM
          (findEntry target (findRecursive target retCodes depth) currentPath dataBuffer)
      else puts accessError 7

/-- The paths on the screen: what is white and not the end of a line. -/
def paths (screen : Screen) : List (List UInt8) :=
  (screen.filter fun l => l.2 = 15 ∧ l.1 ≠ finalNewline).map Prod.fst

/-! ## What lies at the names -/

/-- The listing of a directory of one block, in a buffer of zeros. -/
def oneListing (d : Disk) (p : Nat) : Mem := fun o =>
  if o < 512 then (d (iBlock (slot d p) 0)).mem o else 0

/-- The string that starts at the name of an entry of directory `p`. -/
def spelling (d : Disk) (p : Nat) (e : Entry) : List UInt8 :=
  (((firstRecords d p).find? fun r => r.inode ≠ 0 ∧ r.entry = e).bind fun r =>
    stringFrom (oneListing d p) (r.off + 9)).getD []

section Spelling

variable {d : Disk} {fs : Fs} {p o n : Nat} {buf : Mem} {s name : List UInt8} {e : Entry} {r : Rec}

theorem listed_one (ht : Tree fs) (hp : IsDirectory fs.disk p) (h1 : iBlocks (slot fs.disk p) = 1) :
    listed fs (fun _ => 0) p = oneListing fs.disk p := by
  have hsize := ht.shaped.size p hp
  rw [h1] at hsize
  funext o
  unfold listed oneListing
  by_cases ho : o < 512
  · rw [blit_of_mem (Nat.zero_le o) (by omega), if_pos ho, Nat.sub_zero, readBlocks_of_lt _ _ ho]
  · rw [blit_of_not_mem (by omega), if_neg ho]

theorem bytes_append (buf : Mem) (o n k : Nat) :
    bytes buf o (n + k) = bytes buf o n ++ bytes buf (o + n) k := by
  unfold bytes
  rw [List.range_add, List.map_append, List.map_map]
  refine congrArg _ (List.map_congr_left fun i _ => ?_)
  rw [Function.comp_apply, Nat.add_assoc]

/-- A string goes on with what lies behind a name that has no NUL. -/
theorem cString_append (h : 0 ∉ name) (s : List UInt8) :
    cString (name ++ s) = name ++ cString s := by
  refine List.takeWhile_append_of_pos fun c hc => decide_eq_true ?_
  rintro rfl
  exact h hc

/-- There is a string when a NUL comes before the end of the buffer. -/
theorem stringFrom_eq {k : Nat} (hk : buf k = 0) (ho : o ≤ k) (hlt : k < 8192) :
    stringFrom buf o = some (cString (bytes buf o (8192 - o))) := by
  refine if_pos (List.mem_map.mpr ⟨k - o, List.mem_range.mpr (by omega), ?_⟩)
  rw [Nat.add_sub_cancel' ho, hk]

theorem eq_of_stringFrom (h : stringFrom buf o = some s) :
    s = cString (bytes buf o (8192 - o)) := by
  unfold stringFrom at h
  split at h
  · exact (Option.some.inj h).symm
  · cases h

theorem zero_notMem_stringFrom (h : stringFrom buf o = some s) : 0 ∉ s := by
  rw [eq_of_stringFrom h]
  intro h0
  unfold cString at h0
  simpa using List.mem_takeWhile_imp h0

/-- It starts with a dot exactly if the first byte is one. -/
theorem head_stringFrom (h : stringFrom buf o = some s) (ho : o < 8192) :
    s.head? = some 46 ↔ buf o = 46 := by
  obtain ⟨k, hk⟩ : ∃ k, 8192 - o = 1 + k := ⟨8191 - o, by omega⟩
  rw [eq_of_stringFrom h, hk, bytes_append]
  show (cString (buf o :: bytes buf (o + 1) k)).head? = some 46 ↔ _
  unfold cString
  by_cases h0 : buf o = 0
  · rw [List.takeWhile_cons_of_neg (by simpa using h0), h0]
    exact iff_of_false (by simp) (by decide)
  · rw [List.takeWhile_cons_of_pos (by simpa using h0), List.head?_cons, Option.some.injEq]

/-- It starts with the name that lies there, if that has no NUL, -/
theorem prefix_stringFrom (h : stringFrom buf o = some s) (hname : bytes buf o name.length = name)
    (hle : o + name.length ≤ 8192) (h0 : 0 ∉ name) : name <+: s := by
  rw [eq_of_stringFrom h, show 8192 - o = name.length + (8192 - o - name.length) by omega,
    bytes_append, hname, cString_append h0]
  exact List.prefix_append _ _

/-- and it is this name if a NUL follows. -/
theorem stringFrom_name (hname : bytes buf o name.length = name) (h0 : 0 ∉ name)
    (hle : o + name.length < 8192) (hend : buf (o + name.length) = 0) :
    stringFrom buf o = some name := by
  obtain ⟨k, hk⟩ : ∃ k, 8192 - o = name.length + (1 + k) :=
    ⟨8191 - o - name.length, by omega⟩
  rw [stringFrom_eq hend (Nat.le_add_right _ _) hle, hk, bytes_append, hname, cString_append h0,
    bytes_append]
  show some (name ++ cString (buf (o + name.length) :: _)) = some name
  rw [hend]
  exact congrArg some (List.append_nil name)

/-- A record in the listing. -/
theorem record_listed (ht : Tree fs) (hp : IsDirectory fs.disk p)
    (h1 : iBlocks (slot fs.disk p) = 1) (hr : r ∈ firstRecords fs.disk p) :
    bytes (oneListing fs.disk p) (r.off + 9) r.name.length = r.name ∧
      r.off + 9 + r.name.length ≤ 512 := by
  have htiles := ht.listed_tiles hp fun _ => 0
  rw [listed_one ht hp h1] at htiles
  obtain ⟨xs, ys, hxy⟩ := List.append_of_mem hr
  rw [hxy] at htiles
  obtain ⟨-, hrec, -, hsize, hys⟩ := htiles.split
  have hname : bytes (oneListing fs.disk p) (r.off + 9)
      (entryNameLen (oneListing fs.disk p) r.off) = r.name := congrArg Rec.name hrec
  have hlen : entryNameLen (oneListing fs.disk p) r.off = r.name.length := by
    rw [← hname, length_bytes]
  rw [hlen] at hname
  have hle := hys.le
  unfold Rec.size at hsize
  exact ⟨hname, by omega⟩

/-- A directory of one block has the entries of its first block. -/
theorem entries_one (ht : Tree fs) (hp : IsDirectory fs.disk p)
    (h1 : iBlocks (slot fs.disk p) = 1) : entries fs.disk p = live (firstRecords fs.disk p) := by
  obtain ⟨rest, heq, hrest⟩ := ht.entries_first hp
  rw [heq, hrest h1, List.append_nil]

/-- What lies at the name of a proper entry is found by its record. -/
theorem spelling_eq (ht : Tree fs) (hp : IsDirectory fs.disk p) (h1 : iBlocks (slot fs.disk p) = 1)
    (hr : r ∈ firstRecords fs.disk p) (h0 : r.inode ≠ 0) (hP : Proper r.entry) :
    stringFrom (oneListing fs.disk p) (r.off + 9) = some (spelling fs.disk p r.entry) := by
  have hpair := ht.sound.once.here p hp
  rw [graphOf_links, entries_one ht hp h1] at hpair
  have hpair' := List.pairwise_map.mp hpair
  have hsymm : Std.Symm fun a b : Rec => Proper a.entry → Proper b.entry →
      a.entry.inode ≠ b.entry.inode := ⟨fun x y hxy hy hx => (hxy hx hy).symm⟩
  have hfind : (firstRecords fs.disk p).find? (fun q => q.inode ≠ 0 ∧ q.entry = r.entry) =
      some r := by
    cases hq : (firstRecords fs.disk p).find? (fun q => q.inode ≠ 0 ∧ q.entry = r.entry) with
    | none => exact absurd (decide_eq_true ⟨h0, rfl⟩) (List.find?_eq_none.mp hq r hr)
    | some q =>
      have hsome := List.find?_some hq
      obtain ⟨hq0, hqr⟩ := of_decide_eq_true hsome
      by_contra hne
      refine hpair'.forall (List.mem_filter.mpr ⟨List.mem_of_find?_eq_some hq, decide_eq_true hq0⟩)
        (List.mem_filter.mpr ⟨hr, decide_eq_true h0⟩) (fun h => hne (congrArg some h))
          (hqr ▸ hP) hP ?_
      rw [hqr]
  have hend : oneListing fs.disk p 600 = 0 := if_neg (by decide)
  obtain ⟨-, hle⟩ := record_listed ht hp h1 hr
  have hsome := stringFrom_eq hend (by omega : r.off + 9 ≤ 600) (by decide)
  unfold spelling
  rw [hfind, Option.bind_some, hsome]
  rfl

/-- What lies at a name has no NUL, -/
theorem zero_notMem_spelling (d : Disk) (p : Nat) (e : Entry) : 0 ∉ spelling d p e := by
  unfold spelling
  cases h : (firstRecords d p).find? fun r => r.inode ≠ 0 ∧ r.entry = e with
  | none => exact List.not_mem_nil
  | some r =>
    rw [Option.bind_some]
    cases hs : stringFrom (oneListing d p) (r.off + 9) with
    | none => exact List.not_mem_nil
    | some s => exact zero_notMem_stringFrom hs

/-- and starts with the name, if that has none. -/
theorem prefix_spelling (ht : Tree fs) (hp : IsDirectory fs.disk p)
    (h1 : iBlocks (slot fs.disk p) = 1) (he : e ∈ entries fs.disk p) (hP : Proper e)
    (h0 : 0 ∉ e.name) : e.name <+: spelling fs.disk p e := by
  rw [entries_one ht hp h1] at he
  obtain ⟨r, hr, hr0, rfl⟩ := mem_live.mp he
  obtain ⟨hname, hle⟩ := record_listed ht hp h1 hr
  have hlen : r.off + 9 + r.entry.name.length ≤ 8192 := Nat.le_trans hle (by decide)
  exact prefix_stringFrom (spelling_eq ht hp h1 hr hr0 hP) hname hlen h0

end Spelling

/-! ## Which entries are printed, and how -/

/-- These entries lead one after the other from the root directory to inode `q`. -/
abbrev LeadsBy (d : Disk) (c : List Entry) (q : Nat) : Prop :=
  LinkGraph.Leads Entry.inode Proper id (graphOf d) c 1 q

/-- `find_recursive` goes on with an entry that is spelled so: no directory with a dot in front, and
    up to 4 bytes more than the name has. -/
def Entered (e : Entry) (s : List UInt8) : Prop :=
  (e.fileType = 2 → s.head? ≠ some 46) ∧ s.length ≤ e.name.length + 4

/-- What it appends to the path. -/
def pathStep (e : Entry) (s : List UInt8) : List UInt8 :=
  s ++ if e.fileType = 2 ∧ s.length ≤ e.name.length + 3 then [47] else []

/-- It gets from directory `p` to the last of the entries. -/
def Reached (retCodes : Nat → BitVec 32) (d : Disk) : Nat → List Entry → Prop
  | _, [] => True
  | p, e :: c => Seen (retCodes p) 0 ∧ Entered e (spelling d p e) ∧ Reached retCodes d e.inode c

/-- What it has appended to the path there. -/
def shownPath (d : Disk) : Nat → List Entry → List UInt8
  | _, [] => []
  | p, e :: c => pathStep e (spelling d p e) ++ shownPath d e.inode c

/-- `memcmp(target, entry_name, entry->name_len) == 0`. -/
def Matches (target : Mem) (e : Entry) : Prop := bytes target 0 e.name.length = e.name

instance (target : Mem) : DecidablePred (Matches target) :=
  fun _ => inferInstanceAs (Decidable (_ = _))

/-- It gets to the last of the entries and prints the path. -/
def Printed (target : Mem) (retCodes : Nat → BitVec 32) (d : Disk) (p : Nat) (c : List Entry) :
    Prop := Reached retCodes d p c ∧ ∃ e, c.getLast? = some e ∧ Matches target e

noncomputable instance (target : Mem) (retCodes : Nat → BitVec 32) (d : Disk) (p : Nat) :
    DecidablePred (Printed target retCodes d p) := Classical.decPred _

/-- The paths that it prints for what is in directory `p`, to a depth. -/
noncomputable def foundPaths (target : Mem) (retCodes : Nat → BitVec 32) (d : Disk) (n p : Nat)
    (path : List UInt8) : List (List UInt8) :=
  ((LinkGraph.chains Entry.inode Proper (graphOf d) n p).filter fun c =>
    Printed target retCodes d p c).map fun c => path ++ shownPath d p c

section Printed

variable {target : Mem} {retCodes : Nat → BitVec 32} {d : Disk} {n p : Nat} {e : Entry}
  {c : List Entry} {path : List UInt8}

theorem printed_single : Printed target retCodes d p [e] ↔
    Seen (retCodes p) 0 ∧ Entered e (spelling d p e) ∧ Matches target e := by
  unfold Printed
  constructor
  · rintro ⟨⟨hp, he, -⟩, e', hlast, hm⟩
    obtain rfl : e = e' := Option.some.inj hlast
    exact ⟨hp, he, hm⟩
  · rintro ⟨hp, he, hm⟩
    exact ⟨⟨hp, he, trivial⟩, e, rfl, hm⟩

theorem printed_cons (hc : c ≠ []) : Printed target retCodes d p (e :: c) ↔
    Seen (retCodes p) 0 ∧ Entered e (spelling d p e) ∧ Printed target retCodes d e.inode c := by
  have hlast : (e :: c).getLast? = c.getLast? := by
    cases c with
    | nil => exact absurd rfl hc
    | cons a c => rfl
  unfold Printed
  rw [hlast]
  constructor
  · rintro ⟨⟨hp, he, hr⟩, hm⟩
    exact ⟨hp, he, hr, hm⟩
  · rintro ⟨hp, he, hr, hm⟩
    exact ⟨⟨hp, he, hr⟩, hm⟩

/-- Those for an entry of the directory, and for what is below it. -/
noncomputable def entryPaths (target : Mem) (retCodes : Nat → BitVec 32) (d : Disk) (n p : Nat)
    (path : List UInt8) (e : Entry) : List (List UInt8) :=
  (([e] :: (LinkGraph.chains Entry.inode Proper (graphOf d) n e.inode).map fun c => e :: c).filter
    fun c => Printed target retCodes d p c).map fun c => path ++ shownPath d p c

theorem foundPaths_succ (hp : IsDirectory d p) : foundPaths target retCodes d (n + 1) p path =
    (proper d p).flatMap (entryPaths target retCodes d n p path) := by
  unfold foundPaths
  rw [LinkGraph.chains, if_pos (show (graphOf d).isDir p from hp), List.filter_flatMap,
    List.map_flatMap]
  rfl

theorem foundPaths_file (h : ¬ IsDirectory d p) : foundPaths target retCodes d n p path = [] := by
  unfold foundPaths
  rw [LinkGraph.chains_of_not_isDir (show ¬ (graphOf d).isDir p from h)]
  rfl

/-- An entry that it does not go on with ends the paths. -/
theorem entryPaths_of_not (h : ¬ (Seen (retCodes p) 0 ∧ Entered e (spelling d p e))) :
    entryPaths target retCodes d n p path e = [] := by
  refine List.map_eq_nil_iff.mpr (List.filter_eq_nil_iff.mpr fun c hc hpr => ?_)
  obtain ⟨hr, -⟩ := of_decide_eq_true hpr
  rw [List.mem_cons, List.mem_map] at hc
  rcases hc with rfl | ⟨c, -, rfl⟩
  · exact h ⟨hr.1, hr.2.1⟩
  · exact h ⟨hr.1, hr.2.1⟩

/-- Otherwise its own path comes first. -/
theorem entryPaths_eq (hp : Seen (retCodes p) 0) (he : Entered e (spelling d p e)) :
    entryPaths target retCodes d n p path e =
      (if Matches target e then [path ++ pathStep e (spelling d p e)] else []) ++
        foundPaths target retCodes d n e.inode (path ++ pathStep e (spelling d p e)) := by
  have hrest :
      ((LinkGraph.chains Entry.inode Proper (graphOf d) n e.inode).map fun c => e :: c).filter
        (fun c => decide (Printed target retCodes d p c)) =
        ((LinkGraph.chains Entry.inode Proper (graphOf d) n e.inode).filter
          fun c => decide (Printed target retCodes d e.inode c)).map fun c => e :: c := by
    rw [List.filter_map]
    refine congrArg _ (List.filter_congr fun c hc => decide_eq_decide.mpr ?_)
    exact (printed_cons (LinkGraph.ne_nil_of_mem_chains hc)).trans
      ⟨fun h => h.2.2, fun h => ⟨hp, he, h⟩⟩
  unfold entryPaths foundPaths
  rw [List.filter_cons, hrest]
  by_cases hm : Matches target e
  · rw [if_pos (decide_eq_true (printed_single.mpr ⟨hp, he, hm⟩)), if_pos hm, List.map_cons,
      List.map_map]
    simp [shownPath]
  · rw [if_neg fun h => hm (printed_single.mp (of_decide_eq_true h)).2.2, if_neg hm, List.map_map]
    simp [shownPath]

end Printed

/-! ## The run -/

/-- On this disk the program returns and has put these paths on the screen. -/
def Prints (d : Disk) (f : Program FindOp FindOp.Reply Unit) (L : List (List UInt8)) : Prop :=
  ∀ (m : Machine) (screen : Screen), Tree m.fs → m.fs.disk = d → ∃ m' screen',
    Program.run answerFind f (m, screen) = (some (), (m', screen ++ screen')) ∧ Tree m'.fs ∧
      m'.fs.disk = d ∧ paths screen' = L

section Prints

variable {d : Disk} {f g : Program FindOp FindOp.Reply Unit} {L L' : List (List UInt8)}
  {s path : List UInt8} {color : Nat}

theorem prints_pure (d : Disk) : Prints d (pure ()) [] := fun m screen ht hd =>
  ⟨m, [], by rw [List.append_nil]; exact Program.run_pure () _, ht, hd, rfl⟩

theorem paths_append (a b : Screen) : paths (a ++ b) = paths a ++ paths b := by
  unfold paths
  rw [List.filter_append, List.map_append]

theorem Prints.bind (hf : Prints d f L) (hg : Prints d g L') :
    Prints d (f >>= fun _ => g) (L ++ L') := by
  intro m screen ht hd
  obtain ⟨m₁, screen₁, hrun₁, ht₁, hd₁, rfl⟩ := hf m screen ht hd
  obtain ⟨m₂, screen₂, hrun₂, ht₂, hd₂, rfl⟩ := hg m₁ (screen ++ screen₁) ht₁ hd₁
  refine ⟨m₂, screen₁ ++ screen₂, ?_, ht₂, hd₂, paths_append _ _⟩
  rw [Program.run_bind_some hrun₁, hrun₂, List.append_assoc]

theorem prints_puts (d : Disk) (s : List UInt8) (color : Nat) :
    Prints d (puts s color) (paths [(s, color)]) := fun m _ ht hd =>
  ⟨m, [(s, color)], Program.run_perform _ _, ht, hd, rfl⟩

/-- Messages in other colours are no paths. -/
theorem prints_message (d : Disk) (s : List UInt8) (h : color ≠ 15) :
    Prints d (puts s color) [] := by
  have hnone : paths [(s, color)] = [] := by
    unfold paths
    rw [List.filter_cons_of_neg (by simp [h])]
    rfl
  rw [← hnone]
  exact prints_puts d s color

theorem prints_path (d : Disk) (h : s.head? = some 47) : Prints d (puts s 15) [s] := by
  have hone : paths [(s, 15)] = [s] := by
    have hne : s ≠ finalNewline := by
      rintro rfl
      cases h
    unfold paths
    rw [List.filter_cons_of_pos (by simp [hne])]
    rfl
  have hputs := prints_puts d s 15
  rwa [hone] at hputs

theorem prints_newline (d : Disk) : Prints d (puts finalNewline 15) [] :=
  prints_puts d finalNewline 15

/-- A loop prints what its rounds print. -/
theorem Prints.forM {rs : List Rec} {g : Rec → Program FindOp FindOp.Reply Unit}
    {F : Rec → List (List UInt8)} (h : ∀ r ∈ rs, Prints d (g r) (F r)) :
    Prints d (rs.forM g) (rs.flatMap F) := by
  induction rs with
  | nil => exact prints_pure d
  | cons r rs ih =>
    rw [Program.forM_cons, List.flatMap_cons]
    exact (h r List.mem_cons_self).bind (ih fun q hq => h q (List.mem_cons_of_mem r hq))

end Prints

section Run

variable {target : Mem} {retCodes : Nat → BitVec 32} {d : Disk} {fs : Fs} {n p : Nat} {e : Entry}
  {r : Rec} {s path : List UInt8} {L : List (List UInt8)}
  {recurse : Nat → List UInt8 → Program FindOp FindOp.Reply Unit}

/-- There is room for up to 4 bytes more than the name has. -/
theorem newPath_eq (path s : List UInt8) (r : Rec) :
    newPath path s r = if s.length ≤ r.name.length + 4 then some (path ++ s) else none := by
  have hfirst : append [] path (pathSize path r) = some path := by
    unfold append pathSize
    rw [List.length_nil, if_neg (by omega), List.nil_append]
  unfold newPath
  rw [hfirst]
  show append path s (pathSize path r) = _
  unfold append pathSize
  by_cases hs : s.length ≤ r.name.length + 4
  · rw [if_pos hs, if_neg (by omega)]
  · rw [if_neg hs, if_pos (by omega)]

/-- The slash behind a directory needs one byte more. -/
theorem append_slash (h : r.fileType = 2) :
    (append (path ++ s) [47] (pathSize path r)).getD (path ++ s) = path ++ pathStep r.entry s := by
  unfold append pathSize pathStep
  rw [List.length_append, List.length_singleton, show r.entry.fileType = 2 from h,
    show r.entry.name = r.name from rfl]
  by_cases hs : s.length ≤ r.name.length + 3
  · rw [if_neg (by omega), if_pos ⟨rfl, hs⟩, Option.getD_some, List.append_assoc]
  · rw [if_pos (by omega), if_neg fun h => hs h.2, Option.getD_none, List.append_nil]

theorem printPath_prints (hpath : path.head? = some 47)
    {rest : Program FindOp FindOp.Reply Unit} (hrest : Prints d rest L) :
    Prints d (printPath target r path rest)
      ((if Matches target r.entry then [path] else []) ++ L) := by
  unfold printPath
  by_cases hm : bytes target 0 r.name.length = r.name
  · rw [if_pos hm, if_pos (show Matches target r.entry from hm)]
    exact (prints_path d hpath).bind ((prints_newline d).bind hrest)
  · rw [if_neg hm, if_neg (show ¬ Matches target r.entry from hm)]
    exact hrest

theorem head_append (hpath : path.head? = some 47) (s : List UInt8) :
    (path ++ s).head? = some 47 := by
  rw [List.head?_append, hpath]
  rfl

/-- `.` and `..` are directories. -/
theorem dots_fileType (ht : Tree fs) (hp : IsDirectory fs.disk p) (he : e ∈ entries fs.disk p)
    (hP : ¬ Proper e) : e.fileType = 2 := by
  obtain ⟨up, hup, heq⟩ := ht.entries_eq hp
  obtain ⟨henter, -⟩ := enter_dots ht hp heq hup
  have hmem : up ∈ entries fs.disk p := by
    rw [heq]
    exact List.mem_cons_of_mem _ List.mem_cons_self
  rw [heq, List.mem_cons, List.mem_cons] at he
  rcases he with rfl | rfl | he
  · rfl
  · exact (ht.sound.noDangling.isDir_iff hp hmem).mp (enter_isDirectory ht hp henter)
  · exact absurd (mem_proper.mp he).2 hP

/-- A name that has a dot in front has it in the listing. -/
theorem listed_dot (ht : Tree fs) (hp : IsDirectory fs.disk p) (h1 : iBlocks (slot fs.disk p) = 1)
    (hr : r ∈ firstRecords fs.disk p) (hdot : r.name.head? = some 46) :
    oneListing fs.disk p (r.off + 9) = 46 := by
  obtain ⟨hname, -⟩ := record_listed ht hp h1 hr
  obtain ⟨c, name, hc⟩ : ∃ c name, r.name = c :: name := by
    cases hn : r.name with
    | nil => rw [hn] at hdot; cases hdot
    | cons c name => exact ⟨c, name, rfl⟩
  have h0 := byte_eq_getElem hname (j := 0) (by rw [hc]; exact Nat.succ_pos _)
  rw [Nat.add_zero] at h0
  rw [h0]
  rw [hc, List.head?_cons] at hdot
  simp only [hc, List.getElem_cons_zero]
  exact Option.some.inj hdot

theorem findFile_prints (hseen : Seen (retCodes p) 0) (hpath : path.head? = some 47)
    (hfile : r.fileType = 1) (hnot : ¬ IsDirectory d r.inode) :
    Prints d (findFile target path r (spelling d p r.entry))
      (entryPaths target retCodes d n p path r.entry) := by
  have hone : ¬ r.fileType = 2 := by
    rw [hfile]
    decide
  have hstep : pathStep r.entry (spelling d p r.entry) = spelling d p r.entry := by
    have hnot : ¬ (r.entry.fileType = 2 ∧
        (spelling d p r.entry).length ≤ r.entry.name.length + 3) := fun h => hone h.1
    unfold pathStep
    rw [if_neg hnot, List.append_nil]
  unfold findFile
  rw [newPath_eq]
  by_cases hlen : (spelling d p r.entry).length ≤ r.name.length + 4
  · have hent : Entered r.entry (spelling d p r.entry) :=
      ⟨fun h => absurd h hone, hlen⟩
    rw [if_pos hlen, entryPaths_eq hseen hent, hstep,
      foundPaths_file (show ¬ IsDirectory d r.entry.inode from hnot)]
    exact printPath_prints (head_append hpath _) (prints_pure d)
  · rw [if_neg hlen, entryPaths_of_not fun h => hlen h.2.2]
    exact prints_message d fileError (by decide)

theorem findFolder_prints (hseen : Seen (retCodes p) 0) (hpath : path.head? = some 47)
    (hdir : r.fileType = 2) (hhead : (spelling d p r.entry).head? ≠ some 46)
    (hrec : ∀ path, path.head? = some 47 →
      Prints d (recurse r.inode path) (foundPaths target retCodes d n r.inode path)) :
    Prints d (findFolder target recurse path r (spelling d p r.entry))
      (entryPaths target retCodes d n p path r.entry) := by
  unfold findFolder
  rw [newPath_eq]
  by_cases hlen : (spelling d p r.entry).length ≤ r.name.length + 4
  · rw [if_pos hlen, entryPaths_eq hseen ⟨fun _ => hhead, hlen⟩]
    dsimp only
    rw [append_slash hdir]
    exact printPath_prints (head_append hpath _) (hrec _ (head_append hpath _))
  · rw [if_neg hlen, entryPaths_of_not fun h => hlen h.2.2]
    exact prints_message d folderError (by decide)

/-- A record of the listing prints the paths of its entry. -/
theorem findEntry_prints (ht : Tree fs) (hp : IsDirectory fs.disk p)
    (h1 : iBlocks (slot fs.disk p) = 1) (hseen : Seen (retCodes p) 0) (hpath : path.head? = some 47)
    (hr : r ∈ firstRecords fs.disk p) (h0 : r.inode ≠ 0)
    (hrec : Proper r.entry → r.fileType = 2 → ∀ path, path.head? = some 47 →
      Prints fs.disk (recurse r.inode path) (foundPaths target retCodes fs.disk n r.inode path)) :
    Prints fs.disk (findEntry target recurse path (oneListing fs.disk p) r)
      (if Proper r.entry then entryPaths target retCodes fs.disk n p path r.entry else []) := by
  have he : r.entry ∈ entries fs.disk p := by
    rw [entries_one ht hp h1]
    exact mem_live.mpr ⟨r, hr, h0, rfl⟩
  have hiff : IsDirectory fs.disk r.inode ↔ r.fileType = 2 := ht.sound.noDangling.isDir_iff hp he
  unfold findEntry
  by_cases hP : Proper r.entry
  · have hs := spelling_eq ht hp h1 hr h0 hP
    have hhead := head_stringFrom hs (by have := (record_listed ht hp h1 hr).2; omega)
    rw [if_pos hP, hs]
    have htype : r.fileType = 1 ∨ r.fileType = 2 := ht.fileType hp he
    rcases htype with hfile | hdir
    · rw [if_neg (by rw [hfile]; nofun), if_pos hfile]
      exact findFile_prints hseen hpath hfile fun h => by cases hfile.symm.trans (hiff.mp h)
    · by_cases hdot : oneListing fs.disk p (r.off + 9) = 46
      · rw [if_neg fun h => h.2.1 hdot, if_neg (by rw [hdir]; decide),
          entryPaths_of_not fun h => h.2.1 hdir (hhead.mpr hdot)]
        exact prints_pure fs.disk
      · rw [if_pos ⟨hdir, hdot, fun h => hdot h.1⟩]
        exact findFolder_prints hseen hpath hdir (fun h => hdot (hhead.mp h)) (hrec hP hdir)
  · have hdir : r.fileType = 2 := dots_fileType ht hp he hP
    have hdot : oneListing fs.disk p (r.off + 9) = 46 := by
      apply listed_dot ht hp h1 hr
      rcases not_and_or.mp hP with h | h
      · rw [show r.name = [46] from not_not.mp h]
        rfl
      · rw [show r.name = [46, 46] from not_not.mp h]
        rfl
    rw [if_neg hP, if_neg fun h => h.2.1 hdot, if_neg (by rw [hdir]; decide)]
    exact prints_pure fs.disk

/-- The records that the loop meets. -/
theorem walk_one (ht : Tree fs) (hp : IsDirectory fs.disk p) (h1 : iBlocks (slot fs.disk p) = 1) :
    walk (oneListing fs.disk p) 8192 0 =
      (firstRecords fs.disk p).filter fun r => r.inode ≠ 0 := by
  have htiles := ht.listed_tiles hp fun _ => 0
  rw [listed_one ht hp h1] at htiles
  have hzero : ∀ o, 512 ≤ o → oneListing fs.disk p o = 0 := fun o ho => if_neg (Nat.not_lt.mpr ho)
  rw [walk_tiles_eq htiles (by decide), walk_zeros hzero, List.append_nil]

theorem flatMap_filter {α β : Type} (q : α → Prop) [DecidablePred q] (l : List α) (f : α → List β) :
    (l.filter fun a => q a).flatMap f = l.flatMap fun a => if q a then f a else [] := by
  induction l with
  | nil => rfl
  | cons a l ih =>
    rw [List.flatMap_cons]
    by_cases ha : q a
    · rw [List.filter_cons_of_pos (by simpa using ha), List.flatMap_cons, if_pos ha, ih]
    · rw [List.filter_cons_of_neg (by simpa using ha), if_neg ha, ih]
      rfl

/-- The entries are met by their records. -/
theorem proper_flatMap (ht : Tree fs) (hp : IsDirectory fs.disk p)
    (h1 : iBlocks (slot fs.disk p) = 1) (f : Entry → List (List UInt8)) :
    (proper fs.disk p).flatMap f = ((firstRecords fs.disk p).filter fun r => r.inode ≠ 0).flatMap
      fun r => if Proper r.entry then f r.entry else [] := by
  unfold proper
  rw [flatMap_filter, entries_one ht hp h1]
  exact List.flatMap_map Rec.entry _ _

/-- A directory prints the paths of what is in it, if its entries do. -/
theorem prints_directory (ht : Tree fs) (hp : IsDirectory fs.disk p)
    (h1 : iBlocks (slot fs.disk p) = 1) (hpath : path.head? = some 47)
    (hrec : ∀ e ∈ entries fs.disk p, Proper e → e.fileType = 2 → ∀ path, path.head? = some 47 →
      Prints fs.disk (findRecursive target retCodes n e.inode path)
        (foundPaths target retCodes fs.disk n e.inode path)) :
    Prints fs.disk (findRecursive target retCodes (n + 1) p path)
      (foundPaths target retCodes fs.disk (n + 1) p path) := by
  intro m screen hm hd
  have hpm : IsDirectory m.fs.disk p := by rwa [hd]
  have hlist : readDirectory (listRequest p fun _ => 0) m.enter.fs = (0, oneListing fs.disk p) := by
    have hone := listed_one (enter_tree hm) hpm (by rw [enter_disk, hd]; exact h1)
    rw [enter_disk, hd] at hone
    rw [(enter_tree hm).readDirectory_eq hpm, hone]
  have hgo : Prints fs.disk
      (if storeResult (retCodes p) (BitVec.ofInt 8 0) = 0 then
        (walk (oneListing fs.disk p) 8192 0).forM
          (findEntry target (findRecursive target retCodes n) path (oneListing fs.disk p))
      else puts accessError 7) (foundPaths target retCodes fs.disk (n + 1) p path) := by
    have hcode : storeResult (retCodes p) (BitVec.ofInt 8 0) = 0 ↔ Seen (retCodes p) 0 := Iff.rfl
    rw [foundPaths_succ hp]
    by_cases hseen : Seen (retCodes p) 0
    · rw [if_pos (hcode.mpr hseen), walk_one ht hp h1, proper_flatMap ht hp h1]
      apply Prints.forM
      intro r hr
      obtain ⟨hr, h0⟩ := List.mem_filter.mp hr
      apply findEntry_prints ht hp h1 hseen hpath hr (of_decide_eq_true h0)
      intro hP hdir
      have he : r.entry ∈ entries fs.disk p := by
        rw [entries_one ht hp h1]
        exact mem_live.mpr ⟨r, hr, of_decide_eq_true h0, rfl⟩
      exact hrec r.entry he hP hdir
    · have hnone : (proper fs.disk p).flatMap (entryPaths target retCodes fs.disk n p path) = [] :=
        List.flatMap_eq_nil_iff.mpr fun e _ => entryPaths_of_not fun h => hseen h.1
      rw [if_neg fun h => hseen (hcode.mp h), hnone]
      exact prints_message fs.disk accessError (by decide)
  obtain ⟨m', screen', hrun, hrest⟩ := hgo m.enter screen (enter_tree hm) hd
  refine ⟨m', screen', ?_, hrest⟩
  rw [findRecursive, Program.run_perform_bind]
  unfold answerFind
  dsimp only
  rw [hlist]
  exact hrun

/-- To the height of the directory `find_recursive` prints the paths of what is in it. -/
theorem findRecursive_prints (ht : Tree fs)
    (h1 : ∀ p, IsDirectory fs.disk p → iBlocks (slot fs.disk p) = 1) (hp : IsDirectory fs.disk p)
    (htall : LinkGraph.Tall Entry.inode Proper (graphOf fs.disk) n p)
    (hpath : path.head? = some 47) :
    Prints fs.disk (findRecursive target retCodes (n + 1) p path)
      (foundPaths target retCodes fs.disk (n + 1) p path) := by
  induction n generalizing p path with
  | zero =>
    apply prints_directory ht hp (h1 p hp) hpath
    intro e he hP _
    exact absurd ⟨hp, e, he, hP, rfl⟩ (htall e.inode)
  | succ n ih =>
    apply prints_directory ht hp (h1 p hp) hpath
    intro e he hP hdir path hpath
    have hq := (ht.sound.noDangling.isDir_iff hp he).mpr hdir
    exact ih hq (htall e.inode ⟨hp, e, he, hP, rfl⟩) hpath

end Run

end LossOs.Shell
