/-
  `commands/cd.c`.

  `cd` splits its path and follows the components from directory to directory. `split_path` keeps
  the components of fewer than 63 bytes, 16 of them at most (`splitPath_eq`). `enter` is the
  directory that a name leads to, `resolve` the one that a path does, by the entry lists.
-/
import LossOs.Shell.Syscalls

namespace LossOs.Shell

open LossOs.Lib LossOs.Ext2

/-! ## `split_path` -/

/-- The loop of `split_path`: the characters of the component so far, and those that are
    complete. -/
def splitLoop (maxComponents : Nat) :
    (path comp : List UInt8) → (components : List (List UInt8)) → List (List UInt8)
  | [], comp, components =>
      if comp.length > 0 ∧ components.length < maxComponents ∧ comp.length < 63 then
        components ++ [comp]
      else components
  | c :: path, comp, components =>
      if components.length < maxComponents then
        if c = 47 then
          splitLoop maxComponents path []
            (if comp.length > 0 ∧ comp.length < 63 then components ++ [comp] else components)
        else splitLoop maxComponents path (comp ++ [c]) components
      else components

/-- `split_path`. -/
def splitPath (path : List UInt8) (maxComponents : Nat) : List (List UInt8) :=
  splitLoop maxComponents (path.dropWhile (· = 47)) [] []

/-! ## The two look-ups -/

/-- `get_parent_inode`: the inode number of the second record, if that is `..`. -/
def getParentInode (inode : Nat) : Program Op Op.Reply Nat :=
  if inode = 1 then pure 1
  else do
    let dataBuffer ← scratch
    let (retCode, dataBuffer) ← syscall (.readDirectory (listRequest inode dataBuffer))
    if retCode ≠ 0 then pure 1
    else
      let offset := entryRecLen dataBuffer 0
      if offset = 0 then pure 1
      else if offset < 8192 ∧ entryNameLen dataBuffer offset = 2 ∧
          dataBuffer (offset + 9) = 46 ∧ dataBuffer (offset + 9 + 1) = 46 then
        pure (entryInode dataBuffer offset)
      else pure 1

/-- The walk of `find_child_inode` over the 8192 bytes of its buffer. -/
def childWalk (dataBuffer : Mem) (name : List UInt8) (offset : Nat) : Nat :=
  if _h : offset < 8192 then
    if _h' : entryRecLen dataBuffer offset = 0 ∨
      8192 < offset + entryRecLen dataBuffer offset then 0
    else if entryInode dataBuffer offset ≠ 0 ∧ entryFileType dataBuffer offset = 2 ∧
        entryNameLen dataBuffer offset = name.length ∧
        bytes dataBuffer (offset + 9) name.length = name then
      entryInode dataBuffer offset
    else childWalk dataBuffer name (offset + entryRecLen dataBuffer offset)
  else 0
  termination_by 8192 - offset

/-- `find_child_inode`: 0 when it finds no directory of the name. -/
def findChildInode (parentInode : Nat) (name : List UInt8) : Program Op Op.Reply Nat :=
  if parentInode = 0 then pure 0
  else do
    let dataBuffer ← scratch
    let (retCode, dataBuffer) ← syscall (.readDirectory (listRequest parentInode dataBuffer))
    if retCode ≠ 0 then pure 0 else pure (childWalk dataBuffer name 0)

/-! ## `cd` -/

/-- The loop of `cd`: the target inode, or nothing when a component was not found. -/
def followComponents : List (List UInt8) → Nat → Program Op Op.Reply (Option Nat)
  | [], targetInode => pure (some targetInode)
  | c :: components, targetInode =>
      if c.length = 0 then followComponents components targetInode
      else if c = [46] then followComponents components targetInode
      else if c = [46, 46] then do
        let parent ← getParentInode targetInode
        followComponents components (if parent ≠ 0 then parent else targetInode)
      else do
        let child ← findChildInode targetInode c
        if child = 0 then pure none else followComponents components child

/-- `cd`: the current inode afterwards. -/
def cd (currentInode : Nat) (argv : List (List UInt8)) : Program Op Op.Reply Nat :=
  match argv with
  | _ :: path :: _ => do
      let targetInode := if path.head? = some 47 then 1 else currentInode
      let target ← followComponents (splitPath path 16) targetInode
      pure (target.getD currentInode)
  | _ => pure currentInode

/-! ## Where a path leads -/

/-- The non-empty components of a path. -/
def components (path : List UInt8) : List (List UInt8) := (path.splitOn 47).filter (· ≠ [])

/-- Those that `split_path` keeps. -/
def keptComponents (path : List UInt8) : List (List UInt8) :=
  ((components path).filter fun c => c.length < 63).take 16

/-- The components that `split_path` counts. -/
def shortComponent (c : List UInt8) : Bool := 0 < c.length && c.length < 63

theorem filter_short (L : List (List UInt8)) :
    L.filter shortComponent = (L.filter (· ≠ [])).filter fun c => c.length < 63 := by
  rw [List.filter_filter]
  apply List.filter_congr
  intro c _
  unfold shortComponent
  rw [Bool.and_comm]
  congr 1
  exact decide_eq_decide.mpr List.length_pos_iff

/-- The loop of `split_path` splits at the slashes. -/
theorem splitLoop_eq {maxComponents : Nat} (path comp : List UInt8) (done : List (List UInt8))
    (h : done.length ≤ maxComponents) : splitLoop maxComponents path comp done =
      (done ++ (path.splitOnPPrepend (· == 47) comp.reverse).filter shortComponent).take
        maxComponents := by
  induction path generalizing comp done with
  | nil =>
    rw [splitLoop, List.splitOnPPrepend_nil, List.reverse_reverse]
    by_cases hc : shortComponent comp = true
    · rw [List.filter_cons_of_pos hc, List.filter_nil]
      unfold shortComponent at hc
      simp only [Bool.and_eq_true, decide_eq_true_eq] at hc
      by_cases hlt : done.length < maxComponents
      · rw [if_pos ⟨hc.1, hlt, hc.2⟩, List.take_of_length_le]
        rw [List.length_append, List.length_singleton]
        omega
      · rw [if_neg fun h => hlt h.2.1, List.take_append_of_le_length (by omega),
          List.take_of_length_le h]
    · rw [List.filter_cons_of_neg hc, List.filter_nil, List.append_nil, List.take_of_length_le h,
        if_neg]
      rintro ⟨h1, -, h2⟩
      exact hc (by simp [shortComponent, h1, h2])
  | cons c path ih =>
    rw [splitLoop]
    by_cases hlt : done.length < maxComponents
    · rw [if_pos hlt]
      by_cases hc : c = 47
      · rw [if_pos hc, List.splitOnPPrepend_cons_pos (by simp [hc]), List.reverse_reverse, ih]
        · rw [List.reverse_nil, List.splitOnPPrepend_nil_right]
          by_cases hs : shortComponent comp = true
          · rw [List.filter_cons_of_pos hs, if_pos (by simpa [shortComponent] using hs),
              List.append_assoc]
            rfl
          · rw [List.filter_cons_of_neg hs, if_neg (by simpa [shortComponent] using hs)]
        · split
          · rw [List.length_append, List.length_singleton]
            omega
          · exact h
      · rw [if_neg hc, List.splitOnPPrepend_cons_neg (by simpa using hc), ih _ _ h,
          List.reverse_append]
        rfl
    · rw [if_neg hlt, List.take_append_of_le_length (by omega), List.take_of_length_le h]

/-- Slashes in front make no component. -/
theorem splitLoop_dropWhile (maxComponents : Nat) (path : List UInt8) (done : List (List UInt8)) :
    splitLoop maxComponents (path.dropWhile (· = 47)) [] done =
      splitLoop maxComponents path [] done := by
  induction path with
  | nil => rfl
  | cons c path ih =>
    by_cases hc : c = 47
    · have hnil : ∀ path : List UInt8, ¬ done.length < maxComponents →
          splitLoop maxComponents path [] done = done := by
        intro path h
        cases path with
        | nil => exact if_neg fun h' => h h'.2.1
        | cons c path => exact if_neg h
      rw [List.dropWhile_cons_of_pos (by simpa using hc), ih]
      by_cases hlt : done.length < maxComponents
      · rw [splitLoop.eq_def _ (c :: path)]
        dsimp only
        rw [if_pos hlt, if_pos hc, if_neg fun h => absurd h.1 (Nat.lt_irrefl 0)]
      · rw [hnil _ hlt, hnil _ hlt]
    · rw [List.dropWhile_cons_of_neg (by simpa using hc)]

/-- `split_path` keeps the first of the short components. -/
theorem splitPath_take (path : List UInt8) (maxComponents : Nat) : splitPath path maxComponents =
    ((components path).filter fun c => c.length < 63).take maxComponents := by
  unfold splitPath components
  rw [splitLoop_dropWhile, splitLoop_eq _ _ _ (Nat.zero_le _), ← filter_short]
  rfl

theorem splitPath_eq (path : List UInt8) : splitPath path 16 = keptComponents path :=
  splitPath_take path 16

/-- The entry is a directory of the name. -/
def dirNamed (c : List UInt8) (e : Entry) : Bool := e.fileType == 2 && e.name == c

/-- The directory that name `c` leads to from directory `p`. -/
def enter (d : Disk) (p : Nat) (c : List UInt8) : Option Nat :=
  ((entries d p).find? (dirNamed c)).map Entry.inode

/-- The directory that the names lead to one after the other. -/
def resolve (d : Disk) (p : Nat) (cs : List (List UInt8)) : Option Nat := cs.foldlM (enter d) p

theorem resolve_cons (d : Disk) (p : Nat) (c : List UInt8) (cs : List (List UInt8)) :
    resolve d p (c :: cs) = (enter d p c).bind fun q => resolve d q cs := List.foldlM_cons

section Enter

variable {fs : Fs} {p q : Nat} {c : List UInt8}

theorem enter_isDirectory (ht : Tree fs) (hp : IsDirectory fs.disk p)
    (h : enter fs.disk p c = some q) : IsDirectory fs.disk q := by
  obtain ⟨e, he, rfl⟩ := Option.map_eq_some_iff.mp h
  have hn := List.find?_some he
  unfold dirNamed at hn
  rw [Bool.and_eq_true, beq_iff_eq] at hn
  exact (ht.sound.noDangling.isDir_iff hp (List.mem_of_find?_eq_some he)).mpr hn.1

/-- `.` leads to the directory itself. -/
theorem enter_dot (ht : Tree fs) (hp : IsDirectory fs.disk p) :
    enter fs.disk p [46] = some p := by
  obtain ⟨up, -, heq⟩ := ht.entries_eq hp
  unfold enter
  rw [heq]
  rfl

/-- `..` leads to where the second record does. -/
theorem enter_dots (ht : Tree fs) (hp : IsDirectory fs.disk p) {up : Entry} {rest : List Entry}
    (heq : entries fs.disk p = ⟨[46], p, 2⟩ :: up :: rest) (hup : up.name = [46, 46]) :
    enter fs.disk p [46, 46] = some up.inode ∧ (p = 1 → up.inode = 1) := by
  have hm : up ∈ (graphOf fs.disk).links p := by
    rw [graphOf_links, heq]
    simp
  have hdir : IsDirectory fs.disk up.inode ∧ (p = 1 → up.inode = 1) := by
    rcases ht.sound.rooted.toUp p hp up hm hup with ⟨-, he⟩ | ⟨hd, b, hb, h1, h2, he⟩
    · exact ⟨he ▸ ht.sound.rooted.rootDir, fun _ => he⟩
    · exact ⟨hd, fun hp1 => absurd (he.trans hp1) (ht.sound.rooted.proper _ hd b hb h1 h2)⟩
  have htype : up.fileType = 2 := (ht.sound.noDangling.isDir_iff hp (by rw [heq]; simp)).mp hdir.1
  refine ⟨?_, hdir.2⟩
  unfold enter
  rw [heq, List.find?_cons, show dirNamed [46, 46] ⟨[46], p, 2⟩ = false from rfl, List.find?_cons,
    show dirNamed [46, 46] up = true by unfold dirNamed; rw [htype, hup]; rfl]
  rfl

end Enter

/-! ## What the look-ups find -/

/-- The machine after one look-up. -/
def Machine.looked (m : Machine) : Machine := m.next.enter

/-- The buffer of a look-up in directory `p`. -/
def lookedAt (m : Machine) (p : Nat) : Mem := listed m.looked.fs (m.user 0) p

/-- The name leads to a directory by the first block of directory `p`; or what the walk meets
    behind this block in the buffer is what the other blocks say. -/
def LookupOk (m : Machine) (p : Nat) (c : List UInt8) : Prop :=
  (∃ e ∈ live (firstRecords m.fs.disk p), dirNamed c e = true) ∨
    childWalk (lookedAt m p) c 512 = (enter m.fs.disk p c).getD 0

section Lookups

variable {m : Machine} {p : Nat} {c : List UInt8}

theorem looked_tree (ht : Tree m.fs) : Tree m.looked.fs := ht.withStack _

@[simp] theorem looked_disk (m : Machine) : m.looked.fs.disk = m.fs.disk := rfl

/-- A look-up reads the directory into an uninitialised buffer. -/
theorem answer_look (ht : Tree m.fs) (hp : IsDirectory m.fs.disk p) :
    answer (.readDirectory (listRequest p (m.user 0))) m.next = ((0, lookedAt m p), m.looked) :=
  @answer_list m.next p ht hp (m.user 0)

/-- The first block of the directory is tiled in the buffer. -/
theorem lookedAt_tiles (ht : Tree m.fs) (hp : IsDirectory m.fs.disk p) :
    Tiles (lookedAt m p) 0 (firstRecords m.fs.disk p) 512 :=
  (looked_tree ht).listed_tiles hp (m.user 0)

/-- `get_parent_inode` follows `..`. -/
theorem getParentInode_eq (ht : Tree m.fs) (hp : IsDirectory m.fs.disk p) :
    ∃ q, enter m.fs.disk p [46, 46] = some q ∧
      Program.run answer (getParentInode p) m = (some q, if p = 1 then m else m.looked) := by
  obtain ⟨-, -, -, post, r, ys, hbs, hrs, hr0, hr⟩ := ht.first_block hp
  have heq : ∃ rest, entries m.fs.disk p = ⟨[46], p, 2⟩ :: r.entry :: rest := by
    obtain ⟨rest, he, -⟩ := ht.entries_first hp
    rw [hrs, live_cons_of_ne (by have := hp.isInode.1; show p ≠ 0; omega),
      live_cons_of_ne hr0] at he
    exact ⟨_, he⟩
  obtain ⟨rest, heq⟩ := heq
  obtain ⟨henter, hroot⟩ := enter_dots ht hp heq hr
  refine ⟨r.inode, henter, ?_⟩
  unfold getParentInode
  by_cases h1 : p = 1
  · rw [if_pos h1, if_pos h1, show r.inode = 1 from hroot h1]
    exact Program.run_pure 1 m
  · rw [if_neg h1, if_neg h1, run_scratch_bind, run_syscall_bind, answer_look ht hp]
    have htiles := lookedAt_tiles ht hp
    rw [hrs] at htiles
    dsimp only
    generalize lookedAt m p = buf at htiles ⊢
    obtain ⟨h2, -, -, h3, -⟩ := htiles
    have hoff : entryRecLen buf 0 = 12 := congrArg Rec.recLen h2
    have hin : entryInode buf 12 = r.inode := congrArg Rec.inode h3
    have hbytes : bytes buf (12 + 9) (entryNameLen buf 12) = [46, 46] :=
      (congrArg Rec.name h3).trans hr
    have hlen : entryNameLen buf 12 = 2 := by
      have := congrArg List.length hbytes
      rwa [length_bytes] at this
    rw [hlen] at hbytes
    obtain ⟨h4, h5⟩ := List.cons.inj hbytes
    have h6 := (List.cons.inj h5).1
    rw [if_neg (by decide), hoff, if_neg (by decide), if_pos ⟨by decide, hlen, h4, h6⟩, hin]
    exact Program.run_pure r.inode m.looked

/-- The records that a walk over the buffer meets from an offset on. -/
def walked (buf : Mem) (offset : Nat) : List Rec :=
  if _h : offset < 8192 then
    if _h' : entryRecLen buf offset = 0 ∨ 8192 < offset + entryRecLen buf offset then []
    else recAt buf offset :: walked buf (offset + entryRecLen buf offset)
  else []
  termination_by 8192 - offset

/-- Over a tiling the walk meets its records first. -/
theorem walked_tiles {buf : Mem} {o e : Nat} {rs : List Rec} (h : Tiles buf o rs e)
    (he : e ≤ 8192) : walked buf o = rs ++ walked buf e := by
  induction rs generalizing o with
  | nil =>
    obtain rfl : o = e := h
    rfl
  | cons r rs ih =>
    obtain ⟨hr, -, hsize, hrs⟩ := h
    have hle := hrs.le
    have hsz := size_le_entryRecLen r
    have hlen : entryRecLen buf o = r.recLen := congrArg Rec.recLen hr
    rw [walked, dif_pos (by omega), dif_neg (by omega), hr, hlen, ih hrs]
    rfl

/-- The walk finds the first directory of the name among what it meets. -/
theorem childWalk_eq (buf : Mem) (c : List UInt8) (o : Nat) : childWalk buf c o =
    (((live (walked buf o)).find? (dirNamed c)).map Entry.inode).getD 0 := by
  have hname : ∀ o, entryNameLen buf o = c.length ∧ bytes buf (o + 9) c.length = c ↔
      (recAt buf o).name = c := by
    intro o
    show _ ↔ bytes buf (o + 9) (entryNameLen buf o) = c
    constructor
    · rintro ⟨h1, h2⟩
      rw [h1]
      exact h2
    · intro h1
      have h2 : entryNameLen buf o = c.length := by rw [← h1, length_bytes]
      exact ⟨h2, by rw [← h2]; exact h1⟩
  fun_induction walked buf o with
  | case1 o hlt hend => rw [childWalk, dif_pos hlt, dif_pos hend]; rfl
  | case2 o hlt hgo ih =>
    rw [childWalk, dif_pos hlt, dif_neg hgo]
    by_cases h0 : entryInode buf o = 0
    · rw [if_neg fun h => h.1 h0, live_cons_of_eq h0]
      exact ih
    · rw [live_cons_of_ne h0, List.find?_cons]
      by_cases hn : entryFileType buf o = 2 ∧ (recAt buf o).name = c
      · rw [if_pos ⟨h0, hn.1, (hname o).mpr hn.2⟩, show dirNamed c (recAt buf o).entry = true by
          unfold dirNamed Rec.entry; rw [hn.2]; simp [recAt, hn.1]]
        rfl
      · rw [if_neg fun h => hn ⟨h.2.1, (hname o).mp h.2.2⟩,
          show dirNamed c (recAt buf o).entry = false by
            unfold dirNamed Rec.entry; simpa [recAt] using hn]
        exact ih
  | case3 o hlt => rw [childWalk, dif_neg hlt]; rfl

/-- Over a tiling the walk finds the first directory of the name, or goes on behind it. -/
theorem childWalk_tiles {buf : Mem} {o e : Nat} {rs : List Rec} (h : Tiles buf o rs e)
    (he : e ≤ 8192) : childWalk buf c o =
      (((live rs).find? (dirNamed c)).map Entry.inode).getD (childWalk buf c e) := by
  rw [childWalk_eq, walked_tiles h he, live_append, List.find?_append, childWalk_eq buf c e]
  cases (live rs).find? (dirNamed c) with
  | none => rfl
  | some e => rfl

/-- `find_child_inode` is right exactly if the first block has the directory, or what lies behind
    it in the buffer happens to say the same as the other blocks. -/
theorem findChildInode_iff (ht : Tree m.fs) (hp : IsDirectory m.fs.disk p) :
    ∃ q, Program.run answer (findChildInode p c) m = (some q, m.looked) ∧
      (q = (enter m.fs.disk p c).getD 0 ↔ LookupOk m p c) := by
  have h0 : p ≠ 0 := by have := hp.isInode.1; omega
  have hwalk := @childWalk_tiles c _ _ _ _ (lookedAt_tiles ht hp) (by decide)
  obtain ⟨rest, heq, -⟩ := ht.entries_first hp
  refine ⟨childWalk (lookedAt m p) c 0, ?_, ?_⟩
  · unfold findChildInode
    rw [if_neg h0, run_scratch_bind, run_syscall_bind, answer_look ht hp]
    exact Program.run_pure _ m.looked
  · unfold LookupOk
    rw [hwalk]
    unfold enter
    rw [heq, List.find?_append]
    cases hf : (live (firstRecords m.fs.disk p)).find? (dirNamed c) with
    | some e =>
      exact iff_of_true rfl (Or.inl ⟨e, List.mem_of_find?_eq_some hf, List.find?_some hf⟩)
    | none =>
      refine (or_iff_right ?_).symm
      rintro ⟨e, hm, hn⟩
      exact absurd hn (List.find?_eq_none.mp hf e hm)

end Lookups

/-! ## The way of `cd` -/

/-- The look-ups along the names are right: nothing is looked up for `.` and for the `..` of the
    root directory. -/
def Way : (cs : List (List UInt8)) → (p : Nat) → Machine → Prop
  | [], _, _ => True
  | c :: cs, p, m =>
      if c = [46] ∨ c = [46, 46] ∧ p = 1 then Way cs p m
      else (c ≠ [46, 46] → LookupOk m p c) ∧
        ∀ q, enter m.fs.disk p c = some q → Way cs q m.looked

/-- `cd` follows the names. -/
theorem followComponents_eq {cs : List (List UInt8)} {p : Nat} {m : Machine} (ht : Tree m.fs)
    (hp : IsDirectory m.fs.disk p) (hne : ∀ c ∈ cs, c ≠ []) (hw : Way cs p m) :
    ∃ m', Program.run answer (followComponents cs p) m = (some (resolve m.fs.disk p cs), m') := by
  induction cs generalizing p m with
  | nil => exact ⟨m, Program.run_pure _ m⟩
  | cons c cs ih =>
    have hc : ¬ c.length = 0 := fun h => hne c List.mem_cons_self (List.length_eq_zero_iff.mp h)
    have hne' : ∀ c ∈ cs, c ≠ [] := fun c h => hne c (List.mem_cons_of_mem _ h)
    rw [resolve_cons, followComponents, if_neg hc]
    unfold Way at hw
    by_cases hdot : c = [46]
    · rw [if_pos hdot, hdot, enter_dot ht hp]
      rw [if_pos (Or.inl hdot)] at hw
      exact ih ht hp hne' hw
    rw [if_neg hdot]
    by_cases hup : c = [46, 46]
    · obtain ⟨q, henter, hrun⟩ := getParentInode_eq ht hp
      have hq := enter_isDirectory ht hp henter
      rw [if_pos hup, hup, henter, Program.run_bind_some hrun,
        if_pos (by have := hq.isInode.1; omega), Option.bind_some]
      by_cases h1 : p = 1
      · rw [if_pos (Or.inr ⟨hup, h1⟩)] at hw
        have hroot : q = p := by
          unfold getParentInode at hrun
          rw [if_pos h1, Program.run_pure] at hrun
          have := Option.some.inj (Prod.mk.inj hrun).1
          omega
        rw [if_pos h1, hroot]
        exact ih ht hp hne' hw
      · rw [if_neg fun h => h.elim hdot fun h => h1 h.2] at hw
        rw [if_neg h1]
        exact ih (looked_tree ht) hq hne' (hw.2 _ (by rw [hup]; exact henter))
    · rw [if_neg fun h => h.elim hdot fun h => hup h.1] at hw
      obtain ⟨q, hrun, hfind⟩ := @findChildInode_iff m p c ht hp
      have hf := hfind.mpr (hw.1 hup)
      rw [if_neg hup, Program.run_bind_some hrun, hf]
      cases he : enter m.fs.disk p c with
      | none => exact ⟨m.looked, Program.run_pure none m.looked⟩
      | some q =>
        have hq := enter_isDirectory ht hp he
        rw [Option.getD_some, if_neg (by have := hq.isInode.1; omega), Option.bind_some]
        exact ih (looked_tree ht) hq hne' (hw.2 q he)

/-- Where a path starts. -/
def startOf (currentInode : Nat) (path : List UInt8) : Nat :=
  if path.head? = some 47 then 1 else currentInode

/-- `cd` to a path goes from directory `old` to where the path leads, or nowhere. -/
structure CdOk (d : Disk) (old : Nat) (path : List UInt8) (now : Nat) : Prop where
  moved : now ≠ old → resolve d (startOf old path) (components path) = some now
  stays : resolve d (startOf old path) (components path) = none → now = old

theorem keptComponents_ne {path c : List UInt8} (h : c ∈ keptComponents path) : c ≠ [] := by
  have h1 := (List.mem_filter.mp (List.mem_of_mem_take h)).1
  exact of_decide_eq_true (List.mem_filter.mp h1).2

/-- Nothing of a path of up to 16 components of fewer than 63 bytes is left out. -/
theorem keptComponents_eq {path : List UInt8} (h1 : (components path).length ≤ 16)
    (h2 : ∀ c ∈ components path, c.length < 63) : keptComponents path = components path := by
  unfold keptComponents
  rw [List.filter_eq_self.mpr fun c hc => decide_eq_true (h2 c hc), List.take_of_length_le h1]

section Cd

variable {m : Machine} {cur : Nat} {name path : List UInt8} {rest : List (List UInt8)}

/-- Where `cd` goes when its look-ups are right. -/
theorem cd_eq (ht : Tree m.fs) (hcur : IsDirectory m.fs.disk cur)
    (hw : Way (keptComponents path) (startOf cur path) m) :
    ∃ m', Program.run answer (cd cur (name :: path :: rest)) m =
      (some ((resolve m.fs.disk (startOf cur path) (keptComponents path)).getD cur), m') := by
  have hstart : IsDirectory m.fs.disk (startOf cur path) := by
    unfold startOf
    split
    · exact ht.sound.rooted.rootDir
    · exact hcur
  obtain ⟨m', hf⟩ := followComponents_eq ht hstart (fun c => keptComponents_ne) hw
  refine ⟨m', ?_⟩
  unfold cd
  dsimp only
  rw [splitPath_eq, show (if path.head? = some 47 then 1 else cur) = startOf cur path from rfl,
    Program.run_bind_some hf, Program.run_pure]

/-- Where the look-ups are right, `cd` does what its path says exactly if the components that are
    kept lead nowhere, to where `cd` is, or to where all of them lead. -/
theorem cd_iff (ht : Tree m.fs) (hcur : IsDirectory m.fs.disk cur)
    (hw : Way (keptComponents path) (startOf cur path) m) :
    ∃ now m', Program.run answer (cd cur (name :: path :: rest)) m = (some now, m') ∧
      (CdOk m.fs.disk cur path now ↔
        ∀ q, resolve m.fs.disk (startOf cur path) (keptComponents path) = some q →
          q = cur ∨ resolve m.fs.disk (startOf cur path) (components path) = some q) := by
  obtain ⟨m', hrun⟩ := @cd_eq m cur name path rest ht hcur hw
  refine ⟨_, m', hrun, ?_, ?_⟩
  · intro h q hq
    rw [hq, Option.getD_some] at h
    exact or_iff_not_imp_left.mpr h.moved
  · intro h
    cases hk : resolve m.fs.disk (startOf cur path) (keptComponents path) with
    | none => exact ⟨fun hne => absurd rfl hne, fun _ => rfl⟩
    | some q =>
      refine ⟨(h q hk).resolve_left, fun hnone => (h q hk).resolve_right ?_⟩
      rw [hnone]
      nofun

end Cd

/-- From `/bin` to its parent. -/
theorem cd_iff_bin : ∃ now m', Program.run answer (cd 2 [[], [46, 46]]) (Machine.zeros binFs) =
    (some now, m') ∧ CdOk binFs.disk 2 [46, 46] now := by
  obtain ⟨ht, -, hbin, -⟩ := binFs_root
  generalize binFs = fs at ht hbin ⊢
  have hway : Way (keptComponents [46, 46]) (startOf 2 [46, 46]) (Machine.zeros fs) := by
    rw [show keptComponents [46, 46] = [[46, 46]] by decide]
    unfold Way
    rw [if_neg (by decide)]
    exact ⟨fun h => absurd rfl h, fun _ _ => trivial⟩
  obtain ⟨now, m', hrun, hiff⟩ := @cd_iff (Machine.zeros fs) 2 [] [46, 46] [] ht hbin hway
  refine ⟨now, m', hrun, hiff.mpr fun q hq => Or.inr ?_⟩
  rwa [keptComponents_eq (by decide) (by decide)] at hq

/-- A name of 63 bytes behind the root directory. -/
def longPath : List UInt8 := 47 :: List.replicate 63 97

/-- `cd` leaves the name out and goes to the root directory, where nothing is so called. -/
theorem cd_drops_name : IsDirectory binFs.disk 2 ∧
    resolve binFs.disk (startOf 2 longPath) (components longPath) = none ∧
    (Program.run answer (cd 2 [[], longPath]) (Machine.zeros binFs)).1 = some 1 ∧
    ¬ CdOk binFs.disk 2 longPath 1 := by
  obtain ⟨-, -, hbin, A, B, hAB, heq⟩ := binFs_root
  generalize binFs = fs at hbin heq ⊢
  have hgo : (Program.run answer (cd 2 [[], longPath]) (Machine.zeros fs)).1 = some 1 := by
    have hsplit : splitPath longPath 16 = [] := by decide
    unfold cd
    dsimp only
    rw [hsplit, followComponents, Program.run_bind_some (Program.run_pure _ _), Program.run_pure]
    rfl
  have hnone : resolve fs.disk (startOf 2 longPath) (components longPath) = none := by
    have hcomp : components longPath = [List.replicate 63 97] := by decide
    have henter : enter fs.disk 1 (List.replicate 63 97) = none := by
      refine Option.map_eq_none_iff.mpr (List.find?_eq_none.mpr fun e he hn => ?_)
      have hname : e.name.length ≤ 3 := by
        rw [heq, List.mem_append, List.mem_cons, or_left_comm, ← List.mem_append, hAB] at he
        rcases he with rfl | he
        · decide
        · rcases mem_dotEntries.mp he with rfl | rfl <;> decide
      unfold dirNamed at hn
      rw [Bool.and_eq_true, beq_iff_eq, beq_iff_eq] at hn
      rw [hn.2, List.length_replicate] at hname
      omega
    rw [hcomp, resolve_cons, show startOf 2 longPath = 1 from rfl, henter]
    rfl
  refine ⟨hbin, hnone, hgo, fun h => ?_⟩
  cases h.stays hnone

end LossOs.Shell
