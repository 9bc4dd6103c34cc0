/-
  `get_inode_for_path` with its buffer `char temp[64]`.

  `pathLoopIn` copies each component into the buffer, and fails when it writes outside. What it
  should return is `follow`, the inode that the entries of the components lead to. Before it looks
  for a component it asks `read_directory` for it, with `buffer_size` 0, and gives up when that
  fails, which it does unless the entry is `ListableEntry`: a directory with `i_size` 0. A component
  of 64 bytes passes the test of its length, and its terminator is written behind the buffer. Clear
  of both the path is `PathReached`, and then the function returns what it should
  (`getInodeForPath_follows`).
-/
import LossOs.Clib.Strings
import LossOs.Ext2.Lookup
import LossOs.Ext2.Tree

namespace LossOs.Ext2

open LossOs.Lib LossOs.Clib

/-! ## The buffer -/

/-- `memcpy(temp, start, len); temp[len] = 0;`. -/
def copyComponent (comp : List UInt8) (temp : Mem) : Option Mem := do
  let temp ← memcpy 64 0 (fun k => comp.getD k 0) comp.length temp
  store 64 comp.length 0 temp

/-- The request with which it asks for the component `comp` first. -/
def pathRequest (comp : List UInt8) (currentInode : Nat) : EXT2DriverRequest where
  buf := fun _ => 0
  name := fun k => comp.getD k 0
  nameLen := UInt8.ofNat comp.length
  parentInode := UInt32.ofNat currentInode
  bufferSize := 0
  isDirectory := true

/-- The request, whose name is the buffer. -/
def tempRequest (comp : List UInt8) (currentInode : Nat) (temp : Mem) : EXT2DriverRequest :=
  { pathRequest comp currentInode with name := temp }

theorem length_tail_lt {path : List UInt8} (h : path ≠ []) :
    (path.dropWhile (· ≠ 47)).tail.length < path.length := by
  have hle := (List.dropWhile_sublist (· ≠ 47) (l := path)).length_le
  have hpos := List.length_pos_of_ne_nil h
  rw [List.length_tail]
  omega

/-- The loop over the components of a path. -/
def pathLoopIn (fs : Fs) (path : List UInt8) (currentInode : Nat) (temp : Mem) : Option Nat :=
  if _h : path = [] then some currentInode
  else
    let comp := path.takeWhile (· ≠ 47)
    if comp.length = 0 ∨ comp.length > 64 then some 0
    else (copyComponent comp temp).bind fun temp =>
      if (readDirectory (tempRequest comp currentInode temp) fs).1 ≠ 0 then some 0
      else
        let inode := view (fs.readBlocks (fs.inodeBlock currentInode)) (slotOffset currentInode)
        match pathDir temp comp.length inode fs with
        | none => some 0
        | some inode => pathLoopIn fs (path.dropWhile (· ≠ 47)).tail inode temp
  termination_by path.length
  decreasing_by exact length_tail_lt _h

/-- `get_inode_for_path`, with what lies in the buffer at first. -/
def getInodeForPathIn (path : List UInt8) (temp : Mem) (fs : Fs) : Option Nat :=
  if path.head? ≠ some 47 then some 0
  else if path.tail = [] then some 1
  else pathLoopIn fs path.tail 1 temp

section Buffer

variable {comp : List UInt8} {temp : Mem}

/-- A component of 64 bytes does not fit with its terminator. -/
theorem copyComponent_long (h : comp.length = 64) (temp : Mem) :
    copyComponent comp temp = none := by
  unfold copyComponent
  rw [memcpy_eq (by omega)]
  exact if_neg (by omega)

/-- A shorter one is in the buffer afterwards. -/
theorem copyComponent_short (h : comp.length < 64) (temp : Mem) :
    ∃ temp', copyComponent comp temp = some temp' ∧
      ∀ k < comp.length, temp' k = comp.getD k 0 := by
  unfold copyComponent
  rw [memcpy_eq (by omega)]
  refine ⟨_, store_of_lt h 0 _, fun k hk => ?_⟩
  rw [wr8_of_ne (by omega), blit_of_mem (by omega) (by omega), Nat.sub_zero]

theorem nameLen_toNat (h : comp.length ≤ 64) (cur : Nat) (temp : Mem) :
    (tempRequest comp cur temp).nameLen.toNat = comp.length :=
  UInt8.toNat_ofNat_of_lt' (by show comp.length < 256; omega)

/-- The request asks for the component. -/
theorem requestName_temp (h : comp.length < 64) (ht : ∀ k < comp.length, temp k = comp.getD k 0)
    (cur : Nat) : requestName (tempRequest comp cur temp) = comp := by
  unfold requestName bytes
  rw [nameLen_toNat (Nat.le_of_lt h)]
  apply List.ext_getElem
  · rw [List.length_map, List.length_range]
  · intro k hk hk'
    rw [List.getElem_map, List.getElem_range, Nat.zero_add]
    show temp k = comp[k]
    rw [ht k hk', List.getD_eq_getElem comp 0 hk']

end Buffer

/-! ## What the path leads to -/

/-- The first entry of the name in the directory `i`. -/
def entryNamed (d : Disk) (i : Nat) (c : List UInt8) : Option Entry :=
  (entries d i).find? fun e => e.name == c

/-- The inode that is reached from inode `i` by the entries of the components, all of them entries
    with `P` and, but for the last one, of directories. -/
def follow (P : Entry → Bool) (d : Disk) : List (List UInt8) → Nat → Option Nat
  | [], i => some i
  | c :: cs, i =>
      if isDir d i then (entryNamed d i c).bind fun e => if P e then follow P d cs e.inode else none
      else none

/-- The entry of a directory, for which `i_size` is 0. -/
def ListableEntry (d : Disk) (e : Entry) : Bool := e.fileType == 2 && iSize (slot d e.inode) == 0

/-- A component of a path that the function is given. -/
structure IsComponent (c : List UInt8) : Prop where
  pos : c ≠ []
  length : c.length ≤ 64
  noSlash : 47 ∉ c
  noNul : 0 ∉ c

/-- A tree of directories: each has a block, none of its pointers is zero, its blocks are tiled by
    records, and its entries lead to inodes in use that are of their type. The sizes of directories
    are not fixed. -/
structure DirTree (fs : Fs) : Prop where
  layout : Layout fs
  root : IsDirectory fs.disk 1
  blocks : ∀ p, IsDirectory fs.disk p → iBlocks (slot fs.disk p) ≠ 0
  full : ∀ p, IsDirectory fs.disk p → ∀ b ∈ dirPtrs (slot fs.disk p), b ≠ 0
  dirOk : ∀ p, IsDirectory fs.disk p → DirOk fs.disk p
  used : ∀ p, IsDirectory fs.disk p → ∀ e ∈ entries fs.disk p,
    IsInode e.inode ∧ inodeUsed fs.disk e.inode = true
  typed : ∀ p, IsDirectory fs.disk p → ∀ e ∈ entries fs.disk p,
    e.fileType = 2 ↔ isDir fs.disk e.inode = true

/-- From the directory `i` on: where the whole path exists, its entries are listable, and no
    component of 64 bytes is behind listable entries alone. -/
structure PathReached (d : Disk) (cs : List (List UInt8)) (i : Nat) : Prop where
  listable : follow (fun _ => true) d cs i ≠ none → follow (ListableEntry d) d cs i ≠ none
  short : ∀ pre c post, cs = pre ++ c :: post → c.length = 64 →
    follow (ListableEntry d) d pre i = none

section Follow

variable {P : Entry → Bool} {d : Disk} {c : List UInt8} {cs : List (List UInt8)} {i j : Nat}
  {e : Entry}

theorem follow_none (h : entryNamed d i c = none) (P : Entry → Bool) :
    follow P d (c :: cs) i = none := by
  rw [follow, h]
  exact ite_self _

theorem follow_stop (h : entryNamed d i c = some e) (hP : P e = false) :
    follow P d (c :: cs) i = none := by
  rw [follow, h, Option.bind_some, hP, if_neg Bool.false_ne_true]
  exact ite_self _

theorem follow_next (hi : isDir d i = true) (h : entryNamed d i c = some e) (hP : P e = true) :
    follow P d (c :: cs) i = follow P d cs e.inode := by
  rw [follow, if_pos hi, h, Option.bind_some, if_pos hP]

theorem entryNamed_mem (h : entryNamed d i c = some e) : e ∈ entries d i :=
  List.mem_of_find?_eq_some h

theorem entryNamed_inode_ne (h : entryNamed d i c = some e) : e.inode ≠ 0 := by
  have hmem := entryNamed_mem h
  unfold entries at hmem
  obtain ⟨b, -, r, -, h0, rfl⟩ := mem_blockEntries.mp hmem
  exact h0

/-- The inode at the end of a path is not 0. -/
theorem follow_ne_zero (hi : i ≠ 0) (h : follow P d cs i = some j) : j ≠ 0 := by
  induction cs generalizing i with
  | nil =>
    obtain rfl : i = j := Option.some.inj h
    exact hi
  | cons c cs ih =>
    rw [follow] at h
    split_ifs at h with hdir
    obtain ⟨e, he, h⟩ := Option.bind_eq_some_iff.mp h
    split_ifs at h with hP
    exact ih (entryNamed_inode_ne he) h

/-- A path without a component that is there. -/
theorem reached_of_stop (hlen : c.length ≠ 64)
    (hstop : follow (ListableEntry d) d (c :: cs) i = none)
    (hpre : ∀ pre, follow (ListableEntry d) d (c :: pre) i = none) :
    PathReached d (c :: cs) i ↔ follow (fun _ => true) d (c :: cs) i = none := by
  constructor
  · intro h
    by_contra hne
    exact h.listable hne hstop
  · intro h
    refine ⟨fun hne => absurd h hne, fun pre c' post heq h64 => ?_⟩
    cases pre with
    | nil =>
      obtain ⟨rfl, -⟩ := List.cons.inj heq
      exact absurd h64 hlen
    | cons c'' pre =>
      obtain ⟨rfl, -⟩ := List.cons.inj heq
      exact hpre pre

/-- Behind a listable entry. -/
theorem reached_next (hlen : c.length ≠ 64) (hi : isDir d i = true)
    (he : entryNamed d i c = some e) (hl : ListableEntry d e = true) :
    PathReached d (c :: cs) i ↔ PathReached d cs e.inode := by
  have hall : follow (fun _ => true) d (c :: cs) i = follow (fun _ => true) d cs e.inode :=
    follow_next hi he rfl
  constructor
  · rintro ⟨hlist, hshort⟩
    rw [hall, follow_next hi he hl] at hlist
    refine ⟨hlist, fun pre c' post heq h64 => ?_⟩
    rw [← hshort (c :: pre) c' post (by rw [heq]; rfl) h64, follow_next hi he hl]
  · rintro ⟨hlist, hshort⟩
    refine ⟨by rw [hall, follow_next hi he hl]; exact hlist, fun pre c' post heq h64 => ?_⟩
    cases pre with
    | nil =>
      obtain ⟨rfl, -⟩ := List.cons.inj heq
      exact absurd h64 hlen
    | cons c'' pre =>
      obtain ⟨rfl, hcs⟩ := List.cons.inj heq
      rw [follow_next hi he hl]
      exact hshort pre c' post hcs h64

end Follow

/-! ## One component -/

theorem find?_dirRecords (request : EXT2DriverRequest) (d : Disk) (bs : List Nat) :
    ((dirRecords d bs).find? fun q => q.2.named request).map (fun q => q.2.entry) =
      (blockEntries d bs).find? fun e => e.name == requestName request := by
  unfold dirRecords blockEntries
  rw [List.find?_flatMap, List.find?_flatMap, List.map_findSome?]
  apply findSome?_congr
  intro b _
  rw [← find?_entry, Function.comp_apply, List.find?_map, Option.map_map]
  rfl

section Component

variable {fs : Fs} {c : List UInt8} {temp : Mem} {i : Nat}

theorem DirTree.block_ne (h : DirTree fs) (hi : IsDirectory fs.disk i) :
    iBlock (slot fs.disk i) 0 ≠ 0 := by
  apply h.full i hi
  unfold dirPtrs
  exact List.mem_map.mpr ⟨0, List.mem_range.mpr (Nat.pos_of_ne_zero (h.blocks i hi)), rfl⟩

/-- What an entry of type 2 leads to. -/
theorem DirTree.isDirectory {e : Entry} (h : DirTree fs) (hi : IsDirectory fs.disk i)
    (he : e ∈ entries fs.disk i) (ht : e.fileType = 2) : IsDirectory fs.disk e.inode :=
  ⟨(h.used i hi e he).1, (h.used i hi e he).2, (h.typed i hi e he).mp ht⟩

/-- The two searches for a component. -/
theorem DirTree.search (h : DirTree fs) (hi : IsDirectory fs.disk i) (hlen : c.length < 64)
    (ht : ∀ k < c.length, temp k = c.getD k 0) :
    readDirectory (tempRequest c i temp) fs =
        listEntry (tempRequest c i temp) fs (entryNamed fs.disk i c) ∧
      pathDir temp c.length (view (fs.readBlocks (fs.inodeBlock i)) (slotOffset i)) fs =
        (entryNamed fs.disk i c).map Entry.inode := by
  have hparent : (tempRequest c i temp).parentInode.toNat = i :=
    UInt32.toNat_ofNat_of_lt' (by have := hi.isInode.2; show i < 4294967296; omega)
  obtain ⟨hs, hsel⟩ := h.layout.searchable (tempRequest c i temp)
    (by rwa [hparent]) (by rw [hparent]; exact h.dirOk i hi) (by rw [hparent]; exact h.full i hi)
  have hentry : (selected (tempRequest c i temp) fs).map (fun q => q.2.entry) =
      entryNamed fs.disk i c := by
    rw [hsel, find?_dirRecords, hparent, ← dirBlocks_of_full (h.full i hi),
      requestName_temp hlen ht]
    unfold entryNamed entries
    rfl
  refine ⟨by rw [hs.readDirectory_eq, hentry], ?_⟩
  have hpath := hs.pathDir_eq
  unfold parentNode at hpath
  rw [hparent, nameLen_toNat (Nat.le_of_lt hlen)] at hpath
  rw [← hentry, Option.map_map]
  exact hpath

/-- `read_directory` refuses an entry that is not listable. -/
theorem listEntry_refused {e : Entry} (h : DirTree fs) (hi : IsDirectory fs.disk i)
    (he : e ∈ entries fs.disk i) (hl : ListableEntry fs.disk e = false) :
    (listEntry (tempRequest c i temp) fs (some e)).1 ≠ 0 := by
  unfold listEntry
  dsimp only
  by_cases ht : e.fileType = 2
  · have hdir := h.isDirectory hi he ht
    have hsize : iSize (view (fs.readBlocks (fs.inodeBlock e.inode)) (slotOffset e.inode)) =
        iSize (slot fs.disk e.inode) := iSize_congr fun _ ho => h.layout.node_apply hdir.isInode ho
    have hpos : 0 < iSize (slot fs.disk e.inode) := by
      apply Nat.pos_of_ne_zero
      intro h0
      unfold ListableEntry at hl
      rw [ht, h0] at hl
      cases hl
    rw [if_neg (not_not.mpr ht), hsize]
    have hneg : (-1 : Int) ≠ 0 := by decide
    split_ifs with h1 h2 h3
    · exact hneg
    · exact hneg
    · exact hneg
    · exact absurd hpos h3
  · rw [if_pos ht]
    exact Int.one_ne_zero

theorem listEntry_listed {e : Entry} (h : DirTree fs) (hi : IsDirectory fs.disk i)
    (he : e ∈ entries fs.disk i) (hl : ListableEntry fs.disk e = true) :
    (listEntry (tempRequest c i temp) fs (some e)).1 = 0 := by
  unfold ListableEntry at hl
  rw [Bool.and_eq_true, beq_iff_eq, beq_iff_eq] at hl
  obtain ⟨ht, h0⟩ := hl
  have hdir := h.isDirectory hi he ht
  have hnode : ∀ o < 70, view (fs.readBlocks (fs.inodeBlock e.inode)) (slotOffset e.inode) o =
      slot fs.disk e.inode o := fun _ ho => h.layout.node_apply hdir.isInode ho
  unfold listEntry
  dsimp only
  rw [if_neg (not_not.mpr ht), iBlocks_congr hnode, iBlock_congr hnode (by decide),
    iSize_congr hnode, if_neg (h.blocks _ hdir), if_neg (h.block_ne hdir), h0,
    if_neg (Nat.not_lt_zero _)]

end Component

/-! ## The path -/

/-- The first component of a path, and what follows behind the slash. -/
theorem takeWhile_join {c : List UInt8} (hc : 47 ∉ c) (cs : List (List UInt8)) :
    ([47].intercalate (c :: cs)).takeWhile (· ≠ 47) = c ∧
      (([47].intercalate (c :: cs)).dropWhile (· ≠ 47)).tail = [47].intercalate cs := by
  have hall : ∀ x ∈ c, decide (x ≠ 47) = true := fun x hx => decide_eq_true fun h => hc (h ▸ hx)
  cases cs with
  | nil =>
    rw [List.intercalate_singleton, List.takeWhile_eq_self_iff.mpr hall,
      List.dropWhile_eq_nil_iff.mpr hall]
    exact ⟨rfl, rfl⟩
  | cons c' cs =>
    rw [List.intercalate_cons_cons, List.append_assoc, List.takeWhile_append_of_pos hall,
      List.dropWhile_append_of_pos hall]
    exact ⟨List.append_nil c, rfl⟩

theorem join_ne_nil {c : List UInt8} (hc : c ≠ []) (cs : List (List UInt8)) :
    [47].intercalate (c :: cs) ≠ [] := by
  cases cs with
  | nil =>
    rw [List.intercalate_singleton]
    exact hc
  | cons c' cs =>
    rw [List.intercalate_cons_cons, List.append_assoc]
    exact List.append_ne_nil_of_left_ne_nil hc _

/-- A short component without a listable entry ends the loop. -/
theorem pathLoopIn_refused {fs : Fs} (h : DirTree fs) {c : List UInt8} {i : Nat}
    (hc : IsComponent c) (hlt : c.length < 64) (hi : IsDirectory fs.disk i)
    (hstop : ∀ e, entryNamed fs.disk i c = some e → ListableEntry fs.disk e = false)
    (cs : List (List UInt8)) (temp : Mem) :
    pathLoopIn fs ([47].intercalate (c :: cs)) i temp = some 0 := by
  obtain ⟨htake, -⟩ := takeWhile_join hc.noSlash cs
  obtain ⟨temp', htemp, hbytes⟩ := copyComponent_short hlt temp
  have hpos := List.length_pos_of_ne_nil hc.pos
  rw [pathLoopIn, dif_neg (join_ne_nil hc.pos cs)]
  dsimp only
  rw [htake, if_neg (by omega), htemp, Option.bind_some, (h.search hi hlt hbytes).1]
  cases he : entryNamed fs.disk i c with
  | none => exact if_pos (by decide : (2 : Int) ≠ 0)
  | some e => exact if_pos (listEntry_refused h hi (entryNamed_mem he) (hstop e he))

/-- Behind one that has a listable entry it goes on. -/
theorem pathLoopIn_next {fs : Fs} (h : DirTree fs) {c : List UInt8} {i : Nat} {e : Entry}
    (hc : IsComponent c) (hlt : c.length < 64) (hi : IsDirectory fs.disk i)
    (he : entryNamed fs.disk i c = some e) (hl : ListableEntry fs.disk e = true)
    (cs : List (List UInt8)) (temp : Mem) :
    ∃ temp', pathLoopIn fs ([47].intercalate (c :: cs)) i temp =
      pathLoopIn fs ([47].intercalate cs) e.inode temp' := by
  obtain ⟨htake, hdrop⟩ := takeWhile_join hc.noSlash cs
  obtain ⟨temp', htemp, hbytes⟩ := copyComponent_short hlt temp
  have hpos := List.length_pos_of_ne_nil hc.pos
  refine ⟨temp', ?_⟩
  rw [pathLoopIn, dif_neg (join_ne_nil hc.pos cs)]
  dsimp only
  obtain ⟨hread, hpath⟩ := h.search hi hlt hbytes
  rw [htake, hdrop, if_neg (by omega), htemp, Option.bind_some, hread, hpath, he,
    if_neg (not_not.mpr (listEntry_listed h hi (entryNamed_mem he) hl))]
  rfl

/-- From every directory on. -/
theorem pathLoopIn_follows {fs : Fs} (h : DirTree fs) {cs : List (List UInt8)} {i : Nat}
    (hcs : ∀ c ∈ cs, IsComponent c) (hi : IsDirectory fs.disk i) (temp : Mem) :
    pathLoopIn fs ([47].intercalate cs) i temp =
        some ((follow (fun _ => true) fs.disk cs i).getD 0) ↔ PathReached fs.disk cs i := by
  induction cs generalizing i temp with
  | nil =>
    rw [List.intercalate_nil, pathLoopIn, dif_pos rfl]
    refine iff_of_true rfl ⟨fun _ => Option.some_ne_none i, fun pre c post heq => ?_⟩
    exact absurd heq.symm (List.append_ne_nil_of_right_ne_nil pre (List.cons_ne_nil c post))
  | cons c cs ih =>
    have hc := hcs c List.mem_cons_self
    have hpos := List.length_pos_of_ne_nil hc.pos
    rcases Nat.lt_or_eq_of_le hc.length with hlt | h64
    · have hne : c.length ≠ 64 := Nat.ne_of_lt hlt
      cases he : entryNamed fs.disk i c with
      | none =>
        rw [pathLoopIn_refused h hc hlt hi (by rw [he]; nofun), reached_of_stop hne
          (follow_none he _) fun pre => follow_none he _, follow_none he]
        exact iff_of_true rfl rfl
      | some e =>
        have hmem := entryNamed_mem he
        cases hl : ListableEntry fs.disk e with
        | false =>
          -- the function gives up, so the path has to end somewhere
          rw [pathLoopIn_refused h hc hlt hi (by rw [he]; rintro _ ⟨⟩; exact hl),
            reached_of_stop hne (follow_stop he hl) fun pre => follow_stop he hl]
          cases hf : follow (fun _ => true) fs.disk (c :: cs) i with
          | none => exact iff_of_true rfl rfl
          | some j =>
            have hj := follow_ne_zero (by have := hi.isInode.1; omega) hf
            exact iff_of_false (fun heq => hj (Option.some.inj heq).symm) (Option.some_ne_none j)
        | true =>
          obtain ⟨temp', hnext⟩ := pathLoopIn_next h hc hlt hi he hl cs temp
          rw [hnext, follow_next hi.dir he rfl, reached_next hne hi.dir he hl]
          unfold ListableEntry at hl
          rw [Bool.and_eq_true, beq_iff_eq] at hl
          exact ih (fun c hc => hcs c (List.mem_cons_of_mem _ hc)) (h.isDirectory hi hmem hl.1)
            temp'
    · -- the terminator is written behind the buffer
      rw [pathLoopIn, dif_neg (join_ne_nil hc.pos cs)]
      dsimp only
      rw [(takeWhile_join hc.noSlash cs).1, if_neg (by omega), copyComponent_long h64,
        Option.bind_none]
      apply iff_of_false (Option.some_ne_none _).symm
      intro hr
      exact Option.some_ne_none i (hr.short [] c cs rfl h64)

/-! ## The trees of the driver -/

/-- The states that `write` and `delete` lead to are such trees. -/
theorem Sound.dirTree {fs : Fs} (h : Sound fs) : DirTree fs where
  layout := h.consistent.ready.layout
  root := h.noDangling.root
  blocks := fun p hp h0 => by
    obtain ⟨b, post, -, -, hb, -⟩ := h.dots p hp
    unfold dirBlocks at hb
    rw [h0] at hb
    cases hb
  full := h.consistent.dirFull
  dirOk := h.consistent.dirOk
  used := fun p hp e he =>
    ⟨(h.noDangling.entry p hp e he).1, (h.noDangling.entry p hp e he).2.1⟩
  typed := fun p hp e he => by
    rw [← h.noDangling.isDir_iff hp he]
    exact ⟨fun hd => hd.dir, fun hd => ⟨(h.noDangling.entry p hp e he).1,
      (h.noDangling.entry p hp e he).2.1, hd⟩⟩

/-- Their directories have a size, so no entry is listable. -/
theorem Tree.not_listable {fs : Fs} (ht : Tree fs) {p : Nat} {e : Entry}
    (hp : IsDirectory fs.disk p) (he : e ∈ entries fs.disk p) :
    ListableEntry fs.disk e = false := by
  apply Bool.eq_false_iff.mpr
  intro hl
  unfold ListableEntry at hl
  rw [Bool.and_eq_true, beq_iff_eq, beq_iff_eq] at hl
  have hdir := ht.sound.dirTree.isDirectory hp he hl.1
  have hsize := ht.shaped.size e.inode hdir
  have hblocks := ht.sound.dirTree.blocks e.inode hdir
  omega

/-- In them `get_inode_for_path` finds nothing but the root directory. -/
theorem Tree.getInodeForPath {fs : Fs} (ht : Tree fs) {c : List UInt8} (hc : IsComponent c)
    (hlt : c.length < 64) (cs : List (List UInt8)) (temp : Mem) :
    getInodeForPathIn (47 :: [47].intercalate (c :: cs)) temp fs = some 0 := by
  unfold getInodeForPathIn
  rw [List.head?_cons, if_neg (not_not.mpr rfl), List.tail_cons, if_neg (join_ne_nil hc.pos cs)]
  have hroot := ht.sound.dirTree.root
  exact pathLoopIn_refused ht.sound.dirTree hc hlt hroot
    (fun e he => ht.not_listable hroot (entryNamed_mem he)) cs temp

/-! ## Result -/

/-- On every path in every tree: `get_inode_for_path` stays inside its buffer and returns the inode
    that the components lead to, or 0 where they lead to none, exactly when the path is reached. -/
theorem getInodeForPath_follows {fs : Fs} (h : DirTree fs) {cs : List (List UInt8)}
    (hcs : ∀ c ∈ cs, IsComponent c) (temp : Mem) :
    getInodeForPathIn (47 :: [47].intercalate cs) temp fs =
        some ((follow (fun _ => true) fs.disk cs 1).getD 0) ↔ PathReached fs.disk cs 1 := by
  unfold getInodeForPathIn
  rw [List.head?_cons, if_neg (not_not.mpr rfl), List.tail_cons,
    ← pathLoopIn_follows h hcs h.root temp]
  by_cases hnil : [47].intercalate cs = []
  · rw [if_pos hnil, hnil, pathLoopIn, dif_pos rfl]
  · rw [if_neg hnil]

/-- A path of one component in the file system with a directory `bin`. -/
theorem getInodeForPath_follows_bin :
    getInodeForPathIn (47 :: [47].intercalate [[98]]) (fun _ => 0) binFs =
        some ((follow (fun _ => true) binFs.disk [[98]] 1).getD 0) ↔
      PathReached binFs.disk [[98]] 1 := by
  have hcs : ∀ c ∈ [[98]], IsComponent c := fun c hc => by
    rw [List.mem_singleton.mp hc]
    exact ⟨by decide, by decide, by decide, by decide⟩
  exact getInodeForPath_follows binFs_root.1.sound.dirTree hcs (fun _ => 0)

/-- In it `/bin` leads to inode 2, but the function returns 0; a component of 64 bytes, for which
    there is no entry, is written over the end of the buffer. -/
theorem getInodeForPath_lost : DirTree binFs ∧
    (getInodeForPathIn (47 :: [47].intercalate [[98, 105, 110]]) (fun _ => 0) binFs = some 0 ∧
      follow (fun _ => true) binFs.disk [[98, 105, 110]] 1 = some 2) ∧
    getInodeForPathIn (47 :: [47].intercalate [List.replicate 64 97]) (fun _ => 0) binFs =
      none := by
  obtain ⟨ht, hroot, -, A, B, hdots, hentries⟩ := binFs_root
  refine ⟨ht.sound.dirTree, ⟨?_, ?_⟩, ?_⟩
  · exact ht.getInodeForPath ⟨by decide, by decide, by decide, by decide⟩ (by decide) [] _
  · have hnamed : entryNamed binFs.disk 1 [98, 105, 110] = some ⟨[98, 105, 110], 2, 2⟩ := by
      unfold entryNamed
      rw [hentries, List.find?_append, List.find?_eq_none.mpr, Option.none_or,
        List.find?_cons_of_pos]
      · rfl
      · intro a ha
        have hmem : a ∈ dotEntries 1 1 := hdots ▸ List.mem_append_left B ha
        rcases mem_dotEntries.mp hmem with rfl | rfl
        · decide
        · decide
    rw [follow_next hroot.dir hnamed rfl]
    rfl
  · have hlong : (List.replicate 64 (97 : UInt8)).takeWhile (· ≠ 47) = List.replicate 64 97 := by
      decide
    unfold getInodeForPathIn
    rw [List.head?_cons, if_neg (not_not.mpr rfl), List.tail_cons, List.intercalate_singleton,
      if_neg (by decide), pathLoopIn, dif_neg (by decide)]
    dsimp only
    rw [hlong, if_neg (by decide), copyComponent_long List.length_replicate]
    rfl

end LossOs.Ext2
