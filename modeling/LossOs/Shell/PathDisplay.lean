/-
  `update_path_display` of `user/user-shell.c`.

  The path is put together from the names that a climb along `..` finds, each by a walk over the
  listing of the parent. The climb ends after 31 names, the walk sees the first block of the parent
  only, and the names are appended to 256 bytes without a test. So the path is the true one,
  whatever the uninitialised buffers hold, exactly if it has up to 31 components and 255 characters
  and its entries are all in first blocks (`path_display_iff`).
-/
import LossOs.Lib.CString
import LossOs.Ext2.Nested
import LossOs.Shell.Cd

namespace LossOs.Shell

open LossOs.Lib LossOs.Ext2

/-! ## The function -/

/-- The walk for the name of an inode: where its entry is. -/
def nameWalk (dataBuffer : Mem) (inode offset : Nat) : Option Nat :=
  if _h : offset < 8192 then
    if _h' : entryRecLen dataBuffer offset = 0 then none
    else if entryInode dataBuffer offset = inode ∧ 0 < entryNameLen dataBuffer offset ∧
        entryNameLen dataBuffer offset < 63 ∧
        ¬ (entryNameLen dataBuffer offset = 1 ∧ dataBuffer (offset + 9) = 46) ∧
        ¬ (entryNameLen dataBuffer offset = 2 ∧ dataBuffer (offset + 9) = 46 ∧
          dataBuffer (offset + 9 + 1) = 46) then some offset
    else nameWalk dataBuffer inode (offset + entryRecLen dataBuffer offset)
  else none
  termination_by 8192 - offset

/-- `while (inode != 1 && depth < 31)`, with room for `n` more names: how many there are, and the
    rows. -/
def climb : (n inode depth : Nat) → (pathParts : Rows) → Program Op Op.Reply (Option (Nat × Rows))
  | 0, _, depth, pathParts => pure (some (depth, pathParts))
  | n + 1, inode, depth, pathParts =>
      if inode = 1 then pure (some (depth, pathParts))
      else do
        let parent ← getParentInode inode
        if parent = inode then pure (some (depth, pathParts))
        else
          let dataBuffer ← scratch
          let (retCode, dataBuffer) ← syscall (.readDirectory (listRequest parent dataBuffer))
          if retCode ≠ 0 then pure (some (depth, pathParts))
          else match nameWalk dataBuffer inode 0 with
            | none => pure (some (depth, pathParts))
            | some offset =>
              match storeRow 32 64 depth (fun i => some (dataBuffer (offset + 9 + i)))
                  (entryNameLen dataBuffer offset) pathParts with
              | none => pure none
              | some pathParts => climb n parent (depth + 1) pathParts

/-- The string `"/"`. -/
def slash : Mem := fun j => if j = 0 then 47 else 0

/-- A round of the loop that appends the names. -/
def appendPart (pathPart currentPath : Mem) : Option Mem := do
  let len ← strlen 256 currentPath
  let currentPath ← if len > 1 then strcat 256 currentPath slash else some currentPath
  strcat 256 currentPath pathPart

/-- `for (int i = depth - 1; i >= 0; i--)`. -/
def joinParts (pathParts : Rows) : (i : Nat) → (currentPath : Mem) → Option Mem
  | 0, currentPath => some currentPath
  | i + 1, currentPath => do
      let currentPath ← appendPart (pathParts i) currentPath
      joinParts pathParts i currentPath

/-- `update_path_display`: nothing when it writes outside of its arrays. -/
def updatePathDisplay (currentInode : Nat) (currentPath : Mem) : Program Op Op.Reply (Option Mem) :=
  if currentInode = 1 then pure (strcpy 256 currentPath slash)
  else do
    let pathParts ← scratch
    let climbed ← climb 31 currentInode 0 fun k j => pathParts (64 * k + j)
    pure (climbed.bind fun (depth, pathParts) =>
      (strcpy 256 currentPath slash).bind (joinParts pathParts depth))

/-! ## Paths -/

/-- The names that lead from the root directory to directory `q`. -/
abbrev LeadsTo (d : Disk) (ns : List (List UInt8)) (q : Nat) : Prop :=
  LinkGraph.Leads Entry.inode Proper Entry.name (graphOf d) ns 1 q

/-- The tree as far as it is in the first blocks of its directories. -/
def firstGraph (d : Disk) : LinkGraph Nat Nat Entry :=
  { graphOf d with links := fun p => live (firstRecords d p) }

/-- They do so by entries in first blocks. -/
abbrev LeadsFirst (d : Disk) (ns : List (List UInt8)) (q : Nat) : Prop :=
  LinkGraph.Leads Entry.inode Proper Entry.name (firstGraph d) ns 1 q

/-- The path with these components. -/
def pathString : List (List UInt8) → List UInt8
  | [] => [47]
  | ns => ns.flatMap fun c => 47 :: c

/-! ## The walk -/

/-- What the walk looks for. -/
def namesInode (inode : Nat) (r : Rec) : Bool :=
  r.inode == inode && decide (0 < r.name.length) && decide (r.name.length < 63) &&
    !(r.name == [46]) && !(r.name == [46, 46])

theorem namesInode_recAt {buf : Mem} {inode o : Nat} : namesInode inode (recAt buf o) = true ↔
    entryInode buf o = inode ∧ 0 < entryNameLen buf o ∧ entryNameLen buf o < 63 ∧
      ¬ (entryNameLen buf o = 1 ∧ buf (o + 9) = 46) ∧
      ¬ (entryNameLen buf o = 2 ∧ buf (o + 9) = 46 ∧ buf (o + 9 + 1) = 46) := by
  have hlen : (recAt buf o).name.length = entryNameLen buf o := length_bytes _ _ _
  have h1 : (recAt buf o).name = [46] ↔ entryNameLen buf o = 1 ∧ buf (o + 9) = 46 := by
    constructor
    · intro h
      have h1 : entryNameLen buf o = 1 := by rw [← hlen, h]; rfl
      rw [recAt_name, h1] at h
      exact ⟨h1, (List.cons.inj h).1⟩
    · rintro ⟨h1, h2⟩
      show bytes buf (o + 9) (entryNameLen buf o) = [46]
      rw [h1]
      show [buf (o + 9)] = [46]
      rw [h2]
  have h2 : (recAt buf o).name = [46, 46] ↔
      entryNameLen buf o = 2 ∧ buf (o + 9) = 46 ∧ buf (o + 9 + 1) = 46 := by
    constructor
    · intro h
      have h2 : entryNameLen buf o = 2 := by rw [← hlen, h]; rfl
      rw [recAt_name, h2] at h
      obtain ⟨h3, h4⟩ := List.cons.inj h
      exact ⟨h2, h3, (List.cons.inj h4).1⟩
    · rintro ⟨h2, h3, h4⟩
      show bytes buf (o + 9) (entryNameLen buf o) = [46, 46]
      rw [h2]
      show [buf (o + 9), buf (o + 9 + 1)] = [46, 46]
      rw [h3, h4]
  unfold namesInode
  rw [hlen]
  simp only [Bool.and_eq_true, beq_iff_eq, decide_eq_true_eq, Bool.not_eq_true',
    beq_eq_false_iff_ne,
    ne_eq, h1, h2, and_assoc]
  rfl

/-- Over a tiling the walk finds the first of these records, or goes on behind it. -/
theorem nameWalk_tiles {buf : Mem} {inode o e : Nat} {rs : List Rec} (h : Tiles buf o rs e)
    (he : e ≤ 8192) : nameWalk buf inode o =
      ((rs.find? (namesInode inode)).map Rec.off).or (nameWalk buf inode e) := by
  induction rs generalizing o with
  | nil =>
    obtain rfl : o = e := h
    rfl
  | cons r rs ih =>
    obtain ⟨hr, -, hsize, hrs⟩ := h
    have hle := hrs.le
    have hsz := size_le_entryRecLen r
    have hlen : entryRecLen buf o = r.recLen := congrArg Rec.recLen hr
    rw [nameWalk, dif_pos (by omega), dif_neg (by omega), List.find?_cons, ← hr]
    by_cases hn : namesInode inode (recAt buf o) = true
    · rw [if_pos (namesInode_recAt.mp hn), hn]
      rfl
    · rw [if_neg fun h => hn (namesInode_recAt.mpr h), Bool.eq_false_iff.mpr hn, hlen]
      exact ih hrs

/-! ## One step up -/

/-- With zeros in the buffers and on the stack. -/
structure Blank (m : Machine) : Prop where
  user : ∀ n j, m.user n j = 0
  kernel : ∀ n j, m.kernel n j = 0

theorem blank_zeros (fs : Fs) : Blank (Machine.zeros fs) := ⟨fun _ _ => rfl, fun _ _ => rfl⟩

theorem Blank.looked {m : Machine} (h : Blank m) : Blank m.looked :=
  ⟨fun n j => h.user (n + 1) j, fun n j => h.kernel (n + 1) j⟩

section Step

variable {m : Machine} {p q : Nat} {a : Entry} {ns : List (List UInt8)} {c : List UInt8}

/-- Behind the first block there are zeros. -/
theorem Blank.lookedAt (h : Blank m) {j : Nat} (hj : 512 ≤ j) : Shell.lookedAt m p j = 0 := by
  unfold Shell.lookedAt listed
  by_cases hlt : j < iSize (slot m.looked.fs.disk p)
  · rw [blit_of_mem (Nat.zero_le j) (by omega)]
    unfold Fs.readBlocks
    rw [dif_neg (by omega)]
    exact h.kernel 0 _
  · rw [blit_of_not_mem (by omega)]
    exact h.user 0 j

/-- The directory above. -/
theorem enter_up (ht : Tree m.fs) (hq : IsDirectory m.fs.disk q) (hp : IsDirectory m.fs.disk p)
    (ha : a ∈ entries m.fs.disk p) (hP : Proper a) (he : a.inode = q) {up : Nat}
    (h : enter m.fs.disk q [46, 46] = some up) : up = p := by
  obtain ⟨e, hf, rfl⟩ := Option.map_eq_some_iff.mp h
  have hn := List.find?_some hf
  unfold dirNamed at hn
  rw [Bool.and_eq_true, beq_iff_eq, beq_iff_eq] at hn
  rcases ht.sound.rooted.toUp q hq e (List.mem_of_find?_eq_some hf) hn.2 with ⟨h1, -⟩ |
    ⟨hd, b, hb, hb1, hb2, hbq⟩
  · exact absurd (he.trans h1) (ht.sound.rooted.proper p hp a ha hP.1 hP.2)
  · exact (ht.entry_unique hd hb ⟨hb1, hb2⟩ hp ha hP (hbq.trans he.symm)).1

/-- What the walk over the listing of the parent finds: the entry, when it is in the first
    block. -/
theorem nameWalk_first (ht : Tree m.fs) (hp : IsDirectory m.fs.disk p)
    (ha : a ∈ entries m.fs.disk p) (hP : Proper a) (hlen : 0 < a.name.length ∧ a.name.length < 63) :
    (a ∈ live (firstRecords m.fs.disk p) → ∃ o, nameWalk (lookedAt m p) a.inode 0 = some o ∧
      (recAt (lookedAt m p) o).name = a.name) ∧
    (a ∉ live (firstRecords m.fs.disk p) → Blank m →
      nameWalk (lookedAt m p) a.inode 0 = none) := by
  have htiles := lookedAt_tiles ht hp
  obtain ⟨rest, heq, -⟩ := ht.entries_first hp
  have hsub : ∀ {b : Entry}, b ∈ live (firstRecords m.fs.disk p) → b ∈ entries m.fs.disk p := by
    intro b hb
    rw [heq]
    exact List.mem_append_left rest hb
  -- a record that is found is the one of the entry
  have honly : ∀ r ∈ firstRecords m.fs.disk p, namesInode a.inode r = true →
      a ∈ live (firstRecords m.fs.disk p) ∧ r.entry = a := by
    intro r hr hn
    unfold namesInode at hn
    simp only [Bool.and_eq_true, beq_iff_eq, decide_eq_true_eq, Bool.not_eq_true',
      beq_eq_false_iff_ne, ne_eq] at hn
    obtain ⟨⟨⟨⟨h1, -⟩, -⟩, h2⟩, h3⟩ := hn
    have h0 : r.inode ≠ 0 := by
      rw [h1]
      have := (ht.sound.noDangling.entry p hp a ha).1.1
      omega
    have hlive : r.entry ∈ live (firstRecords m.fs.disk p) :=
      List.mem_map.mpr ⟨r, List.mem_filter.mpr ⟨hr, decide_eq_true h0⟩, rfl⟩
    have hra := (ht.entry_unique hp (hsub hlive) ⟨h2, h3⟩ hp ha hP h1).2
    exact ⟨hra ▸ hlive, hra⟩
  rw [nameWalk_tiles htiles (by decide)]
  cases hf : (firstRecords m.fs.disk p).find? (namesInode a.inode) with
  | some r =>
    obtain ⟨hlive, hra⟩ := honly r (List.mem_of_find?_eq_some hf) (List.find?_some hf)
    refine ⟨fun _ => ⟨r.off, rfl, ?_⟩, fun h => absurd hlive h⟩
    rw [Tiles.recAt_eq htiles r (List.mem_of_find?_eq_some hf), ← hra]
    rfl
  | none =>
    refine ⟨fun hfirst => ?_, fun _ hblank => ?_⟩
    · obtain ⟨r, hr, hra⟩ := List.mem_map.mp hfirst
      refine absurd ?_ (List.find?_eq_none.mp hf r (List.mem_filter.mp hr).1)
      rw [← hra] at hP hlen ⊢
      unfold namesInode
      simp only [Bool.and_eq_true, beq_iff_eq, decide_eq_true_eq, Bool.not_eq_true',
        beq_eq_false_iff_ne, ne_eq]
      exact ⟨⟨⟨⟨rfl, hlen.1⟩, hlen.2⟩, hP.1⟩, hP.2⟩
    · have h0 : entryRecLen (lookedAt m p) 512 = 0 := by
        unfold entryRecLen rd16
        rw [hblank.lookedAt (by decide), hblank.lookedAt (by decide)]
        rfl
      rw [nameWalk, dif_pos (by decide), dif_pos h0]
      rfl

/-- The last name of a path is that of the entry in the directory above. -/
theorem leadsTo_append : LeadsTo m.fs.disk (ns ++ [c]) q ↔ ∃ p, LeadsTo m.fs.disk ns p ∧
    IsDirectory m.fs.disk p ∧ ∃ a ∈ entries m.fs.disk p, Proper a ∧ a.name = c ∧ a.inode = q :=
  LinkGraph.leads_append

theorem leadsFirst_append : LeadsFirst m.fs.disk (ns ++ [c]) q ↔ ∃ p, LeadsFirst m.fs.disk ns p ∧
    IsDirectory m.fs.disk p ∧
      ∃ a ∈ live (firstRecords m.fs.disk p), Proper a ∧ a.name = c ∧ a.inode = q :=
  LinkGraph.leads_append

/-- The path to a directory goes through first blocks if that to the directory above does, and the
    entry is in one. -/
theorem leadsFirst_iff (ht : Tree m.fs) (hp : IsDirectory m.fs.disk p)
    (ha : a ∈ entries m.fs.disk p) (hP : Proper a) : LeadsFirst m.fs.disk (ns ++ [a.name]) a.inode ↔
      LeadsFirst m.fs.disk ns p ∧ a ∈ live (firstRecords m.fs.disk p) := by
  rw [leadsFirst_append]
  constructor
  · rintro ⟨p', hns, hp', b, hb, hPb, -, hinode⟩
    obtain ⟨rest, heq, -⟩ := ht.entries_first hp'
    have hb' : b ∈ entries m.fs.disk p' := by
      rw [heq]
      exact List.mem_append_left rest hb
    obtain ⟨rfl, rfl⟩ := ht.entry_unique hp' hb' hPb hp ha hP hinode
    exact ⟨hns, hb⟩
  · rintro ⟨hns, hfirst⟩
    exact ⟨p, hns, hp, a, hfirst, hP, rfl, rfl⟩

theorem leadsTo_root (ht : Tree m.fs) (h : LeadsTo m.fs.disk ns 1) : ns = [] := by
  rcases List.eq_nil_or_concat ns with rfl | ⟨init, c, rfl⟩
  · rfl
  · rw [List.concat_eq_append] at h
    obtain ⟨p, -, hp, a, ha, hP, -, he⟩ := leadsTo_append.mp h
    exact absurd he (ht.sound.rooted.proper p hp a ha hP.1 hP.2)

/-- The parent of a directory that is not the root, and what the climb does there. -/
theorem climb_step (ht : Tree m.fs) (hp : IsDirectory m.fs.disk p) (ha : a ∈ entries m.fs.disk p)
    (hP : Proper a) (hdir : IsDirectory m.fs.disk a.inode)
    (hlen : 0 < a.name.length ∧ a.name.length < 63) {depth : Nat} (hdepth : depth < 32)
    (n : Nat) (pathParts : Rows) :
    (a ∈ live (firstRecords m.fs.disk p) → ∃ pathParts', Holds (pathParts' depth) a.name ∧
      (∀ k, k < depth → pathParts' k = pathParts k) ∧
      Program.run answer (climb (n + 1) a.inode depth pathParts) m =
        Program.run answer (climb n p (depth + 1) pathParts') m.looked.looked) ∧
    (a ∉ live (firstRecords m.fs.disk p) → Blank m →
      Program.run answer (climb (n + 1) a.inode depth pathParts) m =
        (some (some (depth, pathParts)), m.looked.looked)) := by
  have hne : a.inode ≠ 1 := ht.sound.rooted.proper p hp a ha hP.1 hP.2
  have hpne : p ≠ a.inode := by
    obtain ⟨rank, hrank⟩ := ht.ranked
    intro h
    have := hrank p hp a ha hP
    rw [← h] at this
    exact Nat.lt_irrefl _ this
  obtain ⟨up, henter, hrun⟩ := getParentInode_eq ht hdir
  obtain rfl : up = p := enter_up ht hdir hp ha hP rfl henter
  rw [if_neg hne] at hrun
  obtain ⟨hfound, hnone⟩ := @nameWalk_first m.looked up a (looked_tree ht) hp ha hP hlen
  rw [climb, if_neg hne, Program.run_bind_some hrun, if_neg hpne, run_scratch_bind,
    run_syscall_bind, answer_look (looked_tree ht) hp]
  dsimp only
  rw [if_neg (by decide)]
  constructor
  · intro hfirst
    obtain ⟨o, hwalk, hname⟩ := hfound hfirst
    rw [recAt_name] at hname
    have hnamelen : entryNameLen (lookedAt m.looked up) o = a.name.length := by
      rw [← hname, length_bytes]
    have hsrc : ∀ j (h : j < a.name.length),
        some (lookedAt m.looked up (o + 9 + j)) = some a.name[j] := by
      intro j hj
      rw [byte_eq_getElem hname hj]
    obtain ⟨pathParts', hstore, hrow, hsame⟩ :=
      storeRow_eq (k := depth) hdepth pathParts hsrc (by omega : a.name.length < 64)
    refine ⟨pathParts', hrow, fun k hk => funext fun j => hsame k j (Or.inl (by omega)), ?_⟩
    rw [hwalk]
    dsimp only
    rw [hnamelen, hstore]
  · intro hnot hblank
    rw [hnone hnot hblank.looked]
    exact Program.run_pure _ _

end Step

/-! ## The climb -/

/-- The rows from `depth` on hold the last `k` names of the path, which are all of them exactly if
    there was room for them and their entries are in first blocks. -/
structure Climbed (d : Disk) (ns : List (List UInt8)) (cur n depth : Nat) (before : Rows) (k : Nat)
    (pathParts : Rows) : Prop where
  le : k ≤ ns.length
  rows : ∀ i c, i < k → ns.reverse[i]? = some c → Holds (pathParts (depth + i)) c
  kept : ∀ j, j < depth → pathParts j = before j
  all : k = ns.length ↔ ns.length ≤ n ∧ LeadsFirst d ns cur

theorem Climbed.stop {d : Disk} {ns : List (List UInt8)} {cur n depth : Nat} (pathParts : Rows)
    (h : 0 = ns.length ↔ ns.length ≤ n ∧ LeadsFirst d ns cur) :
    Climbed d ns cur n depth pathParts 0 pathParts :=
  ⟨Nat.zero_le _, fun i _ hi => absurd hi (Nat.not_lt_zero i), fun _ _ => rfl, h⟩

/-- The climb goes up along the path. -/
theorem climb_run {n cur depth : Nat} {ns : List (List UInt8)} {m : Machine} {pathParts : Rows}
    (ht : Tree m.fs) (hcur : IsDirectory m.fs.disk cur) (hlead : LeadsTo m.fs.disk ns cur)
    (hnames : ∀ c ∈ ns, 0 < c.length ∧ c.length < 63) (hdepth : depth + n ≤ 32)
    (hm : Blank m ∨ LeadsFirst m.fs.disk ns cur) :
    ∃ k pathParts' m', Program.run answer (climb n cur depth pathParts) m =
        (some (some (depth + k, pathParts')), m') ∧
      Climbed m.fs.disk ns cur n depth pathParts k pathParts' := by
  induction n generalizing cur depth ns m pathParts with
  | zero =>
    refine ⟨0, pathParts, m, Program.run_pure _ m, Climbed.stop _ ?_⟩
    constructor
    · intro h0
      obtain rfl : ns = [] := List.length_eq_zero_iff.mp h0.symm
      exact ⟨Nat.zero_le _, hlead⟩
    · rintro ⟨h0, -⟩
      omega
  | succ n ih =>
    rcases List.eq_nil_or_concat ns with rfl | ⟨init, c, rfl⟩
    · obtain rfl : 1 = cur := hlead
      refine ⟨0, pathParts, m, ?_, Climbed.stop _ (iff_of_true rfl ⟨Nat.zero_le _, rfl⟩)⟩
      rw [climb, if_pos rfl]
      exact Program.run_pure _ m
    rw [List.concat_eq_append] at *
    obtain ⟨p, hinit, hp, a, ha, hP, rfl, rfl⟩ := leadsTo_append.mp hlead
    have hlen := hnames a.name (by simp)
    have hiff := @leadsFirst_iff m p a init ht hp ha hP
    obtain ⟨hfound, hnone⟩ :=
      climb_step ht hp ha hP hcur hlen (by omega : depth < 32) n pathParts
    by_cases hfirst : a ∈ live (firstRecords m.fs.disk p)
    · obtain ⟨pathParts₁, hrow, hsame, hrun⟩ := hfound hfirst
      obtain ⟨k, pathParts', m', hrun', hk⟩ :=
        @ih p (depth + 1) init m.looked.looked pathParts₁ (looked_tree (looked_tree ht)) hp hinit
          (fun c hc => hnames c (List.mem_append_left _ hc)) (by omega)
          (hm.imp (fun h => h.looked.looked) fun h => (hiff.mp h).1)
      refine ⟨k + 1, pathParts', m', ?_, ?_, fun i c hi hc => ?_, fun j hj => ?_, ?_⟩
      · rw [hrun, hrun', Nat.add_assoc, Nat.add_comm 1 k]
      · rw [List.length_append, List.length_singleton]
        exact Nat.succ_le_succ hk.le
      · rw [List.reverse_append, List.reverse_singleton, List.singleton_append] at hc
        cases i with
        | zero =>
          obtain rfl : a.name = c := Option.some.inj hc
          rw [Nat.add_zero, hk.kept depth (Nat.lt_succ_self depth)]
          exact hrow
        | succ i =>
          rw [List.getElem?_cons_succ] at hc
          have := hk.rows i c (Nat.lt_of_succ_lt_succ hi) hc
          rwa [Nat.add_assoc, Nat.add_comm 1 i] at this
      · rw [hk.kept j (Nat.lt_succ_of_lt hj), hsame j hj]
      · rw [hiff, List.length_append, List.length_singleton, Nat.add_right_cancel_iff,
          Nat.add_le_add_iff_right, and_iff_left hfirst]
        exact hk.all
    · have hblank : Blank m := hm.resolve_right fun h => hfirst (hiff.mp h).2
      refine ⟨0, pathParts, _, hnone hfirst hblank, Climbed.stop _ (iff_of_false ?_ fun h => ?_)⟩
      · rw [List.length_append, List.length_singleton]
        omega
      · exact hfirst (hiff.mp h.2).2

/-! ## The string -/

/-- A component more, with a slash in front of it unless that is the first one. -/
def joinName (s c : List UInt8) : List UInt8 := if s.length > 1 then s ++ [47] ++ c else s ++ c

theorem isString_slash : IsString slash [47] :=
  ⟨by decide, holds_iff.mpr ⟨fun j hj => by
    obtain rfl : j = 0 := by simpa using hj
    rfl, rfl⟩⟩

theorem length_le_joinNames (L : List (List UInt8)) (s : List UInt8) :
    s.length ≤ (L.foldl joinName s).length := by
  induction L generalizing s with
  | nil => exact Nat.le_refl _
  | cons c L ih =>
    refine Nat.le_trans ?_ (ih (joinName s c))
    unfold joinName
    split
    · rw [List.append_assoc, List.length_append]
      exact Nat.le_add_right _ _
    · rw [List.length_append]
      exact Nat.le_add_right _ _

/-- Behind a first component each has a slash in front. -/
theorem joinNames_behind {L : List (List UInt8)} {s : List UInt8} (hs : s.length > 1) :
    L.foldl joinName s = s ++ L.flatMap fun c => 47 :: c := by
  induction L generalizing s with
  | nil => exact (List.append_nil s).symm
  | cons c L ih =>
    have hstep : joinName s c = s ++ 47 :: c := by
      unfold joinName
      rw [if_pos hs, List.append_assoc]
      rfl
    rw [List.foldl_cons, hstep, ih (by rw [List.length_append]; omega), List.flatMap_cons,
      List.append_assoc]

theorem joinNames_eq {L : List (List UInt8)} (hL : ∀ c ∈ L, 0 < c.length) :
    L.foldl joinName [47] = pathString L := by
  cases L with
  | nil => rfl
  | cons c L =>
    have hc := hL c List.mem_cons_self
    have hstep : joinName [47] c = 47 :: c := if_neg (Nat.lt_irrefl 1)
    rw [List.foldl_cons, hstep, joinNames_behind (by rw [List.length_cons]; omega)]
    rfl

/-- One round of the loop appends a component, if there is room for it. -/
theorem appendPart_eq {row path : Mem} {s c : List UInt8} (hc : IsString row c)
    (hs : IsString path s) (hlen : s.length < 256) :
    ((joinName s c).length < 256 →
      ∃ path', appendPart row path = some path' ∧ IsString path' (joinName s c)) ∧
    (256 ≤ (joinName s c).length → appendPart row path = none) := by
  unfold joinName appendPart
  rw [strlen_eq hs hlen]
  simp only [Option.bind_eq_bind, Option.bind_some]
  by_cases h1 : s.length > 1
  · rw [if_pos h1, if_pos h1, List.length_append, List.length_append, List.length_singleton]
    obtain ⟨hroom, hfull⟩ := strcat_eq hs isString_slash hlen
    by_cases hslash : s.length + 1 < 256
    · obtain ⟨path₁, hcat, hs₁⟩ := hroom hslash
      have hlen₁ : (s ++ [47]).length = s.length + 1 := List.length_append
      obtain ⟨hroom₁, hfull₁⟩ := @strcat_eq _ _ _ _ 256 hs₁ hc (by omega)
      rw [hcat]
      rw [hlen₁] at hroom₁ hfull₁
      exact ⟨hroom₁, hfull₁⟩
    · rw [hfull (by rw [List.length_singleton]; omega)]
      exact ⟨fun h => absurd h (by omega), fun _ => rfl⟩
  · rw [if_neg h1, if_neg h1, List.length_append]
    exact strcat_eq hs hc hlen

/-- The loop appends the rows, as long as the string fits in its 256 bytes. -/
theorem joinParts_run {pathParts : Rows} {L : List (List UInt8)} {path : Mem} {s : List UInt8}
    (hrows : ∀ i c, L[i]? = some c → IsString (pathParts i) c) (hs : IsString path s)
    (hlen : s.length < 256) :
    ((L.reverse.foldl joinName s).length < 256 → ∃ path', joinParts pathParts L.length path =
      some path' ∧ IsString path' (L.reverse.foldl joinName s)) ∧
    (256 ≤ (L.reverse.foldl joinName s).length → joinParts pathParts L.length path = none) := by
  induction L using List.reverseRecOn generalizing path s with
  | nil => exact ⟨fun _ => ⟨path, rfl, hs⟩, fun h => absurd h (Nat.not_le.mpr hlen)⟩
  | append_singleton L c ih =>
    have hc : IsString (pathParts L.length) c := hrows _ c List.getElem?_concat_length
    have hrows' : ∀ i c, L[i]? = some c → IsString (pathParts i) c := by
      intro i c' hi
      apply hrows i c'
      rw [List.getElem?_append_left (List.getElem?_eq_some_iff.mp hi).1, hi]
    obtain ⟨hroom, hfull⟩ := appendPart_eq hc hs hlen
    rw [List.length_append, List.length_singleton, joinParts, List.reverse_append,
      List.reverse_singleton, List.singleton_append, List.foldl_cons]
    by_cases hstep : (joinName s c).length < 256
    · obtain ⟨path', hcat, hs'⟩ := hroom hstep
      rw [hcat]
      exact ih hrows' hs' hstep
    · have hle := length_le_joinNames L.reverse (joinName s c)
      rw [hfull (by omega)]
      exact ⟨fun h => absurd h (by omega), fun _ => rfl⟩

/-! ## The path that is shown -/

/-- The string in `current_path` is the path, and nothing was written outside of the arrays. -/
def PathShown (cur : Nat) (ns : List (List UInt8)) (m : Machine) (before : Mem) : Prop :=
  ∃ path m', Program.run answer (updatePathDisplay cur before) m = (some (some path), m') ∧
    IsString path (pathString ns)

/-- A path that fits: 31 components, 255 characters without a NUL, entries in first blocks. -/
structure PathFits (d : Disk) (cur : Nat) (ns : List (List UInt8)) : Prop where
  depth : ns.length ≤ 31
  length : (pathString ns).length ≤ 255
  noNul : 0 ∉ pathString ns
  first : LeadsFirst d ns cur

theorem mem_pathString {ns : List (List UInt8)} {c : List UInt8} (hc : c ∈ ns) {x : UInt8}
    (hx : x ∈ c) : x ∈ pathString ns := by
  cases ns with
  | nil => cases hc
  | cons n ns => exact List.mem_flatMap.mpr ⟨c, hc, List.mem_cons_of_mem 47 hx⟩

/-- The names at the end of a path make a shorter string. -/
theorem pathString_drop {ns : List (List UInt8)} (hns : ∀ c ∈ ns, 0 < c.length) {k : Nat}
    (h : pathString (ns.drop k) = pathString ns) : k = 0 ∨ ns = [] := by
  rcases Nat.eq_zero_or_pos k with rfl | hk
  · exact Or.inl rfl
  cases ns with
  | nil => exact Or.inr rfl
  | cons n ns =>
    exfalso
    obtain ⟨k, rfl⟩ : ∃ j, k = j + 1 := ⟨k - 1, by omega⟩
    have hn := hns n List.mem_cons_self
    rw [List.drop_succ_cons] at h
    have hlen := congrArg List.length h
    have hfull : pathString (n :: ns) =
        47 :: n ++ (ns.take k).flatMap (fun c => 47 :: c) ++
          (ns.drop k).flatMap fun c => 47 :: c := by
      show (n :: ns).flatMap (fun c => 47 :: c) = _
      rw [List.flatMap_cons, List.append_assoc, ← List.flatMap_append, List.take_append_drop]
    rw [hfull, List.length_append, List.length_append, List.length_cons] at hlen
    cases hd : ns.drop k with
    | nil =>
      rw [hd] at hlen
      have h1 : (pathString []).length = 1 := rfl
      omega
    | cons d ds =>
      rw [hd] at hlen
      have h2 : (pathString (d :: ds)).length = ((d :: ds).flatMap fun c => 47 :: c).length := rfl
      omega

/-- The string of the last `k` names. -/
def shownString (ns : List (List UInt8)) (k : Nat) : List UInt8 :=
  pathString (ns.drop (ns.length - k))

/-- What the climb and the loop make of a path: the string of its last names. -/
theorem updatePathDisplay_run {cur : Nat} {ns : List (List UInt8)} {m : Machine} (before : Mem)
    (ht : Tree m.fs) (hcur : IsDirectory m.fs.disk cur) (hlead : LeadsTo m.fs.disk ns cur)
    (hnames : ∀ c ∈ ns, 0 < c.length ∧ c.length < 63) (hnul : ∀ c ∈ ns, 0 ∉ c)
    (hm : Blank m ∨ LeadsFirst m.fs.disk ns cur) :
    ∃ k m', k ≤ ns.length ∧ (k = ns.length ↔ ns.length ≤ 31 ∧ LeadsFirst m.fs.disk ns cur) ∧
      ((shownString ns k).length < 256 → ∃ path,
        Program.run answer (updatePathDisplay cur before) m = (some (some path), m') ∧
          IsString path (shownString ns k)) ∧
      (256 ≤ (shownString ns k).length →
        Program.run answer (updatePathDisplay cur before) m = (some none, m')) := by
  obtain ⟨start, hstart, hs⟩ := @strcpy_eq _ _ 256 isString_slash before (by decide)
  unfold updatePathDisplay
  by_cases h1 : cur = 1
  · subst h1
    obtain rfl := leadsTo_root ht hlead
    refine ⟨0, m, Nat.le_refl _, iff_of_true rfl ⟨Nat.zero_le _, rfl⟩, fun _ => ⟨start, ?_, hs⟩,
      fun h => absurd h (by decide)⟩
    rw [if_pos rfl, hstart]
    exact Program.run_pure _ m
  rw [if_neg h1, run_scratch_bind]
  obtain ⟨k, pathParts', m', hrun, hk⟩ := @climb_run 31 cur 0 ns m.next
    (fun k j => m.user 0 (64 * k + j)) ht hcur hlead hnames (by decide)
    (hm.imp_left fun h => ⟨fun n j => h.user (n + 1) j, h.kernel⟩)
  refine ⟨k, m', hk.le, hk.all, ?_⟩
  -- the rows are the last names, the last one first
  have hrows : ∀ i c, (ns.reverse.take k)[i]? = some c → IsString (pathParts' i) c := by
    intro i c hi
    have hik : i < k := by
      have := (List.getElem?_eq_some_iff.mp hi).1
      rw [List.length_take] at this
      omega
    rw [List.getElem?_take_of_lt hik] at hi
    have hrow := hk.rows i c hik hi
    rw [Nat.zero_add] at hrow
    exact ⟨hnul c (List.mem_reverse.mp (List.mem_of_getElem? hi)), hrow⟩
  have hlen : (ns.reverse.take k).length = k := by
    rw [List.length_take, List.length_reverse, Nat.min_eq_left hk.le]
  have hrev : (ns.reverse.take k).reverse = ns.drop (ns.length - k) := by
    rw [List.reverse_take, List.reverse_reverse, List.length_reverse]
  obtain ⟨hroom, hfull⟩ := joinParts_run hrows hs (by decide)
  rw [hrev, hlen, joinNames_eq fun c hc => (hnames c (List.mem_of_mem_drop hc)).1] at hroom hfull
  rw [Program.run_bind_some hrun, Program.run_pure, Option.bind_some]
  dsimp only
  rw [hstart, Option.bind_some, Nat.zero_add]
  constructor
  · intro hlt
    obtain ⟨path, hjoin, hpath⟩ := hroom hlt
    exact ⟨path, by rw [hjoin], hpath⟩
  · intro hge
    rw [hfull hge]

section Display

variable {fs : Fs} {cur : Nat} {ns : List (List UInt8)}

/-- With zeros around, only a path that fits is shown as it is. -/
theorem PathShown.fits {before : Mem} (h : PathShown cur ns (Machine.zeros fs) before)
    (ht : Tree fs) (hcur : IsDirectory fs.disk cur) (hlead : LeadsTo fs.disk ns cur)
    (hnames : ∀ c ∈ ns, 0 < c.length ∧ c.length < 63) : PathFits fs.disk cur ns := by
  obtain ⟨path, m₁, hrun, hpath⟩ := h
  have hnul : ∀ c ∈ ns, 0 ∉ c := fun c hc h0 => hpath.noNul (mem_pathString hc h0)
  obtain ⟨k, m', hk, hall, hroom, hfull⟩ := @updatePathDisplay_run cur ns (Machine.zeros fs)
    before ht hcur hlead hnames hnul (Or.inl (blank_zeros fs))
  by_cases hlt : (shownString ns k).length < 256
  · obtain ⟨path', hrun', hpath'⟩ := hroom hlt
    have hsame := (congrArg Prod.fst hrun).symm.trans (congrArg Prod.fst hrun')
    obtain rfl : path = path' := Option.some.inj (Option.some.inj hsame)
    have heq := hpath'.unique hpath
    have hkall : k = ns.length := by
      rcases pathString_drop (fun c hc => (hnames c hc).1) heq with h0 | rfl
      · omega
      · exact Nat.le_zero.mp hk
    obtain ⟨hdepth, hfirst⟩ := hall.mp hkall
    rw [heq] at hlt
    exact ⟨hdepth, Nat.le_of_lt_succ hlt, hpath.noNul, hfirst⟩
  · have hrun' := hfull (Nat.not_lt.mp hlt)
    cases (congrArg Prod.fst hrun).symm.trans (congrArg Prod.fst hrun')

/-- A path that fits is shown as it is, whatever is in the buffers and on the stack. -/
theorem PathFits.shown {m : Machine} (h : PathFits m.fs.disk cur ns) (ht : Tree m.fs)
    (hcur : IsDirectory m.fs.disk cur) (hlead : LeadsTo m.fs.disk ns cur)
    (hnames : ∀ c ∈ ns, 0 < c.length ∧ c.length < 63) (before : Mem) :
    PathShown cur ns m before := by
  have hnul : ∀ c ∈ ns, 0 ∉ c := fun c hc h0 => h.noNul (mem_pathString hc h0)
  obtain ⟨k, m', -, hall, hroom, -⟩ :=
    updatePathDisplay_run before ht hcur hlead hnames hnul (Or.inr h.first)
  have hshown : shownString ns k = pathString ns := by
    unfold shownString
    rw [hall.mpr ⟨h.depth, h.first⟩, Nat.sub_self, List.drop_zero]
  rw [hshown] at hroom
  obtain ⟨path, hrun, hpath⟩ := hroom (Nat.lt_succ_of_le h.length)
  exact ⟨path, m', hrun, hpath⟩

/-- The path is shown as it is, whatever is in the buffers and on the stack, exactly if it fits. -/
theorem path_display_iff (ht : Tree fs) (hcur : IsDirectory fs.disk cur)
    (hlead : LeadsTo fs.disk ns cur) (hnames : ∀ c ∈ ns, 1 ≤ c.length ∧ c.length ≤ 62) :
    (∀ m, m.fs = fs → ∀ before, PathShown cur ns m before) ↔ PathFits fs.disk cur ns := by
  have hnames' : ∀ c ∈ ns, 0 < c.length ∧ c.length < 63 :=
    fun c hc => ⟨(hnames c hc).1, Nat.lt_succ_of_le (hnames c hc).2⟩
  constructor
  · intro h
    exact (h (Machine.zeros fs) rfl fun _ => 0).fits ht hcur hlead hnames'
  · rintro h m rfl before
    exact h.shown ht hcur hlead hnames' before

end Display

/-- The path of `/bin` is shown. -/
theorem path_display_bin : PathFits binFs.disk 2 [[98, 105, 110]] ∧
    ∀ m, m.fs = binFs → ∀ before, PathShown 2 [[98, 105, 110]] m before := by
  obtain ⟨ht, hroot, hbin, A, B, -, heq⟩ := binFs_root
  have h1 := binFs_blocks.1
  generalize binFs = fs at ht hroot hbin heq h1 ⊢
  have hmem : (⟨[98, 105, 110], 2, 2⟩ : Entry) ∈ entries fs.disk 1 := by
    rw [heq]
    simp
  obtain ⟨rest, hfirst, hrest⟩ := ht.entries_first hroot
  rw [hrest h1, List.append_nil] at hfirst
  have hP : Proper ⟨[98, 105, 110], 2, 2⟩ := ⟨by decide, by decide⟩
  have hleads : LeadsTo fs.disk [[98, 105, 110]] 2 := ⟨hroot, _, hmem, hP, rfl, rfl⟩
  have hfits : PathFits fs.disk 2 [[98, 105, 110]] := by
    refine ⟨by decide, by decide, by decide, hroot, ⟨[98, 105, 110], 2, 2⟩, ?_, hP, rfl, rfl⟩
    rw [hfirst] at hmem
    exact hmem
  exact ⟨hfits, (path_display_iff ht hbin hleads (by decide)).mpr hfits⟩

/-- The path of five directories with names of 62 letters has 315 characters. -/
theorem path_display_overflow : Tree (nestedFs 5) ∧ IsDirectory (nestedFs 5).disk 6 ∧
    LeadsTo (nestedFs 5).disk (List.replicate 5 letters) 6 ∧
    (∀ c ∈ List.replicate 5 letters, 1 ≤ c.length ∧ c.length ≤ 62) ∧
    ¬ ∀ m, m.fs = nestedFs 5 → ∀ before, PathShown 6 (List.replicate 5 letters) m before := by
  have h := nestedFs_five
  generalize nestedFs 5 = fs at h ⊢
  have hnames : ∀ c ∈ List.replicate 5 letters, 1 ≤ c.length ∧ c.length ≤ 62 := by decide
  refine ⟨h.tree, h.dir, h.leads, hnames, fun hall => ?_⟩
  have hfits := (hall (Machine.zeros fs) rfl fun _ => 0).fits h.tree h.dir h.leads
    fun c hc => ⟨(hnames c hc).1, Nat.lt_succ_of_le (hnames c hc).2⟩
  have hlen : ¬ (pathString (List.replicate 5 letters)).length ≤ 255 := by decide +kernel
  exact hlen hfits.length

end LossOs.Shell
