/-
  No dangling entries.

  `delete` frees the inode that the first entry of the name leads to, and `.` and `..` are names.
  In a run that keeps away from these, from growth over the new inode, and from removing a
  directory that has subdirectories, every directory starts with `.` and `..`, which lead to
  itself and to a directory that has an entry for it (`Sound`). So every entry names an inode in
  use of its type, and the root stays (`no_dangling`).
-/
import LossOs.Ext2.EntryLists
import LossOs.Ext2.UniqueNames
import LossOs.Ext2.Overflow

namespace LossOs.Ext2

open LossOs.Lib

/-! ## What is kept -/

/-- The type of the entry is that of the mode. -/
def Agrees (e : Entry) (mode : Nat) : Prop :=
  (e.fileType = 1 ∧ mode = 0x8000) ∨ (e.fileType = 2 ∧ mode = 0x4000)

/-- Every live entry of a directory names an inode in use of its type, and the root is there. -/
structure NoDangling (d : Disk) : Prop where
  root : IsDirectory d 1
  entry : ∀ p, IsDirectory d p → ∀ e ∈ entries d p,
    IsInode e.inode ∧ inodeUsed d e.inode = true ∧ Agrees e (iMode (slot d e.inode))

/-- The first records of directory `p`, which has the blocks `bs`: a `.` that leaves no room, and
    a `..`. -/
def DotsFirst (d : Disk) (p : Nat) (bs : List Nat) : Prop :=
  ∃ b post r ys, bs = b :: post ∧ blockRecords (d b) = ⟨0, p, 12, [46], 2⟩ :: r :: ys ∧
    r.inode ≠ 0 ∧ r.name = [46, 46]

/-- A consistent state in which no inode has two entries, apart from `.` and `..`, the directories
    are a tree below the root, and no entry dangles. -/
structure Sound (fs : Fs) : Prop where
  consistent : Consistent fs
  once : (graphOf fs.disk).Once Entry.inode Proper
  rooted : (graphOf fs.disk).Rooted Entry.inode (fun e => e.name = [46])
    (fun e => e.name = [46, 46]) 1
  agree : (graphOf fs.disk).Agree Entry.inode (fun _ => True) Agrees
  dots : ∀ p, IsDirectory fs.disk p → DotsFirst fs.disk p (dirBlocks (slot fs.disk p))

/-- What is asked of a call: that it keeps to the pointers and blocks there are, that a parent
    that grows is not written back over the new inode, and that a directory is deleted by its name
    in another directory and has no subdirectories. -/
structure Careful (c : Call) (fs : Fs) : Prop extends Within c fs where
  grown : ∀ request, c = .write request → Creates request fs.disk →
    firstHit request fs.disk request.parentInode.toNat = none →
    ∀ i, firstFreeInode fs.disk = some i →
      inodeBlockAt i ≠ inodeBlockAt request.parentInode.toNat
  leaf : ∀ request e, c = .delete request → request.isDirectory = true →
    firstNamed request fs.disk request.parentInode.toNat = some e → e.fileType = 2 →
    isDirectoryEmpty e.inode fs = true →
      Proper e ∧ ∀ a ∈ entries fs.disk e.inode, Proper a → a.fileType ≠ 2

/-- Files are deleted without care. -/
theorem careful_file {request : EXT2DriverRequest} {fs : Fs}
    (hreg : request.isDirectory = false) (h896 : request.parentInode.toNat ≤ 896) :
    Careful (.delete request) fs := by
  have hno : ∀ r : EXT2DriverRequest, Call.delete request = .delete r → r.isDirectory ≠ true := by
    intro r hr hd
    obtain rfl := Call.delete.inj hr
    rw [hreg] at hd
    cases hd
  exact ⟨⟨h896, fun _ hc => (by cases hc), fun r _ hc hd => absurd hd (hno r hc)⟩,
    fun _ hc => (by cases hc), fun r _ hc hd => absurd hd (hno r hc)⟩

section Dots

variable {request : EXT2DriverRequest} {d d' : Disk} {p i : Nat} {e : Entry} {bs cs : List Nat}

theorem DotsFirst.congr (h : DotsFirst d p bs) (hd : ∀ b ∈ bs, d' b = d b) : DotsFirst d' p bs := by
  obtain ⟨b, post, r, ys, rfl, hrs, hr⟩ := h
  exact ⟨b, post, r, ys, rfl, by rw [hd b List.mem_cons_self]; exact hrs, hr⟩

/-- The pass of `write` finds `.` and `..` in their places. -/
theorem DotsFirst.named (h : DotsFirst d p (dirBlocks (slot d p))) (hp : p ≠ 0)
    (hname : requestName request = [46] ∨ requestName request = [46, 46]) :
    ∃ q, firstHit request d p = some q ∧ q.2.named request = true := by
  obtain ⟨b, post, r, ys, hbs, hrs, hr0, hr⟩ := h
  have hcons : dirRecords d (dirBlocks (slot d p)) =
      (b, ⟨0, p, 12, [46], 2⟩) :: (b, r) :: (ys.map (fun r => (b, r)) ++ dirRecords d post) := by
    unfold dirRecords
    rw [hbs, List.flatMap_cons, hrs]
    rfl
  unfold firstHit
  rw [hcons, List.find?_cons]
  dsimp only
  rcases hname with hname | hname
  · have hn : Rec.named request ⟨0, p, 12, [46], 2⟩ = true := named_iff.mpr ⟨hp, hname.symm⟩
    rw [hn]
    exact ⟨_, rfl, hn⟩
  · have hdot : Rec.named request ⟨0, p, 12, [46], 2⟩ = false := by
      rw [← Bool.not_eq_true, named_iff, hname]
      exact fun h => absurd h.2 (show ¬ [46] = ([46, 46] : List UInt8) by decide)
    have hn : r.named request = true := named_iff.mpr ⟨hr0, hr.trans hname.symm⟩
    rw [hdot, dot_not_roomy, List.find?_cons, hn]
    exact ⟨_, rfl, hn⟩

theorem Inserted.dotsFirst (h : Inserted request i d d' bs cs) (hd : DotsFirst d p bs) :
    DotsFirst d' p cs := by
  obtain ⟨b, post, r, ys, hbs, hrs, hr0, hr⟩ := hd
  obtain ⟨⟨post', hcs⟩, hsame | ⟨xs, q, zs, hrs', -, hroom, hnew⟩⟩ := h.first_block hbs
  · exact ⟨b, post', r, ys, hcs, hsame.trans hrs, hr0, hr⟩
  · rw [hrs] at hrs'
    -- the record with room is not `.`
    rcases xs with _ | ⟨x, _ | ⟨y, xs⟩⟩
    · obtain ⟨rfl, -⟩ := List.cons.inj hrs'
      rw [getEntryRecordLen_eq] at hroom
      simp only [Rec.size, List.length_singleton] at hroom
      omega
    all_goals
      obtain ⟨rfl, h2⟩ := List.cons.inj hrs'
      obtain ⟨rfl, -⟩ := List.cons.inj h2
      exact ⟨b, post', _, _, hcs, hnew, hr0, hr⟩

theorem Removed.dotsFirst (h : Removed request e d d' bs) (hd : DotsFirst d p bs)
    (h1 : requestName request ≠ [46]) (h2 : requestName request ≠ [46, 46]) :
    DotsFirst d' p bs := by
  obtain ⟨b, post, r, ys, hbs, hrs, hr0, hr⟩ := hd
  rcases h.first_block hbs with
    hsame | ⟨xs, q, z, zs, hrs', hn, -, hnew⟩ | ⟨q, zs, hrs', hn, -, -⟩
  · exact ⟨b, post, r, ys, hbs, hsame.trans hrs, hr0, hr⟩
  · rw [hrs] at hrs'
    -- the record that goes is not `..`
    rcases xs with _ | ⟨x, _ | ⟨y, xs⟩⟩
    · obtain ⟨rfl, h3⟩ := List.cons.inj hrs'
      obtain ⟨rfl, -⟩ := List.cons.inj h3
      exact absurd ((named_iff.mp hn).2.symm.trans hr) h2
    all_goals
      obtain ⟨rfl, h3⟩ := List.cons.inj hrs'
      obtain ⟨rfl, -⟩ := List.cons.inj h3
      exact ⟨b, post, _, _, hbs, hnew, hr0, hr⟩
  · rw [hrs] at hrs'
    obtain ⟨rfl, -⟩ := List.cons.inj hrs'
    exact absurd (named_iff.mp hn).2.symm h1

end Dots

section Steps

variable {request : EXT2DriverRequest} {fs fs' : Fs} {p i : Nat} {ni : Mem} {L : List Nat}
  {e : Entry}

theorem Sound.withStack (h : Sound fs) (s : Mem) : Sound (fs.withStack s) :=
  ⟨h.consistent.withStack s, h.once, h.rooted, h.agree, h.dots⟩

theorem Sound.noDangling (h : Sound fs) : NoDangling fs.disk := by
  refine ⟨h.rooted.rootDir, fun p hp e he => ?_⟩
  obtain ⟨⟨h1, h2⟩, h3⟩ := h.agree p hp e (by rw [graphOf_links]; exact he) trivial
  exact ⟨h1, h2, h3⟩

/-- An entry leads to a directory if it has the type of one, and else to a file. -/
theorem NoDangling.isDir_iff (h : NoDangling fs.disk) (hp : IsDirectory fs.disk p)
    (he : e ∈ entries fs.disk p) : IsDirectory fs.disk e.inode ↔ e.fileType = 2 := by
  obtain ⟨hi, hu, hk⟩ := h.entry p hp e he
  have hd : isDir fs.disk e.inode = true ↔ e.fileType = 2 := by
    rw [isDir_eq_true]
    rcases hk with ⟨ht, hm⟩ | ⟨ht, hm⟩ <;> rw [ht, hm] <;> decide
  exact ⟨fun h => hd.mp h.dir, fun h => ⟨hi, hu, hd.mpr h⟩⟩

/-- A directory has the mode of one. -/
theorem Sound.iMode_dir (h : Sound fs) (hp : IsDirectory fs.disk p) :
    iMode (slot fs.disk p) = 0x4000 := by
  obtain ⟨b, post, r, ys, hbs, hrs, -⟩ := h.dots p hp
  have hm : (⟨[46], p, 2⟩ : Entry) ∈ entries fs.disk p := by
    unfold entries
    rw [hbs, blockEntries_cons, hrs, live_cons_of_ne (by have := hp.isInode.1; show p ≠ 0; omega)]
    exact List.mem_cons_self
  obtain ⟨-, -, hk⟩ := h.noDangling.entry p hp _ hm
  rcases hk with ⟨ht, -⟩ | ⟨-, hk⟩
  · cases ht
  · exact hk

theorem Quiet.sound (h : Quiet fs fs') (hs : Sound fs) : Sound fs' := by
  have hc := hs.consistent
  have hsame := h.same hc
  refine ⟨h.consistent, hs.once.same hsame, hs.rooted.same hsame, hs.agree.same hsame,
    fun p hp => ?_⟩
  have hp' := h.isDirectory_iff.mp hp
  rw [h.slots p]
  exact (hs.dots p hp').congr fun b hb => h.dirBlock_eq hc hp' hb

theorem Made.agrees {d₀ d : Disk} {X : List Nat} (h : Made request i d₀ d ni L X)
    (hs : slot d i = cutNode ni) : Agrees (newEntry request i) (iMode (slot d i)) := by
  rw [show iMode (slot d i) = iMode ni from iMode_congr fun o ho => by rw [hs, cutNode_of_lt ho]]
  unfold Agrees newEntry requestFileType
  cases h with
  | file t hreg hat =>
    rw [hreg]
    exact Or.inl ⟨rfl, hat.mode⟩
  | dir b hdir _ hat =>
    rw [hdir]
    exact Or.inr ⟨rfl, hat.mode⟩
  | fallback hdir _ hat =>
    rw [hdir]
    exact Or.inr ⟨rfl, hat.mode⟩

theorem Created.sound (h : Created request fs fs' request.parentInode.toNat i ni L)
    (hs : Sound fs) (hp : IsDirectory fs.disk request.parentInode.toNat)
    (hname : Proper (newEntry request i))
    (hkept : firstHit request fs.disk request.parentInode.toNat = none →
      inodeBlockAt i ≠ inodeBlockAt request.parentInode.toNat) : Sound fs' := by
  have hc := hs.consistent
  have hadd := h.add hc hp
  have hslot : slot fs'.disk i = cutNode ni := h.newSlot.resolve_right fun hz => hkept hz.1 hz.2.1
  obtain ⟨d₀, hmade⟩ := h.made
  have hp' : IsDirectory fs'.disk request.parentInode.toNat :=
    (h.isDirectory_iff (h.ne_of_used hp.used)).mpr hp
  refine ⟨h.consistent, hs.once.add hadd not_proper_dot,
    hs.rooted.add (graphOf_dirsUsed _) hadd hp hname fun a ha => ?_,
    hs.agree.add hadd (fun _ => hmade.agrees hslot) fun hd a ha _ => ?_, fun q hq => ?_⟩
  · rcases mem_dotEntries.mp ha with rfl | rfl
    · exact Or.inl ⟨rfl, show ¬ [46] = ([46, 46] : List UInt8) by decide, rfl⟩
    · exact Or.inr ⟨show ¬ [46, 46] = ([46] : List UInt8) by decide, rfl, rfl⟩
  · rcases mem_dotEntries.mp ha with rfl | rfl
    · have hmode := hmade.agrees hslot
      have hreq := (h.newDir hd).1
      unfold newEntry requestFileType at hmode
      rw [hreq] at hmode
      exact ⟨(hadd.used i).mpr (Or.inr rfl), hmode⟩
    · refine ⟨⟨hp'.isInode, hp'.used⟩, Or.inr ⟨rfl, ?_⟩⟩
      rw [graphOf_kind, h.parentMode]
      exact hs.iMode_dir hp
  · by_cases hqi : q = i
    · subst hqi
      obtain ⟨-, -, b, hbs, hrec⟩ := h.newDir hq
      exact ⟨b, [], _, [], hbs, hrec, Nat.one_le_iff_ne_zero.mp hp.isInode.1, rfl⟩
    · have hq' := (h.isDirectory_iff hqi).mp hq
      by_cases hqp : q = request.parentInode.toNat
      · subst hqp
        exact h.parent.dotsFirst (hs.dots _ hp)
      · rw [h.others q hq.isInode hqi hqp]
        exact (hs.dots q hq').congr fun b hb => h.dirBlock_eq hc hp hq' hqp hb

theorem Deleted.sound (h : Deleted request fs fs' p e) (hs : Sound fs) (hp : IsDirectory fs.disk p)
    (hm : e ∈ entries fs.disk p) (hname : e.name = requestName request) (hP : Proper e)
    (hleaf : e.fileType = 2 → ∀ a ∈ entries fs.disk e.inode, Proper a → a.fileType ≠ 2) :
    Sound fs' := by
  have hc := hs.consistent
  have hdrop := h.drop hc hp
  have hm' : e ∈ (graphOf fs.disk).links p := by rw [graphOf_links]; exact hm
  have hsub : (graphOf fs.disk).isDir e.inode → ∀ b ∈ (graphOf fs.disk).links e.inode,
      ¬ b.name = [46] → ¬ b.name = [46, 46] → ¬ (graphOf fs.disk).isDir b.inode := by
    intro hd b hb h1 h2 hdb
    rw [graphOf_links] at hb
    exact hleaf ((hs.noDangling.isDir_iff hp hm).mp hd) b hb ⟨h1, h2⟩
      ((hs.noDangling.isDir_iff hd hb).mp hdb)
  have hrest : ∀ q, (graphOf fs'.disk).isDir q → ∀ a ∈ (graphOf fs'.disk).links q,
      a.inode ≠ e.inode := fun q hq a ha => hs.rooted.rest hs.once hdrop hp hm' hP hsub hq ha
  refine ⟨h.consistent, hs.once.drop hdrop fun q hq a ha _ => hrest q hq a ha,
    hs.rooted.drop hdrop hp hm' hP hrest, hs.agree.drop hdrop fun q hq a ha _ => hrest q hq a ha,
    fun q hq => ?_⟩
  obtain ⟨hq', hne⟩ := h.isDirectory_iff.mp hq
  rw [h.others q hq.isInode hne]
  by_cases hqp : q = p
  · subst hqp
    exact h.parent.dotsFirst (hs.dots _ hp) (hname ▸ hP.1) (hname ▸ hP.2)
  · exact (hs.dots q hq').congr fun b hb => h.dirBlock_eq hc hp hq' hqp hb

/-- A file has a name of its own. -/
theorem Sound.proper_of_file (hs : Sound fs) (hp : IsDirectory fs.disk p)
    (hm : e ∈ entries fs.disk p) (h1 : e.fileType = 1) : Proper e := by
  have hnot : ¬ IsDirectory fs.disk e.inode := fun hd => by
    have := (hs.noDangling.isDir_iff hp hm).mp hd
    rw [h1] at this
    cases this
  have hm' : e ∈ (graphOf fs.disk).links p := by
    rw [graphOf_links]
    exact hm
  refine ⟨fun hdot => hnot ?_, fun hdots => hnot ?_⟩
  · rw [hs.rooted.toLoop _ hp e hm' hdot]
    exact hp
  · rcases hs.rooted.toUp _ hp e hm' hdots with ⟨-, he⟩ | ⟨hd, -⟩
    · rw [he]
      exact hs.rooted.rootDir
    · exact hd

/-- A `delete` that is careful finds an entry with a name of its own. -/
theorem Sound.victim (hs : Sound fs) (hok : Careful (.delete request) fs)
    (hp : IsDirectory fs.disk request.parentInode.toNat)
    (hfirst : firstNamed request fs.disk request.parentInode.toNat = some e)
    (htwo : request.isDirectory = true → e.fileType = 2 ∧ isDirectoryEmpty e.inode fs = true)
    (hone : request.isDirectory = false → e.fileType = 1) :
    Proper e ∧ (e.fileType = 2 → ∀ a ∈ entries fs.disk e.inode, Proper a → a.fileType ≠ 2) := by
  have hm := (firstNamed_mem hfirst).1
  cases hreq : request.isDirectory with
  | true =>
    obtain ⟨h2, hempty⟩ := htwo hreq
    have := hok.leaf _ e rfl hreq hfirst h2 hempty
    exact ⟨this.1, fun _ => this.2⟩
  | false =>
    have h1 := hone hreq
    exact ⟨hs.proper_of_file hp hm h1, fun h2 => by rw [h1] at h2; cases h2⟩

/-- A careful `write` changes nothing that can be reached, or adds an entry with a name of its
    own. -/
theorem Sound.write_careful (hs : Sound fs) (hok : Careful (.write request) fs) :
    ((write request fs).1 ≠ 0 ∧ Quiet fs (write request fs).2) ∨
    ((write request fs).1 = 0 ∧ IsDirectory fs.disk request.parentInode.toNat ∧
      ∃ i ni L, Created request fs (write request fs).2 request.parentInode.toNat i ni L ∧
        Proper (newEntry request i) ∧
        (firstHit request fs.disk request.parentInode.toNat = none →
          inodeBlockAt i ≠ inodeBlockAt request.parentInode.toNat)) := by
  have h896 : request.parentInode.toNat ≤ 896 := hok.parent
  rcases write_call hs.consistent h896 (hok.write _ rfl) with
    h | ⟨h0, hp, hcr, i, ni, L, hnew⟩
  · exact Or.inl h
  · refine Or.inr ⟨h0, hp, i, ni, L, hnew, ?_, fun hmiss => hok.grown _ rfl hcr hmiss i hnew.first⟩
    by_contra hn
    have hdots : requestName request = [46] ∨ requestName request = [46, 46] := by
      by_contra hn'
      rw [not_or] at hn'
      exact hn hn'
    obtain ⟨q, hq, hqn⟩ := (hs.dots _ hp).named hcr.1 hdots
    rw [hcr.unnamed hq] at hqn
    cases hqn

/-- A careful `delete` changes nothing, or removes an entry with a name of its own, and its
    inode. -/
theorem Sound.delete_careful (hs : Sound fs) (hok : Careful (.delete request) fs) :
    ((delete request fs).1 ≠ 0 ∧ (delete request fs).2 = fs) ∨
    ((delete request fs).1 = 0 ∧ IsDirectory fs.disk request.parentInode.toNat ∧
      ∃ e, firstNamed request fs.disk request.parentInode.toNat = some e ∧ Proper e ∧
        (request.isDirectory = true → e.fileType = 2 ∧ isDirectoryEmpty e.inode fs = true) ∧
        (request.isDirectory = false → e.fileType = 1) ∧
        (e.fileType = 2 → ∀ a ∈ entries fs.disk e.inode, Proper a → a.fileType ≠ 2) ∧
        Deleted request fs (delete request fs).2 request.parentInode.toNat e) := by
  have h896 : request.parentInode.toNat ≤ 896 := hok.parent
  rcases delete_call hs.consistent h896 with h | ⟨h0, hp, e, hfirst, htwo, hone, hdel⟩
  · exact Or.inl h
  · have hm := (firstNamed_mem hfirst).1
    obtain ⟨hP, hleaf⟩ := hs.victim hok hp hfirst htwo hone
    obtain ⟨hi, hu, -⟩ := hs.noDangling.entry _ hp e hm
    refine Or.inr ⟨h0, hp, e, hfirst, hP, htwo, hone, hleaf, hdel hi hu fun hd => ?_⟩
    have h2 := (hs.noDangling.isDir_iff hp hm).mp ⟨hi, hu, hd⟩
    cases hreq : request.isDirectory with
    | true => exact hok.delete _ e rfl hreq hfirst h2 (htwo hreq).2
    | false =>
      rw [hone hreq] at h2
      cases h2

/-- Every call of which `Careful` holds keeps the state sound. -/
theorem Sound.run {c : Call} (hs : Sound fs) (hok : Careful c fs) : Sound (c.run fs).2 := by
  cases c with
  | write request =>
    rw [Call.run_write]
    rcases hs.write_careful hok with ⟨-, hq⟩ | ⟨-, hp, i, ni, L, hnew, hname, hkept⟩
    · exact hq.sound hs
    · exact hnew.sound hs hp hname hkept
  | delete request =>
    rw [Call.run_delete]
    rcases hs.delete_careful hok with ⟨-, he⟩ | ⟨-, hp, e, hfirst, hP, -, -, hleaf, hdel⟩
    · rw [he]
      exact hs
    · obtain ⟨hm, hname⟩ := firstNamed_mem hfirst
      exact hdel.sound hs hp hm hname hP hleaf

end Steps

/-! ## Runs -/

/-- The root of a fresh file system is its own parent. -/
theorem Formatted.sound {fs : Fs} (h : Formatted fs) : Sound fs := by
  have hroot := h.isDirectory_iff.mpr rfl
  have hlinks : ∀ {p}, IsDirectory fs.disk p → p = 1 ∧
      (graphOf fs.disk).links p = dotEntries 1 1 := by
    intro p hp
    obtain rfl := h.isDirectory_iff.mp hp
    exact ⟨rfl, by rw [graphOf_links, h.rootEntries]; rfl⟩
  have hmode : iMode (slot fs.disk 1) = 0x4000 := by
    obtain ⟨m, hs, hat⟩ := h.root
    rw [← hat.mode]
    exact iMode_congr fun o ho => by rw [hs, cutNode_of_lt ho]
  refine ⟨h.consistent, h.tidy.once, ⟨hroot, fun p hp a ha h1 h2 => ?_, fun p hp a ha _ => ?_,
    fun p hp a ha _ => Or.inl ?_⟩, fun p hp a ha _ => ?_, fun p hp => ?_⟩
  · rw [(hlinks hp).2] at ha
    exact absurd ⟨h1, h2⟩ (not_proper_dot a ha)
  · rw [(hlinks hp).2] at ha
    rw [(hlinks hp).1]
    rcases mem_dotEntries.mp ha with rfl | rfl <;> rfl
  · rw [(hlinks hp).2] at ha
    refine ⟨(hlinks hp).1, ?_⟩
    rcases mem_dotEntries.mp ha with rfl | rfl <;> rfl
  · rw [(hlinks hp).2] at ha
    have : a.inode = 1 ∧ a.fileType = 2 := by
      rcases mem_dotEntries.mp ha with rfl | rfl <;> exact ⟨rfl, rfl⟩
    rw [this.1]
    exact ⟨⟨hroot.isInode, hroot.used⟩, Or.inr ⟨this.2, hmode⟩⟩
  · rw [(hlinks hp).1, h.rootBlocks]
    exact ⟨21, [], _, [], rfl, h.rootRecords, by decide, rfl⟩

/-- In every state that careful calls lead to, every entry names an inode in use of its type, and
    the root is an allocated directory. -/
theorem no_dangling {fs₀ fs : Fs} (h : IsFresh fs₀) (hrun : Run Careful fs₀ fs) :
    NoDangling fs.disk := by
  have hs : Sound fs := hrun.invariant (fun _ s h => h.withStack s) (fun _ _ h => h.run)
    h.formatted.sound
  exact hs.noDangling

/-! ## Names that lead to the directory itself -/

/-- A directory with nothing but `.` and `..` in its first block passes for empty when zeros lie
    behind the buffer. -/
theorem isDirectoryEmpty_dots {fs : Fs} (hl : Layout fs) {i b parent : Nat}
    (hd : IsDirectory fs.disk i) (hb : iBlock (slot fs.disk i) 0 = b)
    (hdb : IsDirBlock (fs.disk b)) (hrec : blockRecords (fs.disk b) = dotRecords i parent)
    (hstack : ∀ o, fs.stack o = 0) : isDirectoryEmpty i fs = true := by
  have hfirst : iBlock (view (fs.readBlocks (fs.inodeBlock i)) (slotOffset i)) 0 = b :=
    (iBlock_congr (fun o ho => hl.node_apply hd.isInode ho) (by decide)).trans hb
  have hat := hdb.tiles_read.recAt_eq
  rw [hrec] at hat
  have h1 : entryRecLen (fs.readBlocks b) 0 = 12 :=
    congrArg Rec.recLen (hat ⟨0, i, 12, [46], 2⟩ (by simp [dotRecords]))
  have h2 : entryRecLen (fs.readBlocks b) 12 = 500 :=
    congrArg Rec.recLen (hat ⟨12, parent, 500, [46, 46], 2⟩ (by simp [dotRecords]))
  have h3 : entryInode (fs.readBlocks b) 512 = 0 := rd32_eq_zero fun o ho _ => by
    unfold Fs.readBlocks
    rw [dif_neg (by omega), hstack]
  unfold isDirectoryEmpty
  dsimp only
  rw [iMode_view hl hd.isInode, if_neg (isDir_eq_true.mp hd.dir), hfirst, h1, Nat.add_comm 12,
    h2, h3]
  rfl

theorem Formatted.withStack {fs : Fs} (h : Formatted fs) (s : Mem) : Formatted (fs.withStack s) :=
  ⟨h.desc, h.blocks, h.inodes, h.root, h.slots⟩

/-- Removing the directory `.` of the root directory. -/
def dotRequest : EXT2DriverRequest := rootRequest [46] [] true

/-- A fresh file system loses its root directory. -/
theorem delete_dot {fs : Fs} (h : Formatted fs) (hstack : ∀ o, fs.stack o = 0) :
    (delete dotRequest fs).1 = 0 ∧ inodeUsed (delete dotRequest fs).2.disk 1 = false := by
  have hc := h.consistent
  have hroot := h.isDirectory_iff.mpr rfl
  have hblock : iBlock (slot fs.disk 1) 0 = 21 := by
    have := h.rootPtrs
    unfold dirPtrs at this
    rw [h.iBlocks_root] at this
    exact (List.cons.inj this).1
  have hdb : IsDirBlock (fs.disk 21) :=
    (hc.dirOk 1 hroot).blocks 21 (by rw [h.rootBlocks]; exact List.mem_singleton_self 21)
  have hempty : isDirectoryEmpty 1 fs = true :=
    isDirectoryEmpty_dots hc.ready.layout hroot hblock hdb h.rootRecords hstack
  have hfirst : firstNamed dotRequest fs.disk 1 = some ⟨[46], 1, 2⟩ := by
    unfold firstNamed
    rw [h.rootEntries]
    decide
  have h0 : (delete dotRequest fs).1 = 0 :=
    delete_succeeds hc hroot hfirst (fun _ => ⟨rfl, hempty⟩) (fun hreq => by cases hreq)
  refine ⟨h0, ?_⟩
  rcases @delete_call dotRequest fs hc (by decide) with ⟨hne, -⟩ | ⟨-, -, e, he, -, -, hdel⟩
  · exact absurd h0 hne
  · obtain rfl : ⟨[46], 1, 2⟩ = e := Option.some.inj (hfirst.symm.trans he)
    have hd := hdel (by decide) hroot.used fun _ => by
      show iBlocks (slot fs.disk 1) ≤ 12
      rw [h.iBlocks_root]
      decide
    rw [hd.inodes 1 (by decide), decide_eq_true rfl]
    exact Bool.and_false _

/-- The parent is a directory. -/
def DirCall (c : Call) (fs : Fs) : Prop := IsDirectory fs.disk c.request.parentInode.toNat

/-- Removing `.` from the root directory of a fresh file system frees inode 1. And the second long
    name in the root directory gets an entry whose inode has no type. -/
theorem dangling_entries :
    (∃ fs, Run DirCall freshFs fs ∧ ¬ IsDirectory fs.disk 1) ∧
    ∃ fs e, Run DirCall freshFs fs ∧ IsDirectory fs.disk 1 ∧ e ∈ entries fs.disk 1 ∧
      ¬ Agrees e (iMode (slot fs.disk e.inode)) := by
  have hf := isFresh_freshFs.formatted
  have hroot := hf.isDirectory_iff.mpr rfl
  have hlong := longDir_longFs
  obtain ⟨-, fs₀, ni, hgrow⟩ := hlong.grow (by decide)
  have hsize : iBlocks (slot longFs.disk 1) < 15 := by rw [hlong.size]; decide
  have hcr := hgrow.created hlong.consistent hlong.dir hsize (hlong.noRoom 0 le_rfl (by decide))
  have hlost := hgrow.mode_lost hlong.consistent.freeSlot hlong.dir hsize.le (by decide) rfl
  refine ⟨⟨(delete dotRequest (freshFs.withStack fun _ => 0)).2, ?_, fun hd => ?_⟩,
    (write (longNth 0) longFs).2, newEntry (longNth 0) 3, ?_, ?_, ?_, fun hk => ?_⟩
  · exact (Run.refl freshFs).tail ⟨.delete dotRequest, fun _ => 0, hroot, rfl⟩
  · have hgone := (delete_dot (hf.withStack fun _ => 0) fun _ => rfl).2
    rw [hd.used] at hgone
    cases hgone
  · have hrun : Run DirCall freshFs longFs := (Run.refl freshFs).write hroot
    exact hrun.write hlong.dir
  · exact (hcr.isDirectory_iff (by decide)).mpr hlong.dir
  · obtain ⟨A, B, -, h2, -⟩ := hcr.parentEntries
    rw [h2]
    exact List.mem_append_right A List.mem_cons_self
  · rcases hk with ⟨-, hk⟩ | ⟨-, hk⟩
    · rw [show (newEntry (longNth 0) 3).inode = 3 from rfl] at hk
      rw [hk] at hlost
      exact absurd hlost (by decide)
    · rw [show (newEntry (longNth 0) 3).inode = 3 from rfl] at hk
      rw [hk] at hlost
      exact absurd hlost (by decide)

/-- A file is written into the root directory. -/
theorem no_dangling_fresh : NoDangling (write (fileRequest 97) freshFs).2.disk := by
  have hf := isFresh_freshFs.formatted
  have hok : Careful (.write (fileRequest 97)) freshFs := by
    refine ⟨within_fileRequest_write 97 hf.rootState, fun request he _ hmiss => ?_,
      fun _ _ he => by cases he⟩
    cases he
    have hhit := (@Formatted.stop _ hf (fileRequest 97) (by decide) (by decide)).firstHit
    rw [show firstHit (fileRequest 97) freshFs.disk 1 = none from hmiss] at hhit
    cases hhit
  exact no_dangling isFresh_freshFs ((Run.refl freshFs).write hok)

end LossOs.Ext2
