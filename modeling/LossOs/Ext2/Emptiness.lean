/-
  The emptiness test.

  In every run that keeps to the pointers and blocks there are, a directory starts with its own
  `.`, and behind it the first block holds live records only (`Shaped`). `is_directory_empty`
  makes two hops in this block: with three records or more it finds the third, else the bytes
  that lie behind the block in the buffer. `emptiness_test_iff` says when that is right.
-/
import LossOs.Ext2.EntryLists
import LossOs.Ext2.UniqueNames

namespace LossOs.Ext2

open LossOs.Lib

/-! ## The shape of a directory -/

/-- The first records of directory `p`, which has the blocks `bs`: its own `.`, and live ones. -/
def DotFirst (d : Disk) (p : Nat) (bs : List Nat) : Prop :=
  ∃ b post r ys, bs = b :: post ∧ blockRecords (d b) = r :: ys ∧ r.entry = ⟨[46], p, 2⟩ ∧
    ∀ y ∈ ys, y.inode ≠ 0

/-- Every directory starts with its `.`, and has 512 bytes for each of its blocks. -/
structure Shaped (fs : Fs) : Prop extends Linked fs where
  dot : ∀ p, IsDirectory fs.disk p → DotFirst fs.disk p (dirBlocks (slot fs.disk p))
  size : ∀ p, IsDirectory fs.disk p → iSize (slot fs.disk p) = 512 * iBlocks (slot fs.disk p)

section Dot

variable {request : EXT2DriverRequest} {d d' : Disk} {p i : Nat} {e : Entry} {bs cs : List Nat}

theorem DotFirst.congr (h : DotFirst d p bs) (hd : ∀ b ∈ bs, d' b = d b) : DotFirst d' p bs := by
  obtain ⟨b, post, r, ys, rfl, hrs, hr⟩ := h
  exact ⟨b, post, r, ys, rfl, by rw [hd b List.mem_cons_self]; exact hrs, hr⟩

theorem Inserted.dotFirst (h : Inserted request i d d' bs cs) (hi : i ≠ 0) (hd : DotFirst d p bs) :
    DotFirst d' p cs := by
  obtain ⟨b, post, r, ys, hbs, hrs, hr, hlive⟩ := hd
  obtain ⟨⟨post', hcs⟩, hsame | ⟨xs, q, zs, hrs', hq, -, hnew⟩⟩ := h.first_block hbs
  · exact ⟨b, post', r, ys, hcs, hsame.trans hrs, hr, hlive⟩
  · rw [hrs] at hrs'
    cases xs with
    | nil =>
      obtain ⟨rfl, rfl⟩ := List.cons.inj hrs'
      refine ⟨b, post', _, _, hcs, hnew, hr, fun y hy => ?_⟩
      rcases List.mem_cons.mp hy with rfl | hy
      · exact hi
      · exact hlive y hy
    | cons x xs =>
      obtain ⟨rfl, rfl⟩ := List.cons.inj hrs'
      refine ⟨b, post', _, _, hcs, hnew, hr, fun y hy => ?_⟩
      rcases List.mem_append.mp hy with hy | hy
      · exact hlive y (List.mem_append_left _ hy)
      · rcases List.mem_cons.mp hy with rfl | hy
        · exact hq
        · rcases List.mem_cons.mp hy with rfl | hy
          · exact hi
          · exact hlive y (by simp [hy])

/-- The `.` of a directory goes only together with it. -/
theorem Removed.dotFirst (h : Removed request e d d' bs) (hd : DotFirst d p bs)
    (hne : p ≠ e.inode) : DotFirst d' p bs := by
  obtain ⟨b, post, r, ys, hbs, hrs, hr, hlive⟩ := hd
  rcases h.first_block hbs with
    hsame | ⟨xs, q, z, zs, hrs', -, -, hnew⟩ | ⟨q, zs, hrs', -, he, -⟩
  · exact ⟨b, post, r, ys, hbs, hsame.trans hrs, hr, hlive⟩
  · rw [hrs] at hrs'
    cases xs with
    | nil =>
      obtain ⟨rfl, rfl⟩ := List.cons.inj hrs'
      exact ⟨b, post, _, _, hbs, hnew, hr, fun y hy => hlive y (by simp [hy])⟩
    | cons x xs =>
      obtain ⟨rfl, rfl⟩ := List.cons.inj hrs'
      refine ⟨b, post, _, _, hbs, hnew, hr, fun y hy => ?_⟩
      rcases List.mem_append.mp hy with hy | hy
      · exact hlive y (by simp [hy])
      · rcases List.mem_cons.mp hy with rfl | hy
        · exact hlive q (by simp)
        · exact hlive y (by simp [hy])
  · rw [hrs] at hrs'
    obtain ⟨rfl, -⟩ := List.cons.inj hrs'
    exact absurd (by rw [← he]; exact (congrArg Entry.inode hr).symm) hne

end Dot

section Steps

variable {request : EXT2DriverRequest} {fs fs₀ fs' : Fs} {p nb i : Nat} {ni : Mem} {L X : List Nat}
  {e : Entry}

theorem Grow.parent_size (h : Grow request p nb fs fs₀ fs' i ni L X)
    (hs : iSize (slot fs.disk p) + 512 < 4294967296) :
    iSize (slot fs'.disk p) = iSize (slot fs.disk p) + 512 := by
  have hview : ∀ o < 70, slot fs'.disk p o = view (appendBlock (fs.readBlocks (inodeBlockAt p))
      (slotOffset p) nb) (slotOffset p) o := slot_of_block h.parentTable
  have hbuf : rd32 (fs.readBlocks (inodeBlockAt p)) (slotOffset p + 2) =
      iSize (slot fs.disk p) := by
    rw [← rd32_view]
    exact iSize_congr (slot_readBlocks fs p)
  rw [iSize_congr hview]
  unfold iSize appendBlock
  rw [rd32_view, rd32_wr32_of_lt]
  all_goals
    unfold iSize
    rw [rd32_view, rd32_wr32_of_ne (by omega), rd32_wr32_of_ne (by omega), hbuf]
  · rfl
  · exact hs

/-- A `write` that returns 0 gives the parent 512 bytes for each block it gets. -/
theorem write_parent_size (hc : Consistent fs) (hp : IsDirectory fs.disk request.parentInode.toNat)
    (h : iSize (slot fs.disk request.parentInode.toNat) =
      512 * iBlocks (slot fs.disk request.parentInode.toNat)) :
    iSize (slot (write request fs).2.disk request.parentInode.toNat) =
      512 * iBlocks (slot (write request fs).2.disk request.parentInode.toNat) := by
  have hw := write_cases request hc.ready hc.freeSlot hp.isInode fun hd => hc.parentOk hp.isInode hd
  have h15 := (hc.dirOk _ hp).size
  generalize write request fs = res at hw ⊢
  obtain ⟨code, fs'⟩ := res
  dsimp only at hw ⊢
  cases hw with
  | notDir hd => rw [hp.dir] at hd; cases hd
  | duplicate => exact h
  | noInode => exact h
  | hole b r _ _ _ hhole => rw [hhole.slot_eq hp.isInode (hhole.ne_parent hp).symm]; exact h
  | noBlock => exact h
  | halfGrown nb _ _ hgrab => rw [hgrab.slot_eq]; exact h
  | grow nb _ hmiss hgrab _ hg =>
    have hnb := hgrab.data nb (by simp)
    rw [(hg.parent_fields h15 hnb.1).2.1, hg.parent_size (by omega), h]
    omega

theorem DirNode.slot_size {b : Nat} {d : Disk} (h : DirNode ni b) (hs : slot d i = cutNode ni) :
    iSize (slot d i) = 512 * iBlocks (slot d i) := by
  have hn : ∀ o < 70, slot d i o = ni o := fun o ho => by rw [hs, cutNode_of_lt ho]
  rw [iSize_congr hn, iBlocks_congr hn, h.size, h.count]

theorem Shaped.withStack (h : Shaped fs) (s : Mem) : Shaped (fs.withStack s) :=
  ⟨h.toLinked.withStack s, h.dot, h.size⟩

theorem Quiet.shaped (h : Quiet fs fs') (hs : Shaped fs) : Shaped fs' := by
  refine ⟨h.linked hs.toLinked, fun p hp => ?_, fun p hp => ?_⟩ <;>
    have hp' := h.isDirectory_iff.mp hp <;> rw [h.slots p]
  · exact (hs.dot p hp').congr fun b hb => h.dirBlock_eq hs.consistent hp' hb
  · exact hs.size p hp'

theorem Created.shaped (h : Created request fs fs' request.parentInode.toNat i ni L)
    (hs : Shaped fs) (hp : IsDirectory fs.disk request.parentInode.toNat)
    (hsize : iSize (slot fs'.disk request.parentInode.toNat) =
      512 * iBlocks (slot fs'.disk request.parentInode.toNat)) : Shaped fs' := by
  have hc := hs.consistent
  have hp0 : request.parentInode.toNat ≠ 0 := by have := hp.isInode.1; omega
  refine ⟨h.linked hs.toLinked hp, fun q hq => ?_, fun q hq => ?_⟩
  · by_cases hqi : q = i
    · subst hqi
      obtain ⟨-, -, b, hbs, hrec⟩ := h.newDir hq
      refine ⟨b, [], _, _, hbs, hrec, rfl, fun y hy => ?_⟩
      rw [List.mem_singleton.mp hy]
      exact hp0
    · have hq' := (h.isDirectory_iff hqi).mp hq
      by_cases hqp : q = request.parentInode.toNat
      · subst hqp
        exact h.parent.dotFirst h.ne_zero (hs.dot _ hp)
      · rw [h.others q hq.isInode hqi hqp]
        exact (hs.dot q hq').congr fun b hb => h.dirBlock_eq hc hp hq' hqp hb
  · by_cases hqi : q = i
    · subst hqi
      obtain ⟨hdir, hslot, -⟩ := h.newDir hq
      obtain ⟨d₀, hm⟩ := h.made
      cases hm with
      | file t hreg => rw [hdir] at hreg; cases hreg
      | dir b _ _ hat => exact hat.toDirNode.slot_size hslot
    · by_cases hqp : q = request.parentInode.toNat
      · rw [hqp]
        exact hsize
      · rw [h.others q hq.isInode hqi hqp]
        exact hs.size q ((h.isDirectory_iff hqi).mp hq)

theorem Deleted.shaped (h : Deleted request fs fs' p e) (hs : Shaped fs)
    (hp : IsDirectory fs.disk p) (hl : Linked fs') : Shaped fs' := by
  refine ⟨hl, fun q hq => ?_, fun q hq => ?_⟩ <;>
    obtain ⟨hq', hne⟩ := h.isDirectory_iff.mp hq <;> rw [h.others q hq.isInode hne]
  · by_cases hqp : q = p
    · subst hqp
      exact h.parent.dotFirst (hs.dot _ hp) hne
    · exact (hs.dot q hq').congr fun b hb => h.dirBlock_eq hs.consistent hp hq' hqp hb
  · exact hs.size q hq'

/-- Every call of which `Within` holds keeps the shape. -/
theorem Shaped.run {c : Call} (hs : Shaped fs) (hok : Within c fs) : Shaped (c.run fs).2 := by
  have hc := hs.consistent
  cases c with
  | write request =>
    have h896 : request.parentInode.toNat ≤ 896 := hok.parent
    rcases write_call hc h896 (hok.write _ rfl) with ⟨-, hq⟩ | ⟨-, hp, -, i, ni, L, hnew⟩
    · exact hq.shaped hs
    · exact hnew.shaped hs hp (write_parent_size hc hp (hs.size _ hp))
  | delete request =>
    have hl := hs.toLinked.run hok
    rcases hs.toLinked.delete hok with ⟨-, he⟩ | ⟨-, hp, e, -, -, -, -, -, hdel⟩
    · rw [Call.run_delete, he]
      exact hs
    · exact hdel.shaped hs hp hl

theorem Shaped.write (hs : Shaped fs) (hok : Within (.write request) fs) :
    Shaped (LossOs.Ext2.write request fs).2 := hs.run hok

theorem Formatted.shaped (h : Formatted fs) : Shaped fs := by
  refine ⟨h.named.linked, fun p hp => ?_, fun p hp => ?_⟩ <;> obtain rfl := h.isDirectory_iff.mp hp
  · refine ⟨21, [], _, _, h.rootBlocks, h.rootRecords, rfl, fun y hy => ?_⟩
    rw [List.mem_singleton.mp hy]
    decide
  · obtain ⟨m, hm, hd⟩ := h.root
    exact hd.toDirNode.slot_size hm

/-- The first `write` finds room in the root, and a free block. -/
theorem Formatted.within (h : Formatted fs) (hp : request.parentInode = 1)
    (h1 : requestName request ≠ [46]) (h2 : requestName request ≠ [46, 46]) :
    Within (.write request) fs := by
  have hone : request.parentInode.toNat = 1 := by rw [hp]; rfl
  have hit := (h.stop h1 h2).firstHit
  rw [← hone] at hit
  refine ⟨?_, fun request' hc _ => ?_, fun _ _ hc => by cases hc⟩
  · show request.parentInode.toNat ≤ 896
    omega
  · obtain rfl : request = request' := Call.write.inj hc
    refine ⟨fun hmiss => ?_, fun _ i hi => ?_⟩
    · rw [hit] at hmiss
      cases hmiss
    · rw [h.firstFreeInode, Option.some.injEq] at hi
      subst hi
      rw [roomFrom_of_hit hit]
      exact ⟨22, h.free_mem⟩

end Steps

/-- In every run from a fresh file system, directories are shaped. -/
theorem shaped_run {fs₀ fs : Fs} (h : IsFresh fs₀) (hrun : Run Within fs₀ fs) : Shaped fs :=
  hrun.invariant (fun _ s h => h.withStack s) (fun _ _ h => h.run) h.formatted.shaped

/-! ## The test -/

/-- The directory holds an entry besides `.` and `..`. -/
def Occupied (d : Disk) (p : Nat) : Prop := ∃ e ∈ entries d p, Proper e

/-- The number of records in the first block of directory `p`. -/
def firstCount (d : Disk) (p : Nat) : Nat := (blockRecords (d (iBlock (slot d p) 0))).length

/-- The inode number that two hops find behind a block of at most two records: one of them may
    have to be a hop from the end of the block. -/
def inodeBehind (stack : Mem) (count : Nat) : Nat :=
  if count = 1 then entryInode stack (512 + entryRecLen stack 512) else entryInode stack 512

section Test

variable {fs : Fs} {p : Nat}

/-- The first block of a directory. -/
theorem Consistent.first_block (hc : Consistent fs) (hp : IsDirectory fs.disk p) {b : Nat}
    {post : List Nat} (hbs : dirBlocks (slot fs.disk p) = b :: post) :
    0 < iBlocks (slot fs.disk p) ∧ iBlock (slot fs.disk p) 0 = b ∧ IsDirBlock (fs.disk b) := by
  have hptrs := hbs
  rw [dirBlocks_of_full (hc.dirFull p hp)] at hptrs
  unfold dirPtrs at hptrs
  cases hn : iBlocks (slot fs.disk p) with
  | zero => rw [hn] at hptrs; cases hptrs
  | succ n =>
    rw [hn, List.range_succ_eq_map] at hptrs
    exact ⟨by omega, (List.cons.inj hptrs).1, (hc.dirOk p hp).blocks b (by rw [hbs]; simp)⟩

/-- What the test looks at. -/
theorem Shaped.isDirectoryEmpty_eq (h : Shaped fs) (hp : IsDirectory fs.disk p) :
    isDirectoryEmpty p fs = true ↔
      firstCount fs.disk p ≤ 2 ∧ inodeBehind fs.stack (firstCount fs.disk p) = 0 := by
  obtain ⟨b, post, r, ys, hbs, hrs, -, hlive⟩ := h.dot p hp
  obtain ⟨hpos, hb, hblock⟩ := h.consistent.first_block hp hbs
  have hl := h.consistent.ready.layout
  have htiles := hblock.tiles_read
  have hbehind : ∀ o, 512 ≤ o → fs.readBlocks b o = fs.stack o := fun o ho => by
    unfold Fs.readBlocks
    rw [dif_neg (by omega)]
  unfold isDirectoryEmpty firstCount
  dsimp only
  rw [iMode_view hl hp.isInode, if_neg (isDir_eq_true.mp hp.dir),
    iBlock_congr (fun o ho => hl.node_apply hp.isInode ho) (by decide), hb, beq_iff_eq]
  rw [hrs] at htiles ⊢
  obtain ⟨hr, -, -, htiles⟩ := htiles
  have hlen : entryRecLen (fs.readBlocks b) 0 = r.recLen := congrArg Rec.recLen hr
  rw [hlen]
  cases ys with
  | nil =>
    have hend : 0 + r.recLen = 512 := htiles
    rw [show r.recLen = 512 by omega]
    have h16 : entryRecLen (fs.readBlocks b) 512 = entryRecLen fs.stack 512 :=
      rd16_congr fun o ho _ => hbehind o (by omega)
    have h32 : ∀ o, 512 ≤ o → entryInode (fs.readBlocks b) o = entryInode fs.stack o :=
      fun o ho => rd32_congr fun o' ho' _ => hbehind o' (by omega)
    rw [h16, h32 _ (by omega)]
    simp [inodeBehind]
  | cons y ys =>
    obtain ⟨hy, -, -, htiles⟩ := htiles
    rw [Nat.zero_add] at hy htiles
    have hlen' : entryRecLen (fs.readBlocks b) r.recLen = y.recLen := congrArg Rec.recLen hy
    rw [hlen']
    cases ys with
    | nil =>
      have hend : r.recLen + y.recLen = 512 := htiles
      rw [hend, show entryInode (fs.readBlocks b) 512 = entryInode fs.stack 512 from
        rd32_congr fun o ho _ => hbehind o ho]
      simp [inodeBehind]
    | cons z zs =>
      have hz : entryInode (fs.readBlocks b) (r.recLen + y.recLen) = z.inode :=
        congrArg Rec.inode htiles.1
      rw [hz]
      simp only [List.length_cons]
      exact iff_of_false (hlive z (by simp)) (by omega)

/-- `delete` of a directory goes by the test. -/
theorem delete_dir_iff (hc : Consistent fs) {request : EXT2DriverRequest} {e : Entry}
    (hp : IsDirectory fs.disk request.parentInode.toNat)
    (hfirst : firstNamed request fs.disk request.parentInode.toNat = some e)
    (htype : e.fileType = 2) (hreq : request.isDirectory = true) :
    (delete request fs).1 = 0 ↔ isDirectoryEmpty e.inode fs = true := by
  constructor
  · intro h0
    rcases delete_call hc hp.isInode.2 with ⟨hne, -⟩ | ⟨-, -, e', hfirst', htwo, -⟩
    · exact absurd h0 hne
    · obtain rfl := Option.some.inj (hfirst.symm.trans hfirst')
      exact (htwo hreq).2
  · intro hempty
    exact delete_succeeds hc hp hfirst (fun _ => ⟨htype, hempty⟩) fun h => by
      rw [hreq] at h
      cases h

end Test

/-- The test says whether directory `p` holds an entry besides `.` and `..`, and `delete` of `p`
    succeeds accordingly. -/
structure TestOk (fs : Fs) (p : Nat) : Prop where
  test : isDirectoryEmpty p fs = true ↔ ¬ Occupied fs.disk p
  delete : ∀ request e, IsDirectory fs.disk request.parentInode.toNat →
    firstNamed request fs.disk request.parentInode.toNat = some e → e.inode = p →
    e.fileType = 2 → request.isDirectory = true →
    ((LossOs.Ext2.delete request fs).1 = 0 ↔ ¬ Occupied fs.disk p)

/-- The first block has a third record, and the directory is occupied; or it has none, and what
    lies behind it in the buffer is 0 just when the directory is not. -/
def TestFits (d : Disk) (stack : Mem) (p : Nat) : Prop :=
  if 2 < firstCount d p then Occupied d p
  else inodeBehind stack (firstCount d p) = 0 ↔ ¬ Occupied d p

/-- In every run from a fresh file system, and with any bytes behind the block in the buffer, the
    test is right exactly if the two hops find a third record, or bytes that happen to say what
    the other blocks hold. -/
theorem emptiness_test_iff {fs₀ fs : Fs} (h : IsFresh fs₀) (hrun : Run Within fs₀ fs) (stack : Mem)
    {p : Nat} (hp : IsDirectory fs.disk p) :
    TestOk (fs.withStack stack) p ↔ TestFits fs.disk stack p := by
  have hs := (shaped_run h hrun).withStack stack
  have heq := hs.isDirectoryEmpty_eq hp
  have hfits : TestFits fs.disk stack p ↔
      (isDirectoryEmpty p (fs.withStack stack) = true ↔ ¬ Occupied fs.disk p) := by
    rw [heq]
    unfold TestFits
    by_cases hcount : 2 < firstCount fs.disk p
    · rw [if_pos hcount]
      have : ¬ firstCount (fs.withStack stack).disk p ≤ 2 := not_le.mpr hcount
      tauto
    · rw [if_neg hcount]
      have : firstCount (fs.withStack stack).disk p ≤ 2 := not_lt.mp hcount
      exact iff_congr (iff_of_eq (by rw [and_iff_right this]; rfl)) Iff.rfl
  rw [hfits]
  refine ⟨TestOk.test, fun ht => ⟨ht, ?_⟩⟩
  intro request e hdir hfirst hpe htype hreq
  subst hpe
  rw [delete_dir_iff hs.consistent hdir hfirst htype hreq]
  exact ht

/-- The root directory of a fresh file system holds `.` and `..`. -/
theorem Formatted.root_empty {fs : Fs} (h : Formatted fs) :
    firstCount fs.disk 1 = 2 ∧ ¬ Occupied fs.disk 1 := by
  constructor
  · unfold firstCount
    rw [(h.consistent.first_block (h.isDirectory_iff.mpr rfl) h.rootBlocks).2.1, h.rootRecords]
    rfl
  · rintro ⟨e, he, hP⟩
    rw [h.rootEntries] at he
    exact not_proper_dot e he hP

/-- A fresh file system after the first directory. -/
def dirFs : Fs := (write (rootRequest [100] [] true) freshFs).2

/-- The directory holds `.` and `..`, and the root the directory besides. -/
theorem dirFs_counts : Run Within freshFs dirFs ∧
    (IsDirectory dirFs.disk 1 ∧ firstCount dirFs.disk 1 = 3 ∧ Occupied dirFs.disk 1) ∧
    IsDirectory dirFs.disk 2 ∧ firstCount dirFs.disk 2 = 2 ∧ ¬ Occupied dirFs.disk 2 := by
  have hf := isFresh_freshFs.formatted
  have hdot : requestName (rootRequest [100] [] true) ≠ [46] := by decide
  have hdots : requestName (rootRequest [100] [] true) ≠ [46, 46] := by decide
  have hrun : Run Within freshFs dirFs := (Run.refl freshFs).write
    (hf.within rfl hdot hdots)
  obtain ⟨-, ni, L, h⟩ := hf.write_first (rootRequest [100] [] true) rfl hdot hdots
  rw [show (write (rootRequest [100] [] true) freshFs).2 = dirFs from rfl] at h
  have hc := (shaped_run isFresh_freshFs hrun).consistent
  generalize dirFs = fs at h hrun hc ⊢
  have hroot : IsDirectory fs.disk 1 :=
    (h.created.isDirectory_iff (by decide)).mpr (hf.isDirectory_iff.mpr rfl)
  have hnew : IsDirectory fs.disk 2 :=
    hc.isDirectory h.hole.took.isInode (h.hole.made.isDir_eq h.hole.slotSelf)
  refine ⟨hrun, ⟨hroot, ?_, ?_⟩, hnew, ?_, ?_⟩
  · unfold firstCount
    rw [(hc.first_block hroot h.blocks).2.1, h.records]
    rfl
  · obtain ⟨A, B, -, h2, -⟩ := h.created.parentEntries
    exact ⟨newEntry (rootRequest [100] [] true) 2, by rw [h2]; simp, hdot, hdots⟩
  · obtain ⟨-, -, b, hbs, hrec⟩ := h.created.newDir hnew
    unfold firstCount
    rw [(hc.first_block hnew hbs).2.1, hrec]
    rfl
  · rintro ⟨e, he, hP⟩
    rw [h.created.newEntries (by decide) hnew] at he
    exact not_proper_dot e he hP

/-- The test is right of the root with anything behind the block, and of the directory in it
    with zeros. -/
theorem emptiness_test_iff_dir :
    TestOk (dirFs.withStack fun o => UInt8.ofNat o) 1 ∧ TestOk (dirFs.withStack fun _ => 0) 2 := by
  obtain ⟨hrun, ⟨hroot, hthree, hocc⟩, hdir, htwo, hempty⟩ := dirFs_counts
  constructor
  · refine (emptiness_test_iff isFresh_freshFs hrun (fun o => UInt8.ofNat o) hroot).mpr ?_
    unfold TestFits
    rw [hthree, if_pos (by decide)]
    exact hocc
  · refine (emptiness_test_iff isFresh_freshFs hrun (fun _ => 0) hdir).mpr ?_
    unfold TestFits
    rw [htwo, if_neg (by decide)]
    exact iff_of_true rfl hempty

/-- With other bytes behind the block the empty root directory does not pass for empty. -/
theorem emptiness_test_wrong : IsDirectory freshFs.disk 1 ∧ ¬ Occupied freshFs.disk 1 ∧
    isDirectoryEmpty 1 (freshFs.withStack fun _ => 1) = false ∧
    ¬ TestOk (freshFs.withStack fun _ => 1) 1 := by
  have hf := isFresh_freshFs.formatted
  have hp : IsDirectory freshFs.disk 1 := hf.isDirectory_iff.mpr rfl
  obtain ⟨hcount, hocc⟩ := hf.root_empty
  have hfalse : isDirectoryEmpty 1 (freshFs.withStack fun _ => 1) = false := by
    rw [← Bool.not_eq_true, (hf.shaped.withStack fun _ => 1).isDirectoryEmpty_eq hp]
    rintro ⟨-, h0⟩
    rw [show firstCount (freshFs.withStack fun _ => 1).disk 1 = 2 from hcount] at h0
    exact absurd h0 (by decide)
  refine ⟨hp, hocc, hfalse, fun h => ?_⟩
  have := h.test.mpr hocc
  rw [hfalse] at this
  cases this

end LossOs.Ext2
