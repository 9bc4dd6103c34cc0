/-
  Directories behave as lists of entries.

  `Tidy` adds to consistency that the record lengths are multiples of 4 and that no two
  entries, apart from `.` and `..`, name the same inode. On such a state a `write` that returns
  0 puts one element into the entry list of its parent, and a `delete` that returns 0 takes the
  first element of the name out; every other list stays, and every block stays a chain of
  records (`EntryStep`). Tidiness is kept, so this holds along every run (`entry_lists`).
-/
import LossOs.Ext2.Runs
import LossOs.Ext2.Fresh

namespace LossOs.Ext2

open LossOs.Lib

/-- An entry other than `.` and `..`. -/
def Proper (e : Entry) : Prop := ¬ e.name = [46] ∧ ¬ e.name = [46, 46]

theorem not_proper_dot {i parent : Nat} : ∀ e ∈ dotEntries i parent, ¬ Proper e := by
  intro e he
  rcases mem_dotEntries.mp he with rfl | rfl
  · exact fun h => h.1 rfl
  · exact fun h => h.2 rfl

/-- Records tile the 512 bytes, with lengths that are multiples of 4. -/
structure WellFormed (b : Block) : Prop where
  tiled : IsDirBlock b
  aligned : Aligned (blockRecords b)

/-- A consistent state in which every inode has one proper entry at most, and that not in
    itself. -/
structure Tidy (fs : Fs) : Prop where
  consistent : Consistent fs
  aligned : ∀ p, IsDirectory fs.disk p → ∀ b ∈ dirBlocks (slot fs.disk p),
    Aligned (blockRecords (fs.disk b))
  once : (graphOf fs.disk).Once Entry.inode Proper
  notSelf : (graphOf fs.disk).All fun p e => Proper e → e.inode ≠ p

/-- What is asked of a call: a proper name, a parent of at most 11 blocks and a free block for a
    new directory in a `write`, and in a `delete` no directory with an indirect block. -/
structure Roomy (c : Call) (fs : Fs) : Prop where
  parent : c.request.parentInode.toNat ≤ 896
  noDot : requestName c.request ≠ [46]
  noDots : requestName c.request ≠ [46, 46]
  small : ∀ request, c = .write request → IsDirectory fs.disk request.parentInode.toNat →
    iBlocks (slot fs.disk request.parentInode.toNat) ≤ 11
  victim : ∀ request e, c = .delete request →
    firstNamed request fs.disk request.parentInode.toNat = some e → IsDirectory fs.disk e.inode →
    iBlocks (slot fs.disk e.inode) ≤ 12
  room : ∀ request, c = .write request → DirFits request fs.disk

/-- `write` put one new element into the list `l`. -/
def WroteEntry (request : EXT2DriverRequest) (d : Disk) (l l' : List Entry) : Prop :=
  ∃ A B i, l = A ++ B ∧ l' = A ++ ⟨requestName request, i, (requestFileType request).toNat⟩ :: B ∧
    firstFreeInode d = some i

/-- `delete` took the first element of the name out of the list `l`. -/
def DeletedEntry (request : EXT2DriverRequest) (l l' : List Entry) : Prop :=
  (∃ e ∈ l, e.name = requestName request) ∧
    l' = l.eraseP fun e => e.name == requestName request

/-- What a call does to the entry lists. -/
structure EntryStep (c : Call) (fs : Fs) : Prop where
  write : ∀ request, c = .write request → (c.run fs).1 = 0 →
    WroteEntry request fs.disk (entries fs.disk request.parentInode.toNat)
      (entries (c.run fs).2.disk request.parentInode.toNat)
  delete : ∀ request, c = .delete request → (c.run fs).1 = 0 →
    DeletedEntry request (entries fs.disk request.parentInode.toNat)
      (entries (c.run fs).2.disk request.parentInode.toNat)
  failed : (c.run fs).1 ≠ 0 → ∀ p, IsDirectory fs.disk p →
    entries (c.run fs).2.disk p = entries fs.disk p
  others : ∀ p, IsDirectory fs.disk p → IsDirectory (c.run fs).2.disk p →
    p ≠ c.request.parentInode.toNat → entries (c.run fs).2.disk p = entries fs.disk p
  blocks : ∀ p, IsDirectory (c.run fs).2.disk p → ∀ b ∈ dirBlocks (slot (c.run fs).2.disk p),
    WellFormed ((c.run fs).2.disk b)

section Steps

variable {request : EXT2DriverRequest} {fs fs' : Fs} {p i : Nat} {ni : Mem} {L : List Nat}
  {e : Entry}

theorem Quiet.tidy (h : Quiet fs fs') (ht : Tidy fs) : Tidy fs' where
  consistent := h.consistent
  aligned := fun p hp b hb => by
    have hp' := h.isDirectory_iff.mp hp
    rw [h.slots p] at hb
    rw [h.dirBlock_eq ht.consistent hp' hb]
    exact ht.aligned p hp' b hb
  once := ht.once.same (h.same ht.consistent)
  notSelf := ht.notSelf.same (h.same ht.consistent)

theorem aligned_dotRecords (i parent : Nat) : Aligned (dotRecords i parent) := by
  intro r hr
  unfold dotRecords at hr
  simp only [List.mem_cons, List.not_mem_nil, or_false] at hr
  rcases hr with rfl | rfl
  · exact ⟨3, rfl⟩
  · exact ⟨125, rfl⟩

theorem Created.tidy (h : Created request fs fs' request.parentInode.toNat i ni L) (ht : Tidy fs)
    (hp : IsDirectory fs.disk request.parentInode.toNat) : Tidy fs' := by
  have hc := ht.consistent
  have hadd := h.add hc hp
  refine ⟨h.consistent, fun q hq b hb => ?_, ht.once.add hadd not_proper_dot,
    ht.notSelf.add hadd (fun _ => (h.ne_of_used hp.used).symm) fun a ha hP =>
      absurd hP (not_proper_dot a ha)⟩
  by_cases hqi : q = i
  · subst hqi
    obtain ⟨-, -, c, hbs, hrec⟩ := h.newDir hq
    rw [hbs, List.mem_singleton] at hb
    rw [hb, hrec]
    exact aligned_dotRecords _ _
  · have hq' := (h.isDirectory_iff hqi).mp hq
    by_cases hqp : q = request.parentInode.toNat
    · subst hqp
      exact h.parent.aligned (ht.aligned _ hp) b hb
    · rw [h.others q hq.isInode hqi hqp] at hb
      rw [h.dirBlock_eq hc hp hq' hqp hb]
      exact ht.aligned q hq' b hb

/-- The entry that a `delete` with a proper name finds names an inode of its own. -/
theorem Tidy.victim (ht : Tidy fs) (hp : IsDirectory fs.disk p) (hm : e ∈ entries fs.disk p)
    (hP : Proper e) : IsInode e.inode ∧ inodeUsed fs.disk e.inode = true ∧ p ≠ e.inode := by
  have hm' : e ∈ (graphOf fs.disk).links p := by rw [graphOf_links]; exact hm
  obtain ⟨h1, h2⟩ := ht.once.used p hp e hm' hP
  exact ⟨h1, h2, (ht.notSelf p hp e hm' hP).symm⟩

theorem Deleted.tidy (h : Deleted request fs fs' p e) (ht : Tidy fs) (hp : IsDirectory fs.disk p)
    (hm : e ∈ entries fs.disk p) (hP : Proper e) : Tidy fs' := by
  have hc := ht.consistent
  have hdrop := h.drop hc hp
  have hm' : e ∈ (graphOf fs.disk).links p := by rw [graphOf_links]; exact hm
  refine ⟨h.consistent, fun q hq b hb => ?_, ht.once.drop hdrop fun q hq a ha hPa =>
    ht.once.rest hdrop hp hm' hP hq ha hPa, ht.notSelf.drop hdrop⟩
  obtain ⟨hq', hne⟩ := h.isDirectory_iff.mp hq
  rw [h.others q hq.isInode hne] at hb
  by_cases hqp : q = p
  · subst hqp
    exact h.parent.aligned (ht.aligned _ hp) b hb
  · rw [h.dirBlock_eq hc hp hq' hqp hb]
    exact ht.aligned q hq' b hb

theorem Tidy.withStack (ht : Tidy fs) (s : Mem) : Tidy (fs.withStack s) :=
  ⟨ht.consistent.withStack s, ht.aligned, ht.once, ht.notSelf⟩

theorem Tidy.wellFormed (ht : Tidy fs) : ∀ p, IsDirectory fs.disk p →
    ∀ b ∈ dirBlocks (slot fs.disk p), WellFormed (fs.disk b) := fun p hp b hb =>
  ⟨(ht.consistent.dirBlock hp hb).2.2, ht.aligned p hp b hb⟩

/-- The list after a `delete`, with the function of the library. -/
theorem Deleted.deletedEntry (h : Deleted request fs fs' p e) (hp : IsInode p)
    (hne : p ≠ e.inode) : DeletedEntry request (entries fs.disk p) (entries fs'.disk p) := by
  obtain ⟨A, B, h1, h2, hn, hA⟩ := h.parentEntries hp hne
  refine ⟨⟨e, by rw [h1]; simp, hn⟩, ?_⟩
  rw [h1, h2, List.eraseP_append_right _ fun a ha => by simpa using hA a ha,
    List.eraseP_cons_of_pos (by simpa using hn)]

/-- `write` on a tidy state. -/
theorem write_entryStep (ht : Tidy fs) (hok : Roomy (.write request) fs) :
    Tidy (write request fs).2 ∧ EntryStep (.write request) fs := by
  have hc := ht.consistent
  have h896 : request.parentInode.toNat ≤ 896 := hok.parent
  rcases write_call hc h896 fun hcr => by
      refine ⟨fun _ => ?_, hok.room _ rfl⟩
      have hp : IsInode request.parentInode.toNat :=
        ⟨Nat.one_le_iff_ne_zero.mpr hcr.1, h896⟩
      have := hok.small _ rfl (hc.isDirectory hp hcr.2.1)
      omega with
    ⟨hcode, hq⟩ | ⟨hcode, hp, -, i, ni, L, hcr⟩
  · have ht' := hq.tidy ht
    exact ⟨ht', ⟨fun r _ h0 => absurd h0 hcode, nofun,
      fun _ p hp => hq.entries_eq hc hp, fun p hp _ _ => hq.entries_eq hc hp, ht'.wellFormed⟩⟩
  · have ht' := hcr.tidy ht hp
    refine ⟨ht', ⟨fun r hr _ => ?_, nofun, fun h => absurd hcode h,
      fun q hq _ hqp => hcr.otherEntries hc hp hq hqp, ht'.wellFormed⟩⟩
    cases hr
    obtain ⟨A, B, h1, h2, -⟩ := hcr.parentEntries
    exact ⟨A, B, i, h1, h2, hcr.first⟩

/-- `delete` on a tidy state. -/
theorem delete_entryStep (ht : Tidy fs) (hok : Roomy (.delete request) fs) :
    Tidy (delete request fs).2 ∧ EntryStep (.delete request) fs := by
  have hc := ht.consistent
  have h896 : request.parentInode.toNat ≤ 896 := hok.parent
  rcases delete_call hc h896 with ⟨hcode, he⟩ | ⟨hcode, hp, e, hfirst, -, -, hdel⟩
  · have hrun : ((Call.delete request).run fs).2 = fs := he
    refine ⟨by rw [he]; exact ht, ⟨nofun,
      fun r _ h0 => absurd h0 hcode, fun _ p _ => by rw [hrun], fun p _ _ _ => by rw [hrun], ?_⟩⟩
    rw [hrun]
    exact ht.wellFormed
  · obtain ⟨hm, hname⟩ := firstNamed_mem hfirst
    have hP : Proper e := by
      unfold Proper
      rw [hname]
      exact ⟨hok.noDot, hok.noDots⟩
    obtain ⟨hi, hu, hne⟩ := ht.victim hp hm hP
    have hd := hdel hi hu fun hdir => hok.victim _ e rfl hfirst ⟨hi, hu, hdir⟩
    have ht' := hd.tidy ht hp hm hP
    refine ⟨ht', ⟨nofun, fun r hr _ => ?_, fun h => absurd hcode h,
      fun q hq hq' hqp => hd.otherEntries hc hp hq hqp (hd.isDirectory_iff.mp hq').2,
      ht'.wellFormed⟩⟩
    cases hr
    exact hd.deletedEntry hp.isInode hne

/-- Every call keeps the state tidy. -/
theorem Tidy.run {c : Call} (ht : Tidy fs) (hok : Roomy c fs) : Tidy (c.run fs).2 := by
  cases c with
  | write request => exact (write_entryStep ht hok).1
  | delete request => exact (delete_entryStep ht hok).1

end Steps

/-- A fresh file system is tidy. -/
theorem Formatted.tidy {fs : Fs} (h : Formatted fs) : Tidy fs := by
  have hlinks : ∀ p, IsDirectory fs.disk p → ∀ e ∈ (graphOf fs.disk).links p, ¬ Proper e := by
    intro p hp e he
    obtain rfl := h.isDirectory_iff.mp hp
    rw [graphOf_links, h.rootEntries] at he
    exact not_proper_dot e he
  refine ⟨h.consistent, fun p hp b hb => ?_, ⟨fun p hp a ha hP => ?_, fun p hp => ?_,
    fun p q hp _ _ a ha b _ hP => ?_⟩, fun p hp a ha hP => ?_⟩
  · obtain rfl := h.isDirectory_iff.mp hp
    rw [h.rootBlocks, List.mem_singleton] at hb
    rw [hb, h.rootRecords]
    exact aligned_dotRecords 1 1
  · exact absurd hP (hlinks p hp a ha)
  · exact List.pairwise_of_forall_mem_list fun a ha b _ hP => absurd hP (hlinks p hp a ha)
  · exact absurd hP (hlinks p hp a ha)
  · exact absurd hP (hlinks p hp a ha)

/-- Along every run each directory behaves as its list of entries. -/
theorem entry_lists {fs₀ fs : Fs} (ht : Tidy fs₀) (hrun : Run Roomy fs₀ fs) {c : Call}
    {stack : Mem} (hok : Roomy c (fs.withStack stack)) : EntryStep c (fs.withStack stack) := by
  have h : Tidy (fs.withStack stack) := (hrun.invariant (fun _ s h => h.withStack s)
    (fun _ _ h => h.run) ht).withStack stack
  cases c with
  | write request => exact (write_entryStep h hok).2
  | delete request => exact (delete_entryStep h hok).2

/-- A file is written to a fresh file system, and deleted. -/
theorem entry_lists_fresh : EntryStep (.delete (rootRequest [97] [] false))
    ((write (rootRequest [97] [] false) freshFs).2.withStack fun _ => 0) := by
  have hf := isFresh_freshFs.formatted
  have hname : requestName (rootRequest [97] [] false) = [97] := requestName_root (by decide)
  have hfirst : Roomy (.write (rootRequest [97] [] false)) freshFs := by
    refine ⟨by decide, ?_, ?_, fun request he _ => ?_, fun request e he => ?_,
      fun request he hd => ?_⟩
    · exact fun h => absurd (hname.symm.trans h) (by decide)
    · exact fun h => absurd (hname.symm.trans h) (by decide)
    · cases he
      exact hf.iBlocks_root.trans_le (by decide)
    · cases he
    · cases he
      exact absurd hd (by decide)
  apply entry_lists hf.tidy ((Run.refl freshFs).write hfirst)
  obtain ⟨-, ni, L, h⟩ := hf.write_first (rootRequest [97] [] false) rfl hfirst.noDot
    hfirst.noDots
  refine ⟨by decide, hfirst.noDot, hfirst.noDots, fun request he => (by cases he),
    fun request e _ _ hd => ?_, fun request he => by cases he⟩
  rw [withStack_disk] at hd ⊢
  rw [(h.isDirectory_iff hf (by decide)).mp hd, h.iBlocks_root hf]
  decide

end LossOs.Ext2
