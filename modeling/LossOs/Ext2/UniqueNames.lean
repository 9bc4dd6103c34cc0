/-
  Names are unique, as long as no call meets room before the name.

  The pass of `write` stops at the first live record that has the name or room behind it. When
  a record with room lies before a record of the name, `write` creates a second entry of that
  name (`write_duplicate`). Apart from that, no directory ever holds a name twice
  (`names_unique`).
-/
import LossOs.Ext2.Root

namespace LossOs.Ext2

open LossOs.Lib

/-- The entry of a regular file. -/
def IsFile (e : Entry) : Prop := e.fileType = 1

/-- Names are unique, entries name inodes, and those of files name a file each. The entries of
    directories may dangle. -/
structure Named (fs : Fs) : Prop where
  consistent : Consistent fs
  names : (graphOf fs.disk).Keyed Entry.name
  inodes : (graphOf fs.disk).All fun _ e => IsInode e.inode
  once : (graphOf fs.disk).Once Entry.inode IsFile
  kinds : (graphOf fs.disk).Agree Entry.inode IsFile fun _ k => k &&& 0x4000 = 0

/-- What of this holds without regard to names. -/
structure Linked (fs : Fs) : Prop where
  consistent : Consistent fs
  inodes : (graphOf fs.disk).All fun _ e => IsInode e.inode
  once : (graphOf fs.disk).Once Entry.inode IsFile
  kinds : (graphOf fs.disk).Agree Entry.inode IsFile fun _ k => k &&& 0x4000 = 0

/-- No record with room lies before one of the requested name. -/
def NameFirst (request : EXT2DriverRequest) (d : Disk) : Prop :=
  ∀ q, firstHit request d request.parentInode.toNat = some q → q.2.named request = false →
    ∀ e ∈ entries d request.parentInode.toNat, e.name ≠ requestName request

/-- What is asked of a call. -/
structure Ordered (c : Call) (fs : Fs) : Prop extends Within c fs where
  nameFirst : ∀ request, c = .write request → NameFirst request fs.disk

section Steps

variable {request : EXT2DriverRequest} {fs fs' : Fs} {p i : Nat} {ni : Mem} {L : List Nat}
  {e : Entry}

theorem not_file_dot {i parent : Nat} : ∀ e ∈ dotEntries i parent, ¬ IsFile e := by
  intro e he
  unfold IsFile
  rcases mem_dotEntries.mp he with rfl | rfl <;> simp

theorem isFile_newEntry (h : IsFile (newEntry request i)) : isDirRequest request = false := by
  cases hd : isDirRequest request with
  | false => rfl
  | true =>
    unfold IsFile newEntry requestFileType at h
    rw [hd] at h
    cases h

theorem Named.withStack (h : Named fs) (s : Mem) : Named (fs.withStack s) :=
  ⟨h.consistent.withStack s, h.names, h.inodes, h.once, h.kinds⟩

theorem Named.linked (h : Named fs) : Linked fs := ⟨h.consistent, h.inodes, h.once, h.kinds⟩

theorem Linked.named (h : Linked fs) (hn : (graphOf fs.disk).Keyed Entry.name) : Named fs :=
  ⟨h.consistent, hn, h.inodes, h.once, h.kinds⟩

theorem Linked.withStack (h : Linked fs) (s : Mem) : Linked (fs.withStack s) :=
  ⟨h.consistent.withStack s, h.inodes, h.once, h.kinds⟩

theorem Quiet.linked (h : Quiet fs fs') (hn : Linked fs) : Linked fs' := by
  have hs := h.same hn.consistent
  exact ⟨h.consistent, hn.inodes.same hs, hn.once.same hs, hn.kinds.same hs⟩

theorem Created.linked (h : Created request fs fs' request.parentInode.toNat i ni L)
    (hn : Linked fs) (hp : IsDirectory fs.disk request.parentInode.toNat) : Linked fs' := by
  have hadd := h.add hn.consistent hp
  refine ⟨h.consistent, hn.inodes.add hadd h.isInode fun a ha => ?_, hn.once.add hadd not_file_dot,
    hn.kinds.add hadd (fun hf => ?_) fun _ a ha hf => absurd hf (not_file_dot a ha)⟩
  · rcases mem_dotEntries.mp ha with rfl | rfl
    · exact h.isInode
    · exact hp.isInode
  · rw [graphOf_kind, ← isDir_eq_false, show (newEntry request i).inode = i from rfl]
    rcases h.newSlot with hs | ⟨-, -, hz⟩
    · obtain ⟨d₀, hm⟩ := h.made
      exact (hm.isDir_eq hs).trans (isFile_newEntry hf)
    · exact isDir_zero hz

/-- Once the entry is gone no entry of a file names its inode: a file had this one entry, and a
    directory had none. -/
theorem Deleted.linked (h : Deleted request fs fs' p e) (hn : Linked fs)
    (hp : IsDirectory fs.disk p) (hm : e ∈ entries fs.disk p)
    (hkind : IsFile e ∨ isDir fs.disk e.inode = true) : Linked fs' := by
  have hdrop := h.drop hn.consistent hp
  have hm' : e ∈ (graphOf fs.disk).links p := by rw [graphOf_links]; exact hm
  have hrest : ∀ q, (graphOf fs'.disk).isDir q → ∀ a ∈ (graphOf fs'.disk).links q, IsFile a →
      a.inode ≠ e.inode := by
    intro q hq a ha hf
    rcases hkind with hk | hk
    · exact hn.once.rest hdrop hp hm' hk hq ha hf
    · intro he
      obtain ⟨-, hnot⟩ := hn.kinds q ((hdrop.isDir q).mp hq).1 a ((hdrop.sublist hq).subset ha) hf
      rw [he, graphOf_kind, ← isDir_eq_false, hk] at hnot
      cases hnot
  exact ⟨h.consistent, hn.inodes.drop hdrop, hn.once.drop hdrop hrest,
    hn.kinds.drop hdrop hrest⟩

/-- A `delete` that returns 0 removes an entry that names an allocated inode, of a file if it is
    one of a file. -/
theorem Linked.delete (hn : Linked fs) (hok : Within (.delete request) fs) :
    ((LossOs.Ext2.delete request fs).1 ≠ 0 ∧ (LossOs.Ext2.delete request fs).2 = fs) ∨
    ((LossOs.Ext2.delete request fs).1 = 0 ∧ IsDirectory fs.disk request.parentInode.toNat ∧
      ∃ e, firstNamed request fs.disk request.parentInode.toNat = some e ∧
        IsInode e.inode ∧ inodeUsed fs.disk e.inode = true ∧
        (IsFile e ∨ isDir fs.disk e.inode = true) ∧
        (isDir fs.disk e.inode = true → iBlocks (slot fs.disk e.inode) ≤ 12) ∧
        Deleted request fs (LossOs.Ext2.delete request fs).2 request.parentInode.toNat e) := by
  have h896 : request.parentInode.toNat ≤ 896 := hok.parent
  rcases delete_call hn.consistent h896 with h | ⟨h0, hp, e, hfirst, htwo, hone, hdel⟩
  · exact Or.inl h
  right
  have hm : e ∈ (graphOf fs.disk).links request.parentInode.toNat := by
    rw [graphOf_links]
    exact (firstNamed_mem hfirst).1
  have hi : IsInode e.inode := hn.inodes _ hp e hm
  refine ⟨h0, hp, e, hfirst, hi, ?_⟩
  cases hreq : request.isDirectory with
  | true =>
    obtain ⟨htype, hempty⟩ := htwo hreq
    have hd := isDir_of_isDirectoryEmpty hn.consistent.ready.layout hi hempty
    have hu := (hn.consistent.isDirectory hi hd).used
    have hsize := hok.delete _ e rfl hreq hfirst htype hempty
    exact ⟨hu, Or.inr hd, fun _ => hsize, hdel hi hu fun _ => hsize⟩
  | false =>
    have hf : IsFile e := hone hreq
    obtain ⟨⟨-, hu⟩, hk⟩ := hn.kinds _ hp e hm hf
    have hsize : isDir fs.disk e.inode = true → iBlocks (slot fs.disk e.inode) ≤ 12 := by
      intro hd
      rw [isDir_eq_false.mpr hk] at hd
      cases hd
    exact ⟨hu, Or.inl hf, hsize, hdel hi hu hsize⟩

/-- Every call of which `Within` holds keeps this much. -/
theorem Linked.run {c : Call} (hn : Linked fs) (hok : Within c fs) : Linked (c.run fs).2 := by
  cases c with
  | write request =>
    have h896 : request.parentInode.toNat ≤ 896 := hok.parent
    rcases write_call hn.consistent h896 (hok.write _ rfl) with
      ⟨-, hq⟩ | ⟨-, hp, -, i, ni, L, hnew⟩
    · exact hq.linked hn
    · exact hnew.linked hn hp
  | delete request =>
    rcases hn.delete hok with ⟨-, he⟩ | ⟨-, hp, e, hfirst, -, -, hkind, -, hdel⟩
    · rw [Call.run_delete, he]
      exact hn
    · exact hdel.linked hn hp (firstNamed_mem hfirst).1 hkind

/-- On the growth path the name is not among the entries. -/
theorem firstHit_none_names (h : firstHit request fs.disk p = none) :
    ∀ e ∈ entries fs.disk p, e.name ≠ requestName request := by
  apply entries_name_ne
  intro q hq
  have := List.find?_eq_none.mp h q hq
  simp only [Bool.or_eq_true, not_or, Bool.not_eq_true] at this
  exact this.1

/-- Every call of which `Ordered` holds keeps names unique. -/
theorem Named.run {c : Call} (hn : Named fs) (hok : Ordered c fs) : Named (c.run fs).2 := by
  have hc := hn.consistent
  refine (hn.linked.run hok.toWithin).named ?_
  cases c with
  | write request =>
    have h896 : request.parentInode.toNat ≤ 896 := hok.parent
    rcases write_call hc h896 (hok.write _ rfl) with ⟨-, hq⟩ | ⟨-, hp, hcr, i, ni, L, hnew⟩
    · exact hn.names.same (hq.same hc)
    · refine hn.names.add (hnew.add hc hp) ?_ (by rw [dotEntries_names]; decide)
      rw [graphOf_links]
      cases hhit : firstHit request fs.disk request.parentInode.toNat with
      | none => exact firstHit_none_names hhit
      | some q => exact hok.nameFirst _ rfl q hhit (hcr.unnamed hhit)
  | delete request =>
    rcases hn.linked.delete hok.toWithin with ⟨-, he⟩ | ⟨-, hp, e, -, -, -, -, -, hdel⟩
    · rw [Call.run_delete, he]
      exact hn.names
    · exact hn.names.drop (hdel.drop hc hp)

end Steps

/-- The names of a fresh file system are unique. -/
theorem Formatted.named {fs : Fs} (h : Formatted fs) : Named fs := by
  have hlinks : ∀ p, IsDirectory fs.disk p → p = 1 ∧
      (graphOf fs.disk).links p = dotEntries 1 1 := by
    intro p hp
    obtain rfl := h.isDirectory_iff.mp hp
    exact ⟨rfl, by rw [graphOf_links, h.rootEntries]; rfl⟩
  have hnot : ∀ p, IsDirectory fs.disk p → ∀ e ∈ (graphOf fs.disk).links p, ¬ IsFile e := by
    intro p hp e he
    rw [(hlinks p hp).2] at he
    exact not_file_dot e he
  refine ⟨h.consistent, fun p hp => ?_, fun p hp a ha => ?_,
    ⟨fun p hp a ha hf => absurd hf (hnot p hp a ha), fun p hp => ?_,
      fun p q hp _ _ a ha b _ hf => absurd hf (hnot p hp a ha)⟩,
    fun p hp a ha hf => absurd hf (hnot p hp a ha)⟩
  · rw [(hlinks p hp).2, dotEntries_names]
    decide
  · rw [(hlinks p hp).2] at ha
    rcases mem_dotEntries.mp ha with rfl | rfl <;> decide
  · exact List.pairwise_of_forall_mem_list fun a ha b _ hf => absurd hf (hnot p hp a ha)

/-- A name that is there is refused, unless there is room before it. -/
theorem write_existing_iff {request : EXT2DriverRequest} {fs : Fs} (hc : Consistent fs)
    (hp : IsDirectory fs.disk request.parentInode.toNat)
    (hm : ∃ e ∈ entries fs.disk request.parentInode.toNat, e.name = requestName request) :
    write request fs = (1, fs) ↔ NameFirst request fs.disk := by
  obtain ⟨e, hm, hname⟩ := hm
  have hw := write_cases request hc.ready hc.freeSlot hp.isInode fun hd =>
    hc.parentOk hp.isInode hd
  constructor
  · intro heq q hhit hn
    rw [heq] at hw
    cases hw with
    | duplicate b r _ hhit' hn' =>
      rw [hhit, Option.some.injEq] at hhit'
      rw [hhit', hn'] at hn
      cases hn
  · intro hfirst
    rw [write_eq hc.ready.layout hp.isInode hp.dir (hc.dirOk _ hp)]
    cases hhit : firstHit request fs.disk request.parentInode.toNat with
    | none => exact absurd hname (firstHit_none_names hhit e hm)
    | some q =>
      dsimp only
      cases hn : q.2.named request with
      | true => rw [if_pos rfl]
      | false => exact absurd hname (hfirst q hhit hn e hm)

/-- In every state that is reached without writing into room before the name, no directory holds
    a name twice. There `write` refuses a name that exists if and only if no record with room
    lies before it. -/
theorem names_unique {fs₀ fs : Fs} (h : IsFresh fs₀) (hrun : Run Ordered fs₀ fs) :
    (∀ p, IsDirectory fs.disk p → ((entries fs.disk p).map Entry.name).Nodup) ∧
    ∀ request stack, IsDirectory fs.disk request.parentInode.toNat →
      (∃ e ∈ entries fs.disk request.parentInode.toNat, e.name = requestName request) →
      (write request (fs.withStack stack) = (1, fs.withStack stack) ↔
        NameFirst request fs.disk) := by
  have hn : Named fs := hrun.invariant (fun _ s h => h.withStack s) (fun _ _ h => h.run)
    h.formatted.named
  refine ⟨fun p hp => ?_, fun request stack hp hm => ?_⟩
  · have := hn.names p hp
    rw [graphOf_links] at this
    exact this
  · exact write_existing_iff (hn.consistent.withStack stack) hp hm

/-- An empty regular file in the root directory. -/
def fileRequest (c : UInt8) : EXT2DriverRequest := rootRequest [c] [] false

theorem parent_fileRequest (c : UInt8) : (fileRequest c).parentInode = 1 := rfl

theorem isDirRequest_fileRequest (c : UInt8) : isDirRequest (fileRequest c) = false := by
  unfold isDirRequest
  exact Bool.and_false _

theorem within_fileRequest_write {fs : Fs} {rs : List Rec} {used : List Nat} (c : UInt8)
    (h : RootState fs rs used) : Within (.write (fileRequest c)) fs where
  parent := by
    show (fileRequest c).parentInode.toNat ≤ 896
    rw [parent_fileRequest]
    decide
  write := fun request he _ => by
    cases he
    refine ⟨fun _ => ?_, fun hd => ?_⟩
    · rw [parent_fileRequest]
      exact h.size.trans_lt (by decide)
    · rw [isDirRequest_fileRequest] at hd
      cases hd
  delete := fun _ _ he => by cases he

theorem within_fileRequest_delete {fs : Fs} (c : UInt8) : Within (.delete (fileRequest c)) fs where
  parent := by
    show (fileRequest c).parentInode.toNat ≤ 896
    rw [parent_fileRequest]
    decide
  write := fun _ he => by cases he
  delete := fun request _ he hd => by
    cases he
    cases hd

theorem names_unique_fresh :
    ((entries (write (fileRequest 97) freshFs).2.disk 1).map Entry.name).Nodup := by
  have hroot := isFresh_freshFs.formatted.rootState
  have hok : Ordered (.write (fileRequest 97)) freshFs := by
    refine ⟨within_fileRequest_write 97 hroot, fun request he q _ _ e hm => ?_⟩
    cases he
    rw [parent_fileRequest, show (1 : UInt32).toNat = 1 from rfl, hroot.entries_eq,
      live_dotRecords (by decide) (by decide)] at hm
    rcases mem_dotEntries.mp hm with rfl | rfl <;> decide
  obtain ⟨fs, he, hw⟩ := hroot.write (fileRequest 97) [⟨0, 1, 12, [46], 2⟩] 2
    rfl (by decide) (by decide) (by decide) (by decide) (by decide) fun j h0 h1 => by
      rw [show j = 1 by omega]
      simp
  have hrun := (Run.refl freshFs).write hok
  rw [he] at hrun ⊢
  exact (names_unique isFresh_freshFs hrun).1 1 ((hw.dirs 1).mpr rfl)

/-- Write `a` and `b`, delete `a`, and write `b` again: it goes into the room that `a` has left,
    and is there twice. -/
theorem names_not_unique : ∃ fs₁ fs₂ fs₃ fs₄,
    write (fileRequest 97) freshFs = (0, fs₁) ∧ write (fileRequest 98) fs₁ = (0, fs₂) ∧
    delete (fileRequest 97) fs₂ = (0, fs₃) ∧ write (fileRequest 98) fs₃ = (0, fs₄) ∧
    Run Within freshFs fs₄ ∧ IsDirectory fs₄.disk 1 ∧
    ¬ ((entries fs₄.disk 1).map Entry.name).Nodup := by
  have h0 := isFresh_freshFs.formatted.rootState
  have hlow : ∀ {n : Nat} {l : List Nat}, (∀ j < n, 0 < j → j ∈ l) → ∀ j, 0 < j → j < n → j ∈ l :=
    fun h j h0 h1 => h j h1 h0
  obtain ⟨fs₁, e₁, h₁⟩ := h0.write (fileRequest 97) [⟨0, 1, 12, [46], 2⟩] 2
    rfl (by decide) (by decide) (by decide) (by decide) (by decide) (hlow (by decide))
  obtain ⟨fs₂, e₂, h₂⟩ := h₁.write (fileRequest 98)
    [⟨0, 1, 12, [46], 2⟩, ⟨12, 1, 12, [46, 46], 2⟩] 3 rfl (by decide) (by decide) (by decide)
    (by decide) (by decide) (hlow (by decide))
  obtain ⟨fs₃, e₃, h₃⟩ := h₂.delete (fileRequest 97) [⟨0, 1, 12, [46], 2⟩]
    rfl (by decide) (by decide) (by decide) (by decide) (by decide) (by decide) (by decide)
    (by decide)
  obtain ⟨fs₄, e₄, h₄⟩ := h₃.write (fileRequest 98) [⟨0, 1, 12, [46], 2⟩] 2
    rfl (by decide) (by decide) (by decide) (by decide) (by decide) (hlow (by decide))
  refine ⟨fs₁, fs₂, fs₃, fs₄, e₁, e₂, e₃, e₄, ?_, (h₄.dirs 1).mpr rfl, ?_⟩
  · have r₁ := (Run.refl freshFs).write (within_fileRequest_write 97 h0)
    rw [e₁] at r₁
    have r₂ := r₁.write (within_fileRequest_write 98 h₁)
    rw [e₂] at r₂
    have r₃ := r₂.delete (within_fileRequest_delete 97)
    rw [e₃] at r₃
    have r₄ := r₃.write (within_fileRequest_write 98 h₃)
    rw [e₄] at r₄
    exact r₄
  · rw [h₄.entries_eq]
    decide

end LossOs.Ext2
