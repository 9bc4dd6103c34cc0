/-
  Runs of `write` and `delete`.

  `graphOf` keeps of a disk what its directories say: which inodes are allocated, which of them
  are directories, and the entry lists. On consistent states a `write` that returns 0 is an
  `Add` of this graph, a `delete` that returns 0 a `Drop`, and nothing else changes it
  (`Created.add`, `Deleted.drop`, `Quiet.same`). A run is a sequence of calls with inode numbers
  that exist as parents; the local buffers of a call hold what earlier calls have left there.
-/
import LossOs.Ext2.Remove
import LossOs.Ext2.Stored
import LossOs.Lib.LinkGraph
import LossOs.Lib.Runs

namespace LossOs.Ext2

open LossOs.Lib

/-! ## The graph of a disk -/

/-- The directories of a disk. The kind of an inode is its `i_mode`. -/
def graphOf (d : Disk) : LinkGraph Nat Nat Entry where
  used j := IsInode j ∧ inodeUsed d j = true
  isDir := IsDirectory d
  kind j := iMode (slot d j)
  links := entries d

@[simp] theorem graphOf_used {d : Disk} {j : Nat} :
    (graphOf d).used j ↔ IsInode j ∧ inodeUsed d j = true := Iff.rfl

@[simp] theorem graphOf_isDir {d : Disk} {j : Nat} :
    (graphOf d).isDir j ↔ IsDirectory d j := Iff.rfl

@[simp] theorem graphOf_links (d : Disk) (j : Nat) : (graphOf d).links j = entries d j := by
  simp only [graphOf]

@[simp] theorem graphOf_kind (d : Disk) (j : Nat) : (graphOf d).kind j = iMode (slot d j) := rfl

theorem graphOf_dirsUsed (d : Disk) : (graphOf d).DirsUsed := fun _ hp => ⟨hp.isInode, hp.used⟩

/-- The records of a directory made in inode `i`. -/
def dotRecords (i parent : Nat) : List Rec :=
  [⟨0, i, 12, [46], 2⟩, ⟨12, parent, 500, [46, 46], 2⟩]

/-- The first entries of a directory made in inode `i`. -/
def dotEntries (i parent : Nat) : List Entry := [⟨[46], i, 2⟩, ⟨[46, 46], parent, 2⟩]

theorem mem_dotEntries {i parent : Nat} {e : Entry} :
    e ∈ dotEntries i parent ↔ e = ⟨[46], i, 2⟩ ∨ e = ⟨[46, 46], parent, 2⟩ := by
  unfold dotEntries
  simp only [List.mem_cons, List.not_mem_nil, or_false]

theorem dotEntries_names (i parent : Nat) :
    (dotEntries i parent).map Entry.name = [[46], [46, 46]] := rfl

theorem live_dotRecords {i parent : Nat} (hi : i ≠ 0) (hp : parent ≠ 0) :
    live (dotRecords i parent) = dotEntries i parent := by
  unfold dotRecords
  rw [live_cons_of_ne hi, live_cons_of_ne hp]
  rfl

section Refine

variable {request : EXT2DriverRequest} {fs fs' : Fs} {p i : Nat} {ni : Mem} {L : List Nat}
  {e : Entry}

theorem Quiet.same (h : Quiet fs fs') (hc : Consistent fs) :
    LinkGraph.Same (graphOf fs.disk) (graphOf fs'.disk) where
  used := fun j => by
    simp only [graphOf_used]
    exact and_congr_right fun hj => by rw [h.inodes j hj]
  isDir := fun _ => h.isDirectory_iff
  kind := fun j => congrArg iMode (h.slots j)
  links := fun j hj => by
    rw [graphOf_links, graphOf_links]
    exact h.entries_eq hc hj

/-- When the new inode is a directory, it has one block, which holds itself and its parent. -/
theorem Created.newDir (h : Created request fs fs' p i ni L) (hd : IsDirectory fs'.disk i) :
    isDirRequest request = true ∧ slot fs'.disk i = cutNode ni ∧
      ∃ b, dirBlocks (slot fs'.disk i) = [b] ∧
        blockRecords (fs'.disk b) = dotRecords i request.parentInode.toNat := by
  have hslot : slot fs'.disk i = cutNode ni := by
    rcases h.newSlot with hs | ⟨-, -, hz⟩
    · exact hs
    · have := hd.dir
      rw [isDir_zero hz] at this; cases this
  obtain ⟨d₀, hm⟩ := h.made
  have hreq := hm.isDir_eq hslot
  rw [hd.dir] at hreq
  refine ⟨hreq.symm, hslot, ?_⟩
  cases hm with
  | file t hreg => rw [hreg] at hreq; cases hreq
  | dir b _ _ hat =>
    have hptrs := hat.toDirNode.dirPtrs_slot hslot
    refine ⟨b, ?_, hat.table.blockRecords_eq⟩
    rw [dirBlocks_of_full (h.consistent.dirFull i hd), hptrs]

theorem Created.newEntries (h : Created request fs fs' p i ni L)
    (hp : request.parentInode.toNat ≠ 0) (hd : IsDirectory fs'.disk i) :
    entries fs'.disk i = dotEntries i request.parentInode.toNat := by
  obtain ⟨-, -, b, hb, hrec⟩ := h.newDir hd
  unfold entries
  rw [hb, blockEntries_cons, hrec, live_dotRecords h.ne_zero hp]
  rfl

/-- A successful `write` adds a link. -/
theorem Created.add (h : Created request fs fs' request.parentInode.toNat i ni L)
    (hc : Consistent fs) (hp : IsDirectory fs.disk request.parentInode.toNat) :
    LinkGraph.Add Entry.inode (graphOf fs.disk) (graphOf fs'.disk) request.parentInode.toNat
      (newEntry request i) (dotEntries i request.parentInode.toNat) where
  fresh := fun hu => by
    have := hu.2
    rw [show (newEntry request i).inode = i from rfl, h.fresh] at this
    cases this
  used := fun j => by
    simp only [graphOf_used, show (newEntry request i).inode = i from rfl]
    constructor
    · rintro ⟨hj, hu⟩
      rw [h.inodes j hj] at hu
      simp only [Bool.or_eq_true, decide_eq_true_eq] at hu
      exact hu.imp_left fun hu => ⟨hj, hu⟩
    · rintro (⟨hj, hu⟩ | rfl)
      · exact ⟨hj, by rw [h.inodes j hj, hu]; rfl⟩
      · exact ⟨h.isInode, by rw [h.inodes _ h.isInode]; simp⟩
  isDir := fun _ hne => h.isDirectory_iff hne
  kind := fun j ⟨hj, hu⟩ => by
    by_cases hjp : j = request.parentInode.toNat
    · rw [hjp]; exact h.parentMode
    · exact congrArg iMode (h.others j hj (h.ne_of_used hu) hjp)
  parent := by
    obtain ⟨A, B, h1, h2, -⟩ := h.parentEntries
    simp only [graphOf_links]
    exact ⟨A, B, h1, h2⟩
  others := fun j hj hjp => by
    rw [graphOf_links, graphOf_links]
    exact h.otherEntries hc hp hj hjp
  start := fun hd => by
    rw [graphOf_links]
    have := hp.isInode.1
    exact h.newEntries (by omega) hd

/-- A successful `delete` drops the first link of the name. -/
theorem Deleted.drop (h : Deleted request fs fs' p e) (hc : Consistent fs)
    (hp : IsDirectory fs.disk p) :
    LinkGraph.Drop Entry.inode (graphOf fs.disk) (graphOf fs'.disk) p e where
  used := fun j => by
    simp only [graphOf_used]
    constructor
    · rintro ⟨hj, hu⟩
      rw [h.inodes j hj] at hu
      simp only [Bool.and_eq_true, Bool.not_eq_true', decide_eq_false_iff_not] at hu
      exact ⟨⟨hj, hu.1⟩, hu.2⟩
    · rintro ⟨⟨hj, hu⟩, hne⟩
      refine ⟨hj, ?_⟩
      rw [h.inodes j hj, hu]
      simp [hne]
  isDir := fun _ => h.isDirectory_iff
  kind := fun j hne ⟨hj, _⟩ => congrArg iMode (h.others j hj hne)
  parent := fun hne => by
    obtain ⟨A, B, h1, h2, -⟩ := h.parentEntries hp.isInode hne
    simp only [graphOf_links]
    exact ⟨A, B, h1, h2⟩
  others := fun j hj hjp hne => by
    rw [graphOf_links, graphOf_links]
    exact h.otherEntries hc hp hj hjp hne

end Refine

/-! ## Calls -/

/-- A request to the driver that changes the disk. -/
inductive Call
  | write (request : EXT2DriverRequest)
  | delete (request : EXT2DriverRequest)

def Call.request : Call → EXT2DriverRequest
  | .write r => r
  | .delete r => r

def Call.run : Call → Fs → Int × Fs
  | .write r, fs => LossOs.Ext2.write r fs
  | .delete r, fs => LossOs.Ext2.delete r fs

@[simp] theorem Call.run_write (r : EXT2DriverRequest) (fs : Fs) :
    (Call.write r).run fs = LossOs.Ext2.write r fs := rfl

@[simp] theorem Call.run_delete (r : EXT2DriverRequest) (fs : Fs) :
    (Call.delete r).run fs = LossOs.Ext2.delete r fs := rfl

/-- One call of which `ok` holds. Its local buffers start with any bytes. -/
def Step (ok : Call → Fs → Prop) (fs fs' : Fs) : Prop :=
  ∃ c stack, ok c (fs.withStack stack) ∧ fs' = (c.run (fs.withStack stack)).2

/-- A sequence of calls of which `ok` holds, each in the state it meets. -/
abbrev Run (ok : Call → Fs → Prop) : Fs → Fs → Prop := Relation.ReflTransGen (Step ok)

theorem withStack_self (fs : Fs) : fs.withStack fs.stack = fs := rfl

section Run

variable {ok : Call → Fs → Prop} {c : Call} {request : EXT2DriverRequest} {fs₀ fs : Fs}

theorem Run.refl (fs : Fs) : Run ok fs fs := Relation.ReflTransGen.refl

/-- One call more. -/
theorem Run.call (hr : Run ok fs₀ fs) (h : ok c fs) : Run ok fs₀ (c.run fs).2 :=
  hr.tail ⟨c, fs.stack, by rwa [withStack_self], by rw [withStack_self]⟩

theorem Run.write (hr : Run ok fs₀ fs) (h : ok (.write request) fs) :
    Run ok fs₀ (LossOs.Ext2.write request fs).2 := hr.call h

theorem Run.delete (hr : Run ok fs₀ fs) (h : ok (.delete request) fs) :
    Run ok fs₀ (LossOs.Ext2.delete request fs).2 := hr.call h

end Run

/-- What every call with `ok` keeps, a whole run keeps. -/
theorem Run.invariant {ok : Call → Fs → Prop} {I : Fs → Prop} {fs fs' : Fs} (h : Run ok fs fs')
    (hstack : ∀ fs stack, I fs → I (fs.withStack stack))
    (hstep : ∀ c fs, I fs → ok c fs → I (c.run fs).2) (hs : I fs) : I fs' := by
  refine run_invariant (fun s s' hI ⟨c, stack, hok, he⟩ => ?_) h hs
  rw [he]
  exact hstep c _ (hstack s stack hI) hok

/-- The call keeps to the pointers and blocks there are: a parent that grows has a pointer left,
    a new directory finds a free block, and a directory that is deleted has its blocks in the
    direct pointers. -/
structure Within (c : Call) (fs : Fs) : Prop where
  parent : c.request.parentInode.toNat ≤ 896
  write : ∀ request, c = .write request → Creates request fs.disk →
    CanGrow request fs.disk ∧ DirFits request fs.disk
  delete : ∀ request e, c = .delete request → request.isDirectory = true →
    firstNamed request fs.disk request.parentInode.toNat = some e → e.fileType = 2 →
    isDirectoryEmpty e.inode fs = true → iBlocks (slot fs.disk e.inode) ≤ 12

/-! ## Outcomes -/

section Outcomes

variable {request : EXT2DriverRequest} {fs : Fs}

theorem write_parent_zero (h : request.parentInode.toNat = 0) : write request fs = (2, fs) := by
  unfold write
  dsimp only
  rw [if_pos h]

theorem delete_parent_zero (h : request.parentInode.toNat = 0) : delete request fs = (-1, fs) := by
  unfold delete
  dsimp only
  rw [if_pos h]

/-- `write` changes nothing that can be reached, or adds one entry. -/
theorem write_call (hc : Consistent fs) (hp : request.parentInode.toNat ≤ 896)
    (hok : Creates request fs.disk → CanGrow request fs.disk ∧ DirFits request fs.disk) :
    ((write request fs).1 ≠ 0 ∧ Quiet fs (write request fs).2) ∨
    ((write request fs).1 = 0 ∧ IsDirectory fs.disk request.parentInode.toNat ∧
      Creates request fs.disk ∧
      ∃ i ni L, Created request fs (write request fs).2 request.parentInode.toNat i ni L) := by
  by_cases h0 : request.parentInode.toNat = 0
  · left
    rw [write_parent_zero h0]
    exact ⟨by simp, Quiet.refl hc⟩
  · exact write_outcome hc ⟨by omega, hp⟩ hok

/-- `delete` changes nothing, or removes the first entry of the name with its inode. -/
theorem delete_call (hc : Consistent fs) (hp : request.parentInode.toNat ≤ 896) :
    ((delete request fs).1 ≠ 0 ∧ (delete request fs).2 = fs) ∨
    ((delete request fs).1 = 0 ∧ IsDirectory fs.disk request.parentInode.toNat ∧
      ∃ e, firstNamed request fs.disk request.parentInode.toNat = some e ∧
        (request.isDirectory = true → e.fileType = 2 ∧ isDirectoryEmpty e.inode fs = true) ∧
        (request.isDirectory = false → e.fileType = 1) ∧
        (IsInode e.inode → inodeUsed fs.disk e.inode = true →
          (isDir fs.disk e.inode = true → iBlocks (slot fs.disk e.inode) ≤ 12) →
          Deleted request fs (delete request fs).2 request.parentInode.toNat e)) := by
  by_cases h0 : request.parentInode.toNat = 0
  · left
    rw [delete_parent_zero h0]
    exact ⟨by simp, rfl⟩
  · exact delete_outcome hc ⟨by omega, hp⟩

theorem firstNamed_mem {p : Nat} {e : Entry} (h : firstNamed request fs.disk p = some e) :
    e ∈ entries fs.disk p ∧ e.name = requestName request :=
  ⟨List.mem_of_find?_eq_some h, by simpa using List.find?_some h⟩

end Outcomes

end LossOs.Ext2
