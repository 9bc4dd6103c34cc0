/-
  Adding subtrees.

  `Grafted` says what a disk is like when inodes were taken and one directory has got entries: what
  the other inodes hold is `Intact`. A `write` takes one inode (`Created.grafted`); what is taken
  adds up (`Grafted.trans`). Two files are the same when `read` yields the same bytes of both
  (`SameFile`), and two directories when their entries lead to the same (`SameTree`).
-/
import LossOs.Ext2.Failure
import LossOs.Ext2.Growth
import LossOs.Ext2.Isolation
import LossOs.Ext2.Prune
import LossOs.Lib.Paths

namespace LossOs.Ext2

open LossOs.Lib

/-! ## What an inode holds -/

/-- What inode `j` holds is the same on both disks. -/
structure Intact (d d' : Disk) (j : Nat) : Prop where
  used : inodeUsed d' j = inodeUsed d j
  node : slot d' j = slot d j
  blocks : ∀ b ∈ reach d j, d' b = d b

section Intact

variable {d d' d'' : Disk} {fs fs' : Fs} {i j p q : Nat} {S S' : Nat → Prop}

theorem Intact.refl (d : Disk) (j : Nat) : Intact d d j := ⟨rfl, rfl, fun _ _ => rfl⟩

theorem Intact.symm (h : Intact d d' j) : Intact d' d j := by
  refine ⟨h.used.symm, h.node.symm, fun b hb => ?_⟩
  rw [reach_congr h.node h.blocks] at hb
  exact (h.blocks b hb).symm

theorem Intact.reach_eq (h : Intact d d' j) : reach d' j = reach d j := reach_congr h.node h.blocks

theorem Intact.trans (h : Intact d d' j) (h' : Intact d' d'' j) : Intact d d'' j := by
  refine ⟨h'.used.trans h.used, h'.node.trans h.node, fun b hb => ?_⟩
  rw [h'.blocks b (h.reach_eq ▸ hb), h.blocks b hb]

theorem Intact.isDirectory_iff (h : Intact d d' j) : IsDirectory d' j ↔ IsDirectory d j := by
  have hdir : isDir d' j = isDir d j := isDir_congr (by rw [h.node])
  constructor
  · exact fun hd => ⟨hd.isInode, by rw [← h.used]; exact hd.used, by rw [← hdir]; exact hd.dir⟩
  · exact fun hd => ⟨hd.isInode, by rw [h.used]; exact hd.used, by rw [hdir]; exact hd.dir⟩

theorem Intact.entries_eq (h : Intact d d' j) (hd : IsDirectory d j) :
    entries d' j = entries d j := by
  have hb := h.blocks
  rw [reach_of_dir hd.dir] at hb
  unfold entries
  rw [h.node]
  exact blockEntries_congr hb

theorem Intact.links (h : Intact d d' j) : ((graphOf d').isDir j ↔ (graphOf d).isDir j) ∧
    ((graphOf d).isDir j → (graphOf d').links j = (graphOf d).links j) := by
  rw [graphOf_links, graphOf_links]
  exact ⟨h.isDirectory_iff, fun hd => h.entries_eq hd⟩

/-- What lies below an inode stays as long as all that lies there is kept. -/
theorem under_congr (h : ∀ y, Under d i y → Intact d d' y) : Under d' i j ↔ Under d i j :=
  LinkGraph.below_congr fun y hy => (h y hy).links

end Intact

/-- From disk `d` to `d'` the inodes of `S` were taken. Of the others only directory `q` has
    changed. -/
structure Grafted (d d' : Disk) (q : Nat) (S : Nat → Prop) : Prop where
  used : ∀ j, IsInode j → (inodeUsed d' j = true ↔ inodeUsed d j = true ∨ S j)
  fresh : ∀ j, S j → IsInode j ∧ inodeUsed d j = false
  dir : isDir d' q = isDir d q
  kept : ∀ j, IsInode j → inodeUsed d j = true → j ≠ q → Intact d d' j

section Grafted

variable {d d' d'' : Disk} {fs fs' : Fs} {i j p q r : Nat} {S S' : Nat → Prop} {e : Entry}

theorem Grafted.refl (d : Disk) (q : Nat) : Grafted d d q fun _ => False :=
  ⟨fun _ _ => (or_false _).to_iff.symm, fun _ h => h.elim, rfl, fun _ _ _ _ => Intact.refl _ _⟩

theorem Grafted.congr (h : Grafted d d' q S) (hS : ∀ j, S j ↔ S' j) : Grafted d d' q S' := by
  obtain rfl : S = S' := funext fun j => propext (hS j)
  exact h

/-- A directory stays one. -/
theorem Grafted.isDirectory (h : Grafted d d' q S) (hj : IsDirectory d j) : IsDirectory d' j := by
  by_cases hjq : j = q
  · subst hjq
    exact ⟨hj.isInode, (h.used j hj.isInode).mpr (Or.inl hj.used), by rw [h.dir]; exact hj.dir⟩
  · exact (h.kept j hj.isInode hj.used hjq).isDirectory_iff.mpr hj

/-- An inode that was in use is none of the new ones. -/
theorem Grafted.not_mem (h : Grafted d d' q S) (hu : inodeUsed d j = true) : ¬ S j := fun hj => by
  have := (h.fresh j hj).2
  rw [hu] at this
  cases this

/-- What is taken adds up, when it is taken for the same directory or for a new one. -/
theorem Grafted.trans (h : Grafted d d' q S) (h' : Grafted d' d'' r S') (hq : IsDirectory d q)
    (hr : r = q ∨ S r) : Grafted d d'' q fun j => S j ∨ S' j := by
  have hne : ∀ j, inodeUsed d j = true → j ≠ q → j ≠ r := by
    intro j hu hjq hjr
    rcases hr with rfl | hr
    · exact hjq hjr
    · exact h.not_mem hu (hjr ▸ hr)
  refine ⟨fun j hj => ?_, fun j hj => ?_, ?_, fun j hj hu hjq => ?_⟩
  · rw [h'.used j hj, h.used j hj, or_assoc]
  · rcases hj with hj | hj
    · exact h.fresh j hj
    · obtain ⟨hi, hu⟩ := h'.fresh j hj
      refine ⟨hi, Bool.eq_false_iff.mpr fun hu' => ?_⟩
      rw [(h.used j hi).mpr (Or.inl hu')] at hu
      cases hu
  · rcases hr with rfl | hr
    · rw [h'.dir, h.dir]
    · have hqr : q ≠ r := by
        rintro rfl
        exact h.not_mem hq.used hr
      have hk := h'.kept q hq.isInode ((h.used q hq.isInode).mpr (Or.inl hq.used)) hqr
      have hdir : isDir d'' q = isDir d' q := isDir_congr (by rw [hk.node])
      rw [hdir, h.dir]
  · exact (h.kept j hj hu hjq).trans
      (h'.kept j hj ((h.used j hj).mpr (Or.inl hu)) (hne j hu hjq))

/-- A `write` that succeeds takes one inode. -/
theorem Created.grafted {request : EXT2DriverRequest} {ni : Mem} {L : List Nat}
    (h : Created request fs fs' p i ni L) (hc : Consistent fs) (hp : IsDirectory fs.disk p) :
    Grafted fs.disk fs'.disk p fun j => j = i := by
  refine ⟨fun j hj => ?_, fun j hj => ?_, isDir_congr h.parentMode, fun j hj hu hjp => ?_⟩
  · rw [h.inodes j hj, Bool.or_eq_true, decide_eq_true_iff]
  · subst hj
    exact ⟨h.isInode, h.fresh⟩
  · have hji := h.ne_of_used hu
    refine ⟨?_, h.others j hj hji hjp, h.reach_kept hc hp hj hu hjp⟩
    rw [h.inodes j hj, hu]
    rfl

/-- One that fails takes none. -/
theorem Quiet.grafted (h : Quiet fs fs') (hc : Consistent fs) (q : Nat) :
    Grafted fs.disk fs'.disk q fun _ => False := by
  refine ⟨fun j hj => by rw [h.inodes j hj, or_false], fun _ hj => hj.elim,
    isDir_congr (by rw [h.slots]), fun j hj hu _ => ⟨h.inodes j hj, h.slots j, fun b hb => ?_⟩⟩
  obtain ⟨h1, h2⟩ := hc.owned.data j hj hu b hb
  exact h.kept b h1 h2

/-- What is in use stays as it is when nothing that can be reached has changed. -/
theorem Quiet.intact (h : Quiet fs fs') (hc : Consistent fs) (hj : IsInode j)
    (hu : inodeUsed fs.disk j = true) : Intact fs.disk fs'.disk j :=
  (h.grafted hc 0).kept j hj hu (by have := hj.1; omega)

/-- What lies below an entry is kept, unless the directory lies there. -/
theorem Grafted.intact_under {s : Nat} {a : Entry} (h : Grafted fs.disk d' q S) (ht : Tree fs)
    (hs : IsDirectory fs.disk s) (ha : a ∈ proper fs.disk s) (hq : ¬ Under fs.disk a.inode q)
    {y : Nat}
    (hy : Under fs.disk a.inode y) : Intact fs.disk d' y := by
  obtain ⟨h1, h2⟩ := ht.under_used hs ha hy
  apply h.kept y h1 h2
  rintro rfl
  exact hq hy

end Grafted

/-! ## The same contents -/

/-- Two files of one size, of which `read` yields the same bytes whatever its buffer holds. -/
structure SameFile (fs fs' : Fs) (j j' : Nat) : Prop where
  mode : iMode (slot fs.disk j) = 0x8000
  mode' : iMode (slot fs'.disk j') = 0x8000
  size : iSize (slot fs'.disk j') = iSize (slot fs.disk j)
  bytes : ∀ out out' k, k < iSize (slot fs.disk j) →
    (copyFile fs' (slot fs'.disk j') out').out k = (copyFile fs (slot fs.disk j) out).out k

/-- Two directories, or two files that are the same. -/
inductive SameNode (fs fs' : Fs) (j j' : Nat) : Prop
  | dir (h : IsDirectory fs.disk j) (h' : IsDirectory fs'.disk j')
  | file (h : SameFile fs fs' j j')

/-- The same names and types lead down from both inodes, to the same. -/
abbrev SameTree (fs fs' : Fs) : Nat → Nat → Prop :=
  LinkGraph.Alike Entry.inode Proper (fun e => (e.name, e.fileType)) (SameNode fs fs')
    (graphOf fs.disk) (graphOf fs'.disk)

section Same

variable {fs fs' fs₁ fs₁' : Fs} {j j' k : Nat}

theorem isDir_of_file {d : Disk} (h : iMode (slot d j) = 0x8000) : isDir d j = false := by
  unfold isDir
  rw [h]
  rfl

theorem copyFile_withStack (fs : Fs) (s node out : Mem) :
    copyFile (fs.withStack s) node out = copyFile fs node out := by
  apply copyFile_congr
  · intro o _
    rfl
  · intro b _
    rw [withStack_disk]

/-- What `read` yields of a file that is kept. -/
theorem Intact.copyFile_eq (h : Intact fs.disk fs₁.disk j) (hf : iMode (slot fs.disk j) = 0x8000)
    (out : Mem) : copyFile fs₁ (slot fs₁.disk j) out = copyFile fs (slot fs.disk j) out := by
  have hb := h.blocks
  rw [reach_of_not_dir (isDir_of_file hf)] at hb
  rw [h.node]
  exact copyFile_congr (fun _ _ => rfl) hb out

theorem SameFile.congr (h : SameFile fs fs' j j') (hk : Intact fs.disk fs₁.disk j)
    (hk' : Intact fs'.disk fs₁'.disk j') : SameFile fs₁ fs₁' j j' := by
  refine ⟨by rw [hk.node]; exact h.mode, by rw [hk'.node]; exact h.mode',
    by rw [hk.node, hk'.node]; exact h.size, fun out out' k hlt => ?_⟩
  rw [hk.node] at hlt
  rw [hk.copyFile_eq h.mode, hk'.copyFile_eq h.mode']
  exact h.bytes out out' k hlt

theorem SameNode.congr (h : SameNode fs fs' j j') (hk : Intact fs.disk fs₁.disk j)
    (hk' : Intact fs'.disk fs₁'.disk j') : SameNode fs₁ fs₁' j j' := by
  cases h with
  | dir h h' => exact .dir (hk.isDirectory_iff.mpr h) (hk'.isDirectory_iff.mpr h')
  | file h => exact .file (h.congr hk hk')

/-- Trees stay the same as long as all that lies below is kept. -/
theorem SameTree.congr (h : SameTree fs fs' j j')
    (hk : ∀ y, Under fs.disk j y → Intact fs.disk fs₁.disk y)
    (hk' : ∀ y, Under fs'.disk j' y → Intact fs'.disk fs₁'.disk y) : SameTree fs₁ fs₁' j j' :=
  LinkGraph.Alike.congr h (fun y hy => (hk y hy).links) (fun y hy => (hk' y hy).links)
    fun y y' hy hy' hs => hs.congr (hk y hy) (hk' y' hy')

theorem sameFile_withStack (s : Mem) : SameFile (fs.withStack s) fs' j j' ↔ SameFile fs fs' j j' :=
  ⟨fun h => h.congr (Intact.refl fs.disk j) (Intact.refl fs'.disk j'),
    fun h => h.congr (Intact.refl fs.disk j) (Intact.refl fs'.disk j')⟩

/-- The bytes on the stack do not matter. -/
theorem sameTree_withStack (s : Mem) : SameTree (fs.withStack s) fs' j j' ↔ SameTree fs fs' j j' :=
  ⟨fun h => SameTree.congr h (fun y _ => Intact.refl fs.disk y) fun y _ => Intact.refl fs'.disk y,
    fun h => SameTree.congr h (fun y _ => Intact.refl fs.disk y) fun y _ => Intact.refl fs'.disk y⟩

theorem SameFile.not_directory (h : SameFile fs fs' j j') :
    ¬ IsDirectory fs.disk j ∧ ¬ IsDirectory fs'.disk j' := by
  constructor
  · intro hd
    have := hd.dir
    rw [isDir_of_file h.mode] at this
    cases this
  · intro hd
    have := hd.dir
    rw [isDir_of_file h.mode'] at this
    cases this

/-- Below a file there is nothing to compare. -/
theorem SameFile.tree (h : SameFile fs fs' j j') : SameTree fs fs' j j' := by
  obtain ⟨hd, hd'⟩ := h.not_directory
  exact LinkGraph.Alike.of_links (.file h) (iff_of_false hd hd') (fun hi => absurd hi hd)
    fun hi => absurd hi hd

/-- What is the same as a file is the same file. -/
theorem SameTree.file {s : Nat} {e : Entry} (h : SameTree fs fs' e.inode j') (ht : Tree fs)
    (hs : IsDirectory fs.disk s) (he : e ∈ entries fs.disk s) (h1 : e.fileType = 1) :
    SameFile fs fs' e.inode j' := by
  cases h.head with
  | dir hd _ =>
    rw [ht.sound.noDangling.isDir_iff hs he, h1] at hd
    cases hd
  | file hf => exact hf

end Same

/-- What `read` returns of a file. -/
theorem Tree.read_file {rd : EXT2DriverRequest} {fs : Fs} {a : Entry} (ht : Tree fs)
    (hp : IsDirectory fs.disk rd.parentInode.toNat)
    (hfirst : firstNamed rd fs.disk rd.parentInode.toNat = some a) (h1 : a.fileType = 1) :
    read rd fs = if rd.bufferSize.toNat < iSize (slot fs.disk a.inode) then (-1, rd.buf)
      else (0, (copyFile fs (slot fs.disk a.inode) rd.buf).out) := by
  have hi := (ht.sound.noDangling.entry _ hp a (firstNamed_mem hfirst).1).1
  have hnode : ∀ o < 70, view (fs.readBlocks (fs.inodeBlock a.inode)) (slotOffset a.inode) o =
      slot fs.disk a.inode o := fun o ho => ht.consistent.ready.layout.node_apply hi ho
  rw [ht.consistent.read_eq hp, hfirst]
  unfold readEntry
  dsimp only
  rw [if_neg (by rw [h1]; decide), iSize_congr hnode, copyFile_congr hnode fun _ _ => rfl]

/-! ## What a `write` adds -/

section New

variable {request : EXT2DriverRequest} {fs fs' : Fs} {i j : Nat} {ni : Mem} {L X : List Nat}

/-- The blocks from the group of the new inode on suffice. -/
def HasRoom (request : EXT2DriverRequest) (d : Disk) : Prop :=
  ∀ i, firstFreeInode d = some i → needed request ≤ (roomFrom request d (inodeToBgd i)).card

/-- From `fs` to `fs'` the request was built in inode `i`. -/
structure Added (request : EXT2DriverRequest) (fs fs' : Fs) (i : Nat) : Prop where
  tree : Tree fs'
  grafted : Grafted fs.disk fs'.disk request.parentInode.toNat fun j => j = i
  entries : ∃ A B, entries fs.disk request.parentInode.toNat = A ++ B ∧
    entries fs'.disk request.parentInode.toNat = A ++ newEntry request i :: B ∧
      ∀ a ∈ A, a.name ≠ requestName request
  proper : Proper (newEntry request i)
  dir : isDirRequest request = true → IsDirectory fs'.disk i ∧ LossOs.Ext2.proper fs'.disk i = []
  file : isDirRequest request = false → ∃ ni L X, Built request fs fs' i ni L X ∧
    slot fs'.disk i = cutNode ni

/-- The new entry is the first of its name. -/
theorem Added.find_new (h : Added request fs fs' i) :
    (LossOs.Ext2.entries fs'.disk request.parentInode.toNat).find?
      (fun a => a.name == requestName request) = some (newEntry request i) := by
  obtain ⟨A, B, -, h3, hA⟩ := h.entries
  have hnone : A.find? (fun a => a.name == requestName request) = none :=
    List.find?_eq_none.mpr fun a ha he => hA a ha (beq_iff_eq.mp he)
  rw [h3, List.find?_append, hnone, List.find?_cons]
  rw [show ((newEntry request i).name == requestName request) = true from beq_self_eq_true _]
  rfl

theorem parentBlock_eq (hc : Consistent fs) (hp : IsDirectory fs.disk request.parentInode.toNat) :
    parentBlock request fs = growthBlock request fs.disk := by
  unfold parentBlock growthBlock
  cases hs : scanParent request fs with
  | none => rw [(scanParent_none_iff hc hp).mp hs]
  | some q =>
    cases hh : firstHit request fs.disk request.parentInode.toNat with
    | none =>
      rw [scanParent_eq_none hc hp hh] at hs
      cases hs
    | some q => rfl

/-- Where `write` gets as far as creating an inode, it succeeds. -/
theorem write_creates (hc : Consistent fs) (hp : IsDirectory fs.disk request.parentInode.toNat)
    (h : Creates request fs.disk) : (write request fs).1 = 0 := by
  obtain ⟨-, hdir, ⟨i, hi⟩, hhit⟩ := h
  have hb : Builds request fs := by
    refine ⟨hdir, ?_⟩
    rcases hhit with ⟨q, hq, hn⟩ | ⟨hq, nb, hnb⟩
    · refine Or.inl ⟨q.1, ?_⟩
      have hok := hc.dirOk _ hp
      unfold firstHit at hq
      unfold scanParent
      rw [scanDir_eq (dirPtrs_view hc.ready.layout hp.isInode hok.size) hok.blocks, hq]
      refine ⟨q.2.off, ?_⟩
      unfold hitOf
      rw [Option.map_some, hn]
      rfl
    · exact Or.inr ⟨scanParent_eq_none hc hp hq, nb, by rw [parentBlock_eq hc hp, hnb]⟩
  rcases write_built (hc.hosts hp) with ⟨-, hno⟩ | ⟨h0, -⟩
  · exact absurd hb (hno i hi)
  · exact h0

/-- A careful `write` fails and leaves all as it is, or adds what is requested. -/
theorem Tree.write_added (ht : Tree fs) (hok : Careful (.write request) fs) :
    ((write request fs).1 ≠ 0 ∧ Quiet fs (write request fs).2 ∧ Tree (write request fs).2) ∨
    ((write request fs).1 = 0 ∧ IsDirectory fs.disk request.parentInode.toNat ∧
      ∃ i, firstFreeInode fs.disk = some i ∧
        (firstHit request fs.disk request.parentInode.toNat = none →
          inodeBlockAt i ≠ inodeBlockAt request.parentInode.toNat) ∧
        Added request fs (write request fs).2 i) := by
  have htree : Tree (write request fs).2 := ht.run hok
  rcases ht.sound.write_careful hok with ⟨hne, hq⟩ | ⟨h0, hp, i, ni, L, hnew, hP, hkept⟩
  · exact Or.inl ⟨hne, hq, htree⟩
  · rcases write_built (ht.consistent.hosts hp) with ⟨hne, -⟩ | ⟨-, -, j, nj, M, X, hj, hbuilt⟩
    · exact absurd h0 hne
    obtain rfl : j = i := Option.some.inj (hj.symm.trans hnew.first)
    have hslot := hbuilt.kept fun hscan => hkept ((scanParent_none_iff ht.consistent hp).mp hscan)
    refine Or.inr ⟨h0, hp, j, hj, hkept, htree, hnew.grafted ht.consistent hp, hnew.parentEntries,
      hP, fun hdir => ?_, fun _ => ⟨nj, M, X, hbuilt, hslot⟩⟩
    obtain ⟨d₀, hmade, -⟩ := hbuilt.made
    have hd : IsDirectory (write request fs).2.disk j := by
      refine ⟨hnew.isInode, ?_, (hmade.isDir_eq hslot).trans hdir⟩
      rw [hnew.inodes j hnew.isInode]
      simp
    refine ⟨hd, ?_⟩
    unfold LossOs.Ext2.proper
    rw [hnew.newEntries (by have := hp.isInode.1; omega) hd]
    exact List.filter_eq_nil_iff.mpr fun a ha => by simpa using not_proper_dot a ha

/-- Whether a file fits, on the disk. -/
theorem fileFits_iff (hc : Consistent fs) (hp : IsDirectory fs.disk request.parentInode.toNat)
    (hreg : isDirRequest request = false) (hi : firstFreeInode fs.disk = some i)
    (hkept : firstHit request fs.disk request.parentInode.toNat = none →
      inodeBlockAt i ≠ inodeBlockAt request.parentInode.toNat) :
    FileFits request fs i ↔ HasRoom request fs.disk := by
  have hleft : blocksLeft request fs (inodeToBgd i) = roomFrom request fs.disk (inodeToBgd i) := by
    unfold blocksLeft roomFrom
    rw [parentBlock_eq hc hp]
  have hneeded : needed request = blocksNeeded (exactBlocks request) := by
    unfold needed
    rw [hreg]
    rfl
  constructor
  · intro h j hj
    obtain rfl : i = j := Option.some.inj (hi.symm.trans hj)
    rw [hneeded, ← hleft]
    exact h.room
  · intro h
    refine ⟨?_, fun hs => hkept ((scanParent_none_iff hc hp).mp hs)⟩
    rw [← hneeded, hleft]
    exact h i hi

/-- The node of a new file. -/
theorem Built.node (h : Built request fs fs' i ni L X) (hreg : isDirRequest request = false)
    (hslot : slot fs'.disk i = cutNode ni) :
    iSize (slot fs'.disk i) = request.bufferSize.toNat ∧ iMode (slot fs'.disk i) = 0x8000 := by
  obtain ⟨d₀, hmade, -⟩ := h.made
  cases hmade with
  | dir b hdir => rw [hreg] at hdir; cases hdir
  | fallback hdir => rw [hreg] at hdir; cases hdir
  | file t _ hat =>
    have hat' : FileAt request fs'.disk (slot fs'.disk i) t :=
      hat.congr (cutNode_apply hslot) fun _ _ => rfl
    exact ⟨hat'.size, hat'.mode⟩

/-- A new file holds all bytes of the request exactly if it fits. -/
theorem Built.bytes_iff (h : Built request fs fs' i ni L X) (hreg : isDirRequest request = false)
    (hslot : slot fs'.disk i = cutNode ni) (hpos : 0 < request.bufferSize.toNat) :
    ((∀ out k, k < request.bufferSize.toNat →
        (copyFile fs' (slot fs'.disk i) out).out k = request.buf k) ↔ FileFits request fs i) ∧
      ((∀ out out' k, k < request.bufferSize.toNat → (copyFile fs' (slot fs'.disk i) out).out k =
        (copyFile fs' (slot fs'.disk i) out').out k) → FileFits request fs i) := by
  have hcut := cutNode_apply hslot
  have hfits := h.stored_iff hreg
  obtain ⟨d₀, hmade, -⟩ := h.made
  have hused := h.blocks
  cases hmade with
  | dir b hdir => rw [hreg] at hdir; cases hdir
  | fallback hdir => rw [hreg] at hdir; cases hdir
  | file t _ hat =>
    have hat' : FileAt request fs'.disk (slot fs'.disk i) t :=
      hat.congr hcut fun _ _ => rfl
    have hfull : (∀ out out' k, k < request.bufferSize.toNat →
        (copyFile fs' (slot fs'.disk i) out).out k =
          (copyFile fs' (slot fs'.disk i) out').out k) → FileFits request fs i := by
      intro hall
      -- the last byte is copied from a block
      have hlast := hall (fun _ => 0) (fun _ => 1) (request.bufferSize.toNat - 1) (by omega)
      have h0 : ∀ b ∈ t.blocks, b ≠ 0 := fun b hb => (hused b hb).1.ne_zero
      rw [copyFile_eq hat'.holds h0, copyFile_eq hat'.holds h0, copyList_out, copyList_out,
        hat'.size] at hlast
      have hlen : request.bufferSize.toNat - 1 < 512 * t.data.length := by
        by_contra hlt
        dsimp only at hlast
        rw [if_neg (by omega), if_neg (by omega)] at hlast
        exact absurd hlast (by decide)
      obtain ⟨hle, -, -⟩ := hat'.shape.length_blocks
      have hmod : blockCount request ≤ exactBlocks request := by
        rw [blockCount_eq]
        unfold exactBlocks
        omega
      have hexact : blockCount request = exactBlocks request := by
        unfold exactBlocks at hmod ⊢
        omega
      refine hfits.mp ⟨t, hat.stored hslot hexact ?_ hused⟩
      rw [hexact] at hle ⊢
      unfold exactBlocks at hle ⊢
      omega
    refine ⟨⟨fun hall => hfull fun out out' k hk => ?_, fun hf => ?_⟩, hfull⟩
    · rw [hall out k hk, hall out' k hk]
    · obtain ⟨t', ht'⟩ := hfits.mpr hf
      intro out k hk
      rw [ht'.copyFile (fun _ _ => rfl) out k, if_pos hk]

/-- A new file is the same as the one that its bytes come from exactly if this has the size of the
    request, all of its bytes are stored, and there is room for them. -/
theorem Added.sameFile_iff {fs₀ : Fs} {out₀ : Mem} (h : Added request fs fs' i)
    (hreg : isDirRequest request = false) (hpos : 0 < request.bufferSize.toNat)
    (hc : Consistent fs) (hp : IsDirectory fs.disk request.parentInode.toNat)
    (hi : firstFreeInode fs.disk = some i)
    (hkept : firstHit request fs.disk request.parentInode.toNat = none →
      inodeBlockAt i ≠ inodeBlockAt request.parentInode.toNat)
    (hmode : iMode (slot fs₀.disk j) = 0x8000)
    (hbuf : request.buf = (copyFile fs₀ (slot fs₀.disk j) out₀).out) :
    SameFile fs₀ fs' j i ↔ iSize (slot fs₀.disk j) = request.bufferSize.toNat ∧
      SameFile fs₀ fs₀ j j ∧ HasRoom request fs.disk := by
  obtain ⟨ni, L, X, hbuilt, hslot⟩ := h.file hreg
  obtain ⟨hsize, hmode'⟩ := hbuilt.node hreg hslot
  obtain ⟨hbytes, hfull⟩ := hbuilt.bytes_iff hreg hslot hpos
  rw [fileFits_iff hc hp hreg hi hkept] at hbytes hfull
  constructor
  · intro hs
    have heq : iSize (slot fs₀.disk j) = request.bufferSize.toNat := hs.size.symm.trans hsize
    refine ⟨heq, ⟨hmode, hmode, rfl, fun out out' k hk => ?_⟩, hfull fun out out' k hk => ?_⟩
    · rw [← hs.bytes out' (fun _ => 0) k hk, hs.bytes out (fun _ => 0) k hk]
    · rw [← heq] at hk
      rw [hs.bytes (fun _ => 0) out k hk, hs.bytes (fun _ => 0) out' k hk]
  · rintro ⟨heq, hwhole, hroom⟩
    refine ⟨hmode, hmode', hsize.trans heq.symm, fun out out' k hk => ?_⟩
    rw [hbytes.mpr hroom out' k (heq ▸ hk), hbuf]
    exact hwhole.bytes out out₀ k hk

/-- A file that has room is stored in full. -/
theorem Added.whole (h : Added request fs fs' i) (hreg : isDirRequest request = false)
    (hc : Consistent fs) (hp : IsDirectory fs.disk request.parentInode.toNat)
    (hi : firstFreeInode fs.disk = some i)
    (hkept : firstHit request fs.disk request.parentInode.toNat = none →
      inodeBlockAt i ≠ inodeBlockAt request.parentInode.toNat)
    (hroom : HasRoom request fs.disk) :
    iSize (slot fs'.disk i) = request.bufferSize.toNat ∧ SameFile fs' fs' i i := by
  obtain ⟨ni, L, X, hbuilt, hslot⟩ := h.file hreg
  obtain ⟨hsize, hmode⟩ := hbuilt.node hreg hslot
  refine ⟨hsize, hmode, hmode, rfl, fun out out' k hk => ?_⟩
  rw [hsize] at hk
  obtain ⟨hbytes, -⟩ := hbuilt.bytes_iff hreg hslot (by omega)
  rw [fileFits_iff hc hp hreg hi hkept] at hbytes
  rw [hbytes.mpr hroom out' k hk, hbytes.mpr hroom out k hk]

end New

end LossOs.Ext2
