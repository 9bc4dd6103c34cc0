/-
  A successful `write` on a consistent state.

  Both paths end in `Created`: the state is consistent again, the entry list of the parent
  has one element more, and every other inode and directory is as before
  (`Hole.created`, `Grow.created`). On the growth path the new inode itself may be lost: when
  it lies in the parent's inode-table block, the block that is written back last has its slot
  still empty (`Grow.slot_new`).
-/
import LossOs.Ext2.Write

namespace LossOs.Ext2

open LossOs.Lib

/-! ## The new inode -/

theorem cutNode_apply {d : Disk} {i : Nat} {ni : Mem} (h : slot d i = cutNode ni) :
    ∀ o < 70, slot d i o = ni o := fun o ho => by rw [h, cutNode_of_lt ho]

section Made

variable {request : EXT2DriverRequest} {i : Nat} {d₀ d : Disk} {ni : Mem} {L X : List Nat}

theorem Made.isDir_eq (h : Made request i d₀ d ni L X) (hs : slot d i = cutNode ni) :
    isDir d i = isDirRequest request := by
  unfold isDir
  rw [iMode_congr (cutNode_apply hs)]
  cases h with
  | file t hreg hat => rw [hat.mode, hreg]; rfl
  | dir b hdir _ hat => rw [hat.mode, hdir]; rfl
  | fallback hdir _ hnode => rw [hnode.mode, hdir]; rfl

theorem DirNode.dirPtrs_eq {b : Nat} (h : DirNode ni b) : dirPtrs ni = [b] := by
  unfold dirPtrs
  rw [h.count]
  show [iBlock ni 0] = [b]
  rw [h.first]

theorem dirPtrs_congr {m m' : Mem} (h : ∀ o < 70, m' o = m o) (h15 : iBlocks m ≤ 15) :
    dirPtrs m' = dirPtrs m := by
  unfold dirPtrs
  rw [iBlocks_congr h]
  refine List.map_congr_left fun j hj => iBlock_congr h ?_
  have := List.mem_range.mp hj
  omega

theorem DirNode.dirPtrs_slot {b : Nat} (h : DirNode ni b) (hs : slot d i = cutNode ni) :
    dirPtrs (slot d i) = [b] := by
  rw [dirPtrs_congr (cutNode_apply hs) (by rw [h.count]; omega), h.dirPtrs_eq]

/-- The new inode reaches the blocks that were taken for it. -/
theorem Made.reach_eq (h : Made request i d₀ d ni L []) (hs : slot d i = cutNode ni)
    (hL : ∀ b ∈ L, IsData b) : reach d i = L := by
  have hdir := h.isDir_eq hs
  cases h with
  | file t hreg hat =>
    rw [reach_of_not_dir (by rw [hdir, hreg]), hs]
    refine treeBlocks_eq (hat.holds.congr (fun j hj => ?_) fun _ _ => rfl)
      fun b hb => (hL b hb).ne_zero
    exact iBlock_congr (fun o ho => cutNode_of_lt ho) (by omega)
  | dir b hd _ hat =>
    rw [reach_of_dir (by rw [hdir, hd]), dirBlocks_eq, hat.toDirNode.dirPtrs_slot hs]
    have := (hL b (by simp)).ne_zero
    simp [this]

end Made

theorem Consistent.dirBlock {fs : Fs} {p c : Nat} (hc : Consistent fs) (hp : IsDirectory fs.disk p)
    (hb : c ∈ dirBlocks (slot fs.disk p)) :
    IsData c ∧ blockUsed fs.disk c = true ∧ IsDirBlock (fs.disk c) := by
  have hr : c ∈ reach fs.disk p := by rw [reach_of_dir hp.dir]; exact hb
  obtain ⟨h1, h2⟩ := hc.owned.data p hp.isInode hp.used c hr
  exact ⟨h1, h2, (hc.dirOk p hp).blocks c hb⟩

theorem Consistent.parentOk {fs : Fs} (hc : Consistent fs) {p : Nat} (hp : IsInode p)
    (hd : isDir fs.disk p = true) : ParentOk fs.disk p where
  toDirOk := hc.dirOk p (hc.isDirectory hp hd)
  data := fun _ hb => by
    obtain ⟨h1, h2, -⟩ := hc.dirBlock (hc.isDirectory hp hd) hb
    exact ⟨h1, h2⟩

/-! ## One element more -/

/-- The element that `write` adds to the entry list. -/
def newEntry (request : EXT2DriverRequest) (i : Nat) : Entry :=
  ⟨requestName request, i, (requestFileType request).toNat⟩

/-- What `write` does to the blocks `bs` of a directory: the new record goes behind a live
    record with room, or into a new last block. Nothing of the name stands before it. -/
inductive Inserted (request : EXT2DriverRequest) (i : Nat) (d d' : Disk) (bs : List Nat) :
    List Nat → Prop
  | hole {pre post : List Nat} {b : Nat} {xs ys : List Rec} {r : Rec} : bs = pre ++ b :: post →
      blockRecords (d b) = xs ++ r :: ys → r.inode ≠ 0 →
      r.size + getEntryRecordLen request.nameLen ≤ r.recLen →
      (∀ e ∈ blockEntries d pre ++ live (xs ++ [r]), e.name ≠ requestName request) →
      blockRecords (d' b) = xs ++ { r with recLen := r.size } ::
        newRec request i (r.off + r.size) (r.recLen - r.size) :: ys →
      (∀ c ∈ pre ++ post, d' c = d c) → Inserted request i d d' bs bs
  | grow {nb : Nat} : (∀ e ∈ blockEntries d bs, e.name ≠ requestName request) →
      blockRecords (d' nb) = [newRec request i 0 512] → (∀ c ∈ bs, d' c = d c) →
      Inserted request i d d' bs (bs ++ [nb])

section Inserted

variable {request : EXT2DriverRequest} {i : Nat} {d d' : Disk} {bs cs : List Nat}

theorem live_insert {xs ys : List Rec} {r : Rec} (hr : r.inode ≠ 0) (hi : i ≠ 0) (n off len : Nat) :
    live (xs ++ { r with recLen := n } :: newRec request i off len :: ys) =
      live (xs ++ [r]) ++ newEntry request i :: live ys := by
  have hnew : live (newRec request i off len :: ys) = newEntry request i :: live ys :=
    live_cons_of_ne (r := newRec request i off len) hi ys
  rw [live_append, live_recLen, live_cons_of_ne hr, hnew, live_append, live_cons_of_ne hr]
  simp [live]

/-- As a list of entries the directory has one element more. -/
theorem Inserted.entries_eq (h : Inserted request i d d' bs cs) (hi : i ≠ 0) :
    ∃ A B, blockEntries d bs = A ++ B ∧ blockEntries d' cs = A ++ newEntry request i :: B ∧
      ∀ e ∈ A, e.name ≠ requestName request := by
  cases h with
  | @hole pre post b xs ys r hbs hrs hr _ hname hnew hsame =>
    refine ⟨blockEntries d pre ++ live (xs ++ [r]), live ys ++ blockEntries d post, ?_, ?_, hname⟩
    · rw [hbs, blockEntries_append, blockEntries_cons, hrs,
        show xs ++ r :: ys = (xs ++ [r]) ++ ys by simp, live_append]
      simp only [List.append_assoc]
    · rw [hbs, blockEntries_append, blockEntries_cons, hnew, live_insert hr hi,
        blockEntries_congr fun c hc => hsame c (List.mem_append_left _ hc),
        blockEntries_congr fun c hc => hsame c (List.mem_append_right _ hc)]
      simp only [List.append_assoc, List.cons_append]
  | @grow nb hname hnew hsame =>
    have hlast : live [newRec request i 0 512] = [newEntry request i] :=
      live_cons_of_ne (r := newRec request i 0 512) hi []
    refine ⟨blockEntries d bs, [], by simp, ?_, hname⟩
    rw [blockEntries_append, blockEntries_cons, hnew, hlast, blockEntries_congr hsame]
    rfl

/-- The first block stays the first, and the new record may go into it. -/
theorem Inserted.first_block (h : Inserted request i d d' bs cs) {b : Nat} {post : List Nat}
    (hb : bs = b :: post) : (∃ post', cs = b :: post') ∧
      (blockRecords (d' b) = blockRecords (d b) ∨
        ∃ xs r ys, blockRecords (d b) = xs ++ r :: ys ∧ r.inode ≠ 0 ∧
          r.size + getEntryRecordLen request.nameLen ≤ r.recLen ∧
          blockRecords (d' b) = xs ++ { r with recLen := r.size } ::
            newRec request i (r.off + r.size) (r.recLen - r.size) :: ys) := by
  cases h with
  | @hole pre post' b' xs ys r hbs hrs hr hroom _ hnew hsame =>
    refine ⟨⟨post, hb⟩, ?_⟩
    cases pre with
    | cons c pre =>
      obtain ⟨rfl, -⟩ := List.cons.inj (hb.symm.trans hbs)
      exact Or.inl (by rw [hsame b (by simp)])
    | nil =>
      obtain ⟨rfl, -⟩ := List.cons.inj (hb.symm.trans hbs)
      exact Or.inr ⟨xs, r, ys, hrs, hr, hroom, hnew⟩
  | @grow nb _ _ hsame =>
    exact ⟨⟨post ++ [nb], by rw [hb]; rfl⟩, Or.inl (by rw [hsame b (by rw [hb]; simp)])⟩

/-- Record lengths stay multiples of 4. -/
theorem Inserted.aligned (h : Inserted request i d d' bs cs)
    (ha : ∀ b ∈ bs, Aligned (blockRecords (d b))) : ∀ b ∈ cs, Aligned (blockRecords (d' b)) := by
  cases h with
  | @hole pre post b xs ys r hbs hrs _ hroom _ hnew hsame =>
    intro c hc
    by_cases hcb : c = b
    · subst hcb
      have hold := ha c hc
      rw [hrs] at hold
      have hr : 4 ∣ r.recLen := hold r (by simp)
      rw [hnew]
      intro q hq
      simp only [List.mem_append, List.mem_cons] at hq
      rcases hq with hq | rfl | rfl | hq
      · exact hold q (by simp [hq])
      · exact dvd_size r
      · exact Nat.dvd_sub hr (dvd_size r)
      · exact hold q (by simp [hq])
    · have hmem : c ∈ pre ++ post := by
        rw [hbs] at hc
        simp only [List.mem_append, List.mem_cons] at hc ⊢
        tauto
      rw [hsame c hmem]
      exact ha c hc
  | @grow nb _ hnew hsame =>
    intro c hc
    rcases List.mem_append.mp hc with hc | hc
    · rw [hsame c hc]
      exact ha c hc
    · rw [List.mem_singleton.mp hc, hnew]
      intro q hq
      rw [List.mem_singleton.mp hq]
      exact ⟨128, rfl⟩

end Inserted

/-- A `write` that returned 0: inode `i`, in which `ni` was built with the blocks `L`, has an
    entry in directory `p`. -/
structure Created (request : EXT2DriverRequest) (fs fs' : Fs) (p i : Nat) (ni : Mem)
    (L : List Nat) : Prop where
  consistent : Consistent fs'
  isInode : IsInode i
  fresh : inodeUsed fs.disk i = false
  first : firstFreeInode fs.disk = some i
  inodes : ∀ j, IsInode j → inodeUsed fs'.disk j = (inodeUsed fs.disk j || decide (j = i))
  others : ∀ j, IsInode j → j ≠ i → j ≠ p → slot fs'.disk j = slot fs.disk j
  parentMode : iMode (slot fs'.disk p) = iMode (slot fs.disk p)
  newSlot : slot fs'.disk i = cutNode ni ∨ firstHit request fs.disk p = none ∧
    inodeBlockAt i = inodeBlockAt p ∧ ∀ o, slot fs'.disk i o = 0
  made : ∃ d₀, Made request i d₀ fs'.disk ni L []
  parent : Inserted request i fs.disk fs'.disk (dirBlocks (slot fs.disk p))
    (dirBlocks (slot fs'.disk p))
  kept : ∀ c, IsData c → blockUsed fs.disk c = true → c ∉ dirBlocks (slot fs.disk p) →
    fs'.disk c = fs.disk c

section Created

variable {request : EXT2DriverRequest} {fs fs' : Fs} {p i : Nat} {ni : Mem} {L : List Nat}

theorem Created.isDir_other (h : Created request fs fs' p i ni L) {j : Nat} (hj : IsInode j)
    (hne : j ≠ i) : isDir fs'.disk j = isDir fs.disk j := by
  by_cases hp : j = p
  · rw [hp]; exact isDir_congr h.parentMode
  · exact isDir_congr (by rw [h.others j hj hne hp])

/-- The directories afterwards are those from before, and the new inode if it is one. -/
theorem Created.isDirectory_iff (h : Created request fs fs' p i ni L) {j : Nat} (hne : j ≠ i) :
    IsDirectory fs'.disk j ↔ IsDirectory fs.disk j := by
  constructor
  · intro hd
    have hu := hd.used
    rw [h.inodes j hd.isInode] at hu
    exact ⟨hd.isInode, by simpa [hne] using hu,
      by rw [← h.isDir_other hd.isInode hne]; exact hd.dir⟩
  · intro hd
    refine ⟨hd.isInode, ?_, by rw [h.isDir_other hd.isInode hne]; exact hd.dir⟩
    rw [h.inodes j hd.isInode, hd.used]; rfl

theorem Created.ne_zero (h : Created request fs fs' p i ni L) : i ≠ 0 := by
  have := h.isInode.1
  omega

/-- The entry list of the parent has one element more. -/
theorem Created.parentEntries (h : Created request fs fs' p i ni L) :
    ∃ A B, entries fs.disk p = A ++ B ∧ entries fs'.disk p = A ++ newEntry request i :: B ∧
      ∀ e ∈ A, e.name ≠ requestName request := by
  unfold entries
  exact h.parent.entries_eq h.ne_zero

theorem Created.ne_of_used (h : Created request fs fs' p i ni L) {j : Nat}
    (hu : inodeUsed fs.disk j = true) : j ≠ i := by
  rintro rfl
  rw [h.fresh] at hu
  cases hu

/-- The blocks of the other directories are untouched. -/
theorem Created.dirBlock_eq (h : Created request fs fs' p i ni L) (hc : Consistent fs)
    (hp : IsDirectory fs.disk p) {j : Nat} (hj : IsDirectory fs.disk j) (hjp : j ≠ p) {c : Nat}
    (hcb : c ∈ dirBlocks (slot fs.disk j)) : fs'.disk c = fs.disk c := by
  obtain ⟨h1, h2, -⟩ := hc.dirBlock hj hcb
  apply h.kept c h1 h2
  intro hcp
  rw [← reach_of_dir hj.dir] at hcb
  rw [← reach_of_dir hp.dir] at hcp
  exact hc.owned.disjoint j p hj.isInode hp.isInode hj.used hp.used hjp c hcb hcp

theorem Created.otherEntries (h : Created request fs fs' p i ni L) (hc : Consistent fs)
    (hp : IsDirectory fs.disk p) {j : Nat} (hj : IsDirectory fs.disk j) (hjp : j ≠ p) :
    entries fs'.disk j = entries fs.disk j := by
  unfold entries
  rw [h.others j hj.isInode (h.ne_of_used hj.used) hjp]
  exact blockEntries_congr fun c hcb => h.dirBlock_eq hc hp hj hjp hcb

end Created

/-- What the search in a directory stopped at, with what lies around it. -/
theorem firstHit_split {request : EXT2DriverRequest} {d : Disk} {p b : Nat} {r : Rec}
    (h : firstHit request d p = some (b, r)) (hn : r.named request = false) :
    ∃ pre post xs ys, dirBlocks (slot d p) = pre ++ b :: post ∧
      blockRecords (d b) = xs ++ r :: ys ∧ r.inode ≠ 0 ∧
      r.size + getEntryRecordLen request.nameLen ≤ r.recLen ∧
      (∀ q ∈ dirRecords d pre, q.2.named request = false ∧ q.2.roomy request = false) ∧
      ∀ q ∈ xs, q.named request = false ∧ q.roomy request = false := by
  obtain ⟨hr, as, cs, heq, has⟩ := List.find?_eq_some_iff_append.mp h
  obtain ⟨pre, post, xs, ys, hbs, hrs, rfl⟩ := dirRecords_split heq
  have hroom : r.roomy request = true := by
    simp only [hn, Bool.false_or] at hr; exact hr
  refine ⟨pre, post, xs, ys, hbs, hrs, (roomy_iff.mp hroom).1, (roomy_iff.mp hroom).2,
    fun q hq => ?_, fun q hq => ?_⟩
  · have := has q (List.mem_append_left _ hq)
    simpa using this
  · have := has (b, q) (List.mem_append_right _ (List.mem_map.mpr ⟨q, hq, rfl⟩))
    simpa using this

/-- A record that is not of the requested name gives no entry of that name. -/
theorem live_name_ne {request : EXT2DriverRequest} {rs : List Rec}
    (h : ∀ r ∈ rs, r.named request = false) : ∀ e ∈ live rs, e.name ≠ requestName request := by
  intro e he
  obtain ⟨r, hr, h0, rfl⟩ := mem_live.mp he
  intro hc
  have := h r hr
  rw [named_iff.mpr ⟨h0, hc⟩] at this
  cases this

theorem blockEntries_name_ne {request : EXT2DriverRequest} {d : Disk} {bs : List Nat}
    (h : ∀ q ∈ dirRecords d bs, q.2.named request = false) :
    ∀ e ∈ blockEntries d bs, e.name ≠ requestName request := by
  intro e he
  obtain ⟨b, hb, r, hr, h0, rfl⟩ := mem_blockEntries.mp he
  intro hc
  have := h (b, r) (mem_dirRecords.mpr ⟨hb, hr⟩)
  rw [named_iff.mpr ⟨h0, hc⟩] at this
  cases this

theorem entries_name_ne {request : EXT2DriverRequest} {d : Disk} {p : Nat}
    (h : ∀ q ∈ dirRecords d (dirBlocks (slot d p)), q.2.named request = false) :
    ∀ e ∈ entries d p, e.name ≠ requestName request := by
  unfold entries
  exact blockEntries_name_ne h

/-! ## The hole path -/

/-- What is known when the pass of `write` stopped at the record `r` of block `b`, which has
    room: the blocks and the records around it. -/
structure Stop (request : EXT2DriverRequest) (d : Disk) (p b : Nat) (r : Rec)
    (pre post : List Nat) (xs ys : List Rec) : Prop where
  blocks : dirBlocks (slot d p) = pre ++ b :: post
  recs : blockRecords (d b) = xs ++ r :: ys
  isLive : r.inode ≠ 0
  room : r.size + getEntryRecordLen request.nameLen ≤ r.recLen
  unnamed : r.named request = false
  before : ∀ q ∈ dirRecords d pre, q.2.named request = false ∧ q.2.roomy request = false
  beforeHere : ∀ q ∈ xs, q.named request = false ∧ q.roomy request = false

theorem Stop.of_firstHit {request : EXT2DriverRequest} {d : Disk} {p b : Nat} {r : Rec}
    (h : firstHit request d p = some (b, r)) (hn : r.named request = false) :
    ∃ pre post xs ys, Stop request d p b r pre post xs ys := by
  obtain ⟨pre, post, xs, ys, h1, h2, h3, h4, h5, h6⟩ := firstHit_split h hn
  exact ⟨pre, post, xs, ys, h1, h2, h3, h4, hn, h5, h6⟩

section Hole

variable {request : EXT2DriverRequest} {fs fs' : Fs} {p b i : Nat} {r : Rec} {pre post : List Nat}
  {xs ys : List Rec} {ni : Mem} {L X : List Nat}

theorem Stop.mem (h : Stop request fs.disk p b r pre post xs ys) :
    b ∈ dirBlocks (slot fs.disk p) := by rw [h.blocks]; simp

/-- The block of the parent after the insertion. -/
theorem Hole.records (h : Hole request b r.off fs fs' i ni L X)
    (hs : Stop request fs.disk p b r pre post xs ys) (hb : IsDirBlock (fs.disk b)) :
    Tiles (fs'.disk b).mem 0 (xs ++ { r with recLen := r.size } ::
      newRec request i (r.off + r.size) (r.recLen - r.size) :: ys) 512 := by
  have ht := hb.tiles_read
  rw [hs.recs] at ht
  have hi : i < 4294967296 := by have := h.took.isInode.2; omega
  rw [h.block]
  exact (insertEntry_tiles ht hs.room hi).congr fun o _ ho => mem_blockOf ho

theorem Hole.ne_parent {off : Nat} (h : Hole request b off fs fs' i ni L X)
    (hp : IsDirectory fs.disk p) :
    i ≠ p := by
  rintro rfl
  have := h.took.freshInode
  rw [hp.used] at this
  cases this

/-- Data blocks that were in use are as before, but for the parent's block. -/
theorem Hole.data_eq {off : Nat} (h : Hole request b off fs fs' i ni L []) {c : Nat} (hc : IsData c)
    (hu : blockUsed fs.disk c = true) (hne : c ≠ b) : fs'.disk c = fs.disk c :=
  h.took.frame c hc (h.took.not_mem_of_used hu) (by simpa using hne)

theorem Hole.slot_eq {off : Nat} (h : Hole request b off fs fs' i ni L X) {j : Nat} (hj : IsInode j)
    (hne : j ≠ i) : slot fs'.disk j = slot fs.disk j :=
  h.slots.slot_eq h.took.isInode hj hne

/-- What the inodes reach that were there before. -/
theorem Hole.reach_eq {off : Nat} (h : Hole request b off fs fs' i ni L [])
    (ho : Ownership fs.disk) (hp : IsDirectory fs.disk p) (hb : b ∈ dirBlocks (slot fs.disk p))
    {j : Nat} (hj : IsInode j) (hu : inodeUsed fs.disk j = true) :
    reach fs'.disk j = reach fs.disk j := by
  have hne : j ≠ i := fun hji => by
    have := h.took.freshInode
    rw [← hji, hu] at this; cases this
  have hslot := h.slots.slot_eq h.took.isInode hj hne
  cases hd : isDir fs.disk j with
  | true =>
    have hd' : isDir fs'.disk j = true := (isDir_congr (by rw [hslot])).trans hd
    rw [reach_of_dir hd, reach_of_dir hd', hslot]
  | false =>
    apply reach_congr hslot
    intro c hcr
    obtain ⟨h1, h2⟩ := ho.data j hj hu c hcr
    apply h.took.frame c h1 (h.took.not_mem_of_used h2)
    rw [List.mem_singleton]
    rintro rfl
    have hjp : j ≠ p := by
      rintro rfl
      rw [hp.dir] at hd; cases hd
    apply ho.disjoint j p hj hp.isInode hu hp.used hjp c hcr
    rw [reach_of_dir hp.dir]
    exact hb

/-- Ownership survives the hole path, when no fallback block was taken. -/
theorem Hole.owned {off : Nat} (h : Hole request b off fs fs' i ni L []) (ho : Ownership fs.disk)
    (hp : IsDirectory fs.disk p) (hb : b ∈ dirBlocks (slot fs.disk p)) : Ownership fs'.disk := by
  refine ho.grow (L := L) (fun j => if j = i then L else [])
    (fun c hcL => ⟨h.took.data c hcL, h.took.fresh c hcL⟩) h.took.blocks (fun j => ?_)
    (fun j k hjk c hcj => ?_) fun j hj hu => ?_
  · split
    · exact ⟨h.took.nodup, fun c hc => hc⟩
    · exact ⟨List.nodup_nil, by simp⟩
  · by_cases hji : j = i
    · rw [if_neg fun hki => hjk (hji.trans hki.symm)]; simp
    · rw [if_neg hji] at hcj; cases hcj
  · by_cases hji : j = i
    · right
      rw [if_pos hji, hji]
      exact h.made.reach_eq h.slotSelf h.took.data
    · left
      rw [h.took.inodes j hj] at hu
      have hu' : inodeUsed fs.disk j = true := by simpa [hji] using hu
      rw [if_neg hji, List.append_nil]
      exact ⟨hu', h.reach_eq ho hp hb hj hu'⟩

theorem Made.dirOk {d₀ d : Disk} (h : Made request i d₀ d ni L []) (hs : slot d i = cutNode ni)
    (hL : ∀ b ∈ L, IsData b) (hd : isDir d i = true) :
    DirOk d i ∧ ∀ b ∈ dirPtrs (slot d i), b ≠ 0 := by
  have hdir := h.isDir_eq hs
  cases h with
  | file t hreg => rw [hd, hreg] at hdir; cases hdir
  | dir b _ _ hat =>
    have hptr := hat.toDirNode.dirPtrs_slot hs
    refine ⟨⟨?_, fun c hc => ?_⟩, fun c hc => ?_⟩
    · rw [iBlocks_congr (cutNode_apply hs), hat.count]; omega
    · rw [dirBlocks_eq, hptr] at hc
      obtain rfl : c = b := by simpa using List.mem_of_mem_filter hc
      exact ⟨_, hat.table⟩
    · rw [hptr] at hc
      rw [List.mem_singleton.mp hc]
      exact (hL b (by simp)).ne_zero

/-- The blocks of the parent after the insertion. -/
theorem Hole.inserted (h : Hole request b r.off fs fs' i ni L []) (hp : IsDirectory fs.disk p)
    (hok : ParentOk fs.disk p) (hnd : (dirBlocks (slot fs.disk p)).Nodup)
    (hs : Stop request fs.disk p b r pre post xs ys) :
    Inserted request i fs.disk fs'.disk (dirBlocks (slot fs.disk p))
      (dirBlocks (slot fs'.disk p)) := by
  rw [h.slot_eq hp.isInode (h.ne_parent hp).symm]
  rw [hs.blocks] at hnd
  have hsame : ∀ c ∈ pre ++ post, fs'.disk c = fs.disk c := by
    intro c hcm
    have hcb : c ∈ dirBlocks (slot fs.disk p) := by
      rw [hs.blocks]
      simp only [List.mem_append, List.mem_cons] at hcm ⊢
      tauto
    obtain ⟨h1, h2⟩ := hok.data c hcb
    apply h.data_eq h1 h2
    rintro rfl
    rcases List.mem_append.mp hcm with hcm | hcm
    · exact (List.nodup_append.mp hnd).2.2 c hcm c (by simp) rfl
    · exact (List.nodup_cons.mp (List.nodup_append.mp hnd).2.1).1 hcm
  refine .hole hs.blocks hs.recs hs.isLive hs.room (fun e he => ?_)
    (h.records hs (hok.blocks b hs.mem)).blockRecords_eq hsame
  rcases List.mem_append.mp he with he | he
  · exact blockEntries_name_ne (fun q hq => (hs.before q hq).1) e he
  · refine live_name_ne (fun q hq => ?_) e he
    rcases List.mem_append.mp hq with hq | hq
    · exact (hs.beforeHere q hq).1
    · rw [List.mem_singleton.mp hq]; exact hs.unnamed

/-- The hole path adds one entry and nothing else. -/
theorem Hole.created (h : Hole request b r.off fs fs' i ni L []) (hc : Consistent fs)
    (hp : IsDirectory fs.disk p) (hs : Stop request fs.disk p b r pre post xs ys) :
    Created request fs fs' p i ni L := by
  obtain ⟨hb, hub, hdb⟩ := hc.dirBlock hp hs.mem
  have hip := h.ne_parent hp
  have hrecs := h.records hs hdb
  have hi0 : i ≠ 0 := by have := h.took.isInode.1; omega
  have hmode : ∀ j, IsInode j → j ≠ i → isDir fs'.disk j = isDir fs.disk j := fun j hj hne =>
    isDir_congr (by rw [h.slot_eq hj hne])
  have husedOld : ∀ j, IsInode j → j ≠ i → inodeUsed fs'.disk j = inodeUsed fs.disk j := by
    intro j hj hne
    rw [h.took.inodes j hj]; simp [hne]
  have hdirs : ∀ j, IsDirectory fs'.disk j → j ≠ i → IsDirectory fs.disk j := fun j hj hne =>
    ⟨hj.isInode, by rw [← husedOld j hj.isInode hne]; exact hj.used,
      by rw [← hmode j hj.isInode hne]; exact hj.dir⟩
  have hcons : Consistent fs' := by
    refine ⟨h.took.ready hc.ready, h.owned hc.owned hp hs.mem, fun j hj hu => ?_,
      fun j hj => ?_, fun j hj => ?_⟩
    · have hji : j ≠ i := by
        rintro rfl
        rw [h.took.inodes j hj] at hu
        simp at hu
      rw [husedOld j hj hji] at hu
      rw [h.slot_eq hj hji]
      exact hc.freeSlot j hj hu
    · by_cases hji : j = i
      · subst hji
        exact (h.made.dirOk h.slotSelf h.took.data hj.dir).1
      · have hj' := hdirs j hj hji
        have hok := hc.dirOk j hj'
        refine ⟨by rw [h.slot_eq hj.isInode hji]; exact hok.size, fun c hcb => ?_⟩
        rw [h.slot_eq hj.isInode hji] at hcb
        by_cases hcb' : c = b
        · exact ⟨_, hcb' ▸ hrecs⟩
        · obtain ⟨h1, h2, h3⟩ := hc.dirBlock hj' hcb
          rw [h.data_eq h1 h2 hcb']; exact h3
    · by_cases hji : j = i
      · subst hji
        exact (h.made.dirOk h.slotSelf h.took.data hj.dir).2
      · rw [h.slot_eq hj.isInode hji]
        exact hc.dirFull j (hdirs j hj hji)
  refine ⟨hcons, h.took.isInode, h.took.freshInode, h.took.firstFreeInode, h.took.inodes,
    fun j hj hji _ => h.slot_eq hj hji, by rw [h.slot_eq hp.isInode hip.symm], Or.inl h.slotSelf,
    ⟨_, h.made⟩, h.inserted hp (hc.parentOk hp.isInode hp.dir) ?_ hs,
    fun c h1 h2 h3 => h.data_eq h1 h2 fun hcb => h3 (hcb ▸ hs.mem)⟩
  rw [← reach_of_dir hp.dir]
  exact hc.owned.nodup p hp.isInode hp.used

end Hole

/-! ## The growth path -/

section Grow

variable {request : EXT2DriverRequest} {fs fs₀ fs' : Fs} {p nb i : Nat} {ni : Mem} {L X : List Nat}

theorem slot_of_block {d : Disk} {j : Nat} {buf : Mem} (h : d (inodeBlockAt j) = blockOf buf) :
    ∀ o < 70, slot d j o = buf (slotOffset j + o) := by
  intro o ho
  have := slotOffset_le j
  unfold slot
  rw [if_pos ho, h, mem_blockOf (by omega)]

theorem slot_readBlocks (fs : Fs) (j : Nat) :
    ∀ o < 70, view (fs.readBlocks (inodeBlockAt j)) (slotOffset j) o = slot fs.disk j o := by
  intro o ho
  have := slotOffset_le j
  unfold slot
  rw [if_pos ho, view_apply, readBlocks_of_lt _ _ (by omega)]

theorem iBlocks_parent (fs : Fs) (p : Nat) :
    iBlocks (view (fs.readBlocks (inodeBlockAt p)) (slotOffset p)) = iBlocks (slot fs.disk p) :=
  iBlocks_congr (slot_readBlocks fs p)

/-- The other slots of the parent's table block are written back as they were. -/
theorem Grow.slot_same_table (h : Grow request p nb fs fs₀ fs' i ni L X) (hp : IsInode p)
    (hn : iBlocks (slot fs.disk p) < 15) {j : Nat} (hj : IsInode j) (hjp : j ≠ p)
    (ht : inodeBlockAt j = inodeBlockAt p) : slot fs'.disk j = slot fs.disk j := by
  have hoff : slotOffset j ≠ slotOffset p := fun hc => hjp (inode_ext hj hp ht hc)
  have hle := slotOffset_le j
  funext o
  by_cases ho : o < 70
  · have hfar : slotOffset j + 70 ≤ slotOffset p ∨ slotOffset p + 70 ≤ slotOffset j := by
      unfold slotOffset at hoff ⊢; omega
    have hj' : fs'.disk (inodeBlockAt j) = blockOf (appendBlock (fs.readBlocks (inodeBlockAt p))
        (slotOffset p) nb) := by rw [ht]; exact h.parentTable
    rw [slot_of_block hj' o ho, appendBlock_of_not_mem (by omega)
      (by rw [iBlocks_parent]; omega), readBlocks_of_lt _ _ (by omega)]
    unfold slot
    rw [if_pos ho, ht]
  · unfold slot
    rw [if_neg ho, if_neg ho]

theorem Grow.slot_other (h : Grow request p nb fs fs₀ fs' i ni L X) (hp : IsInode p)
    (hn : iBlocks (slot fs.disk p) < 15) {j : Nat} (hj : IsInode j) (hjp : j ≠ p) (hji : j ≠ i) :
    slot fs'.disk j = slot fs.disk j := by
  by_cases ht : inodeBlockAt j = inodeBlockAt p
  · exact h.slot_same_table hp hn hj hjp ht
  · rw [h.otherSlots j hj ht, if_neg hji]

/-- The new inode is stored, unless it lies in the parent's table block. -/
theorem Grow.slot_new (h : Grow request p nb fs fs₀ fs' i ni L X) (hp : IsInode p)
    (hn : iBlocks (slot fs.disk p) < 15) (hip : i ≠ p) : slot fs'.disk i =
      if inodeBlockAt i = inodeBlockAt p then slot fs.disk i else cutNode ni := by
  by_cases ht : inodeBlockAt i = inodeBlockAt p
  · rw [if_pos ht]
    exact h.slot_same_table hp hn h.took.isInode hip ht
  · rw [if_neg ht, h.otherSlots i h.took.isInode ht, if_pos rfl]

theorem Grow.parent_fields (h : Grow request p nb fs fs₀ fs' i ni L X)
    (hn : iBlocks (slot fs.disk p) ≤ 15) (hnb : nb < 2048) :
    iMode (slot fs'.disk p) = iMode (slot fs.disk p) ∧
      iBlocks (slot fs'.disk p) = iBlocks (slot fs.disk p) + 1 ∧
      ∀ j < 15, iBlock (slot fs'.disk p) j =
        if j = iBlocks (slot fs.disk p) then nb else iBlock (slot fs.disk p) j := by
  have hview : ∀ o < 70, slot fs'.disk p o = view (appendBlock (fs.readBlocks (inodeBlockAt p))
      (slotOffset p) nb) (slotOffset p) o := slot_of_block h.parentTable
  obtain ⟨f1, f2, f3⟩ := appendBlock_fields (fs.readBlocks (inodeBlockAt p))
    (slotOffset p) (show nb < 4294967296 by omega) (by rw [iBlocks_parent]; omega)
  rw [iBlocks_parent] at f2 f3
  refine ⟨?_, ?_, fun j hj => ?_⟩
  · rw [iMode_congr hview, f1, iMode_congr (slot_readBlocks fs p)]
  · rw [iBlocks_congr hview, f2]
  · rw [iBlock_congr hview hj, f3, iBlock_congr (slot_readBlocks fs p) hj]

theorem Grow.ne_parent (h : Grow request p nb fs fs₀ fs' i ni L X) (hp : IsDirectory fs.disk p) :
    i ≠ p := by
  rintro rfl
  have := h.took.freshInode
  rw [hp.used] at this
  cases this

theorem Grow.data_eq (h : Grow request p nb fs fs₀ fs' i ni L []) {c : Nat} (hc : IsData c)
    (hu : blockUsed fs.disk c = true) : fs'.disk c = fs.disk c :=
  h.took.frame c hc (h.took.not_mem_of_used hu) (by simp)

/-- The parent has one block pointer more. -/
theorem Grow.dirPtrs_eq (h : Grow request p nb fs fs₀ fs' i ni L X)
    (hn : iBlocks (slot fs.disk p) < 15) (hnb : nb < 2048) :
    dirPtrs (slot fs'.disk p) = dirPtrs (slot fs.disk p) ++ [nb] := by
  obtain ⟨-, f2, f3⟩ := h.parent_fields (by omega) hnb
  unfold dirPtrs
  rw [f2, List.range_succ, List.map_append, List.map_singleton, f3 _ hn, if_pos rfl]
  congr 1
  apply List.map_congr_left
  intro j hj
  have := List.mem_range.mp hj
  rw [f3 j (by omega), if_neg (by omega)]

theorem Grow.blocks_eq (h : Grow request p nb fs fs₀ fs' i ni L X)
    (hn : iBlocks (slot fs.disk p) < 15) (hnb : IsData nb) :
    dirBlocks (slot fs'.disk p) = dirBlocks (slot fs.disk p) ++ [nb] := by
  have := hnb.ne_zero
  rw [dirBlocks_eq, dirBlocks_eq, h.dirPtrs_eq hn hnb.1, List.filter_append]
  simp [this]

/-- Ownership survives the growth path, when no fallback block was taken. -/
theorem Grow.owned (h : Grow request p nb fs fs₀ fs' i ni L []) (ho : Ownership fs.disk)
    (hz : FreeSlots fs.disk) (hp : IsDirectory fs.disk p) (hn : iBlocks (slot fs.disk p) < 15) :
    Ownership fs'.disk := by
  have hnb : IsData nb := h.took.data nb (by simp)
  have hpm := (h.parent_fields (by omega) hnb.1).1
  have hndL := List.nodup_cons.mp h.took.nodup
  have hreach : reach fs'.disk i = L ∨ reach fs'.disk i = [] := by
    have hs := h.slot_new hp.isInode hn (h.ne_parent hp)
    by_cases ht : inodeBlockAt i = inodeBlockAt p
    · rw [if_pos ht] at hs
      exact Or.inr (reach_zero fun o => by rw [hs]; exact hz i h.took.isInode h.took.freshInode o)
    · rw [if_neg ht] at hs
      exact Or.inl (h.made.reach_eq hs fun c hcL => h.took.data c (List.mem_cons_of_mem _ hcL))
  have hnbi : nb ∉ reach fs'.disk i := by
    rcases hreach with he | he
    · rw [he]; exact hndL.1
    · rw [he]; simp
  refine ho.grow (L := nb :: L)
    (fun j => if j = i then reach fs'.disk i else if j = p then [nb] else [])
    (fun c hcL => ⟨h.took.data c hcL, h.took.fresh c hcL⟩) h.took.blocks (fun j => ?_)
    (fun j k hjk c hcj => ?_) fun j hj hu => ?_
  · by_cases hji : j = i
    · rw [if_pos hji]
      rcases hreach with he | he
      · rw [he]; exact ⟨hndL.2, fun c hcL => List.mem_cons_of_mem _ hcL⟩
      · rw [he]; exact ⟨List.nodup_nil, by simp⟩
    · rw [if_neg hji]
      by_cases hjp : j = p
      · rw [if_pos hjp]; exact ⟨List.nodup_singleton _, by simp⟩
      · rw [if_neg hjp]; exact ⟨List.nodup_nil, by simp⟩
  · by_cases hji : j = i
    · rw [if_pos hji] at hcj
      rw [if_neg fun hki => hjk (hji.trans hki.symm)]
      by_cases hkp : k = p
      · rw [if_pos hkp, List.mem_singleton]
        rintro rfl
        exact hnbi hcj
      · rw [if_neg hkp]; simp
    · rw [if_neg hji] at hcj
      by_cases hjp : j = p
      · rw [if_pos hjp, List.mem_singleton] at hcj
        subst hcj
        by_cases hki : k = i
        · rw [if_pos hki]; exact hnbi
        · rw [if_neg hki, if_neg fun hkp => hjk (hjp.trans hkp.symm)]; simp
      · rw [if_neg hjp] at hcj; cases hcj
  · by_cases hji : j = i
    · right
      rw [if_pos hji, hji]
    · left
      rw [h.took.inodes j hj] at hu
      have hu' : inodeUsed fs.disk j = true := by simpa [hji] using hu
      rw [if_neg hji]
      refine ⟨hu', ?_⟩
      by_cases hjp : j = p
      · rw [if_pos hjp, hjp, reach_of_dir hp.dir,
          reach_of_dir ((isDir_congr hpm).trans hp.dir), h.blocks_eq hn hnb]
      · rw [if_neg hjp, List.append_nil]
        apply reach_congr (h.slot_other hp.isInode hn hj hjp hji)
        intro c hcr
        obtain ⟨h1, h2⟩ := ho.data j hj hu' c hcr
        exact h.data_eq h1 h2

/-- The new inode is stored, or it lies in the parent's table block and stays zero. -/
theorem Grow.newSlot (h : Grow request p nb fs fs₀ fs' i ni L X) (hc : Consistent fs)
    (hp : IsDirectory fs.disk p) (hn : iBlocks (slot fs.disk p) < 15) :
    slot fs'.disk i = cutNode ni ∨
      inodeBlockAt i = inodeBlockAt p ∧ ∀ o, slot fs'.disk i o = 0 := by
  rw [h.slot_new hp.isInode hn (h.ne_parent hp)]
  split
  · rename_i ht
    exact Or.inr ⟨ht, hc.freeSlot i h.took.isInode h.took.freshInode⟩
  · exact Or.inl rfl

theorem Grow.inodeUsed_old (h : Grow request p nb fs fs₀ fs' i ni L X) {j : Nat} (hj : IsInode j)
    (hne : j ≠ i) : inodeUsed fs'.disk j = inodeUsed fs.disk j := by
  rw [h.took.inodes j hj]
  simp [hne]

/-- A directory is the new one, or was there before. -/
theorem Grow.isDirectory_old (h : Grow request p nb fs fs₀ fs' i ni L X)
    (hp : IsDirectory fs.disk p) (hn : iBlocks (slot fs.disk p) < 15) {j : Nat}
    (hj : IsDirectory fs'.disk j) (hne : j ≠ i) : IsDirectory fs.disk j := by
  have hnb : IsData nb := h.took.data nb (by simp)
  refine ⟨hj.isInode, by rw [← h.inodeUsed_old hj.isInode hne]; exact hj.used, ?_⟩
  rw [← hj.dir]
  by_cases hjp : j = p
  · rw [hjp]
    exact (isDir_congr (h.parent_fields (by omega) hnb.1).1).symm
  · exact isDir_congr (by rw [h.slot_other hp.isInode hn hj.isInode hjp hne])

theorem Grow.dirNew (h : Grow request p nb fs fs₀ fs' i ni L []) (hc : Consistent fs)
    (hp : IsDirectory fs.disk p) (hn : iBlocks (slot fs.disk p) < 15)
    (hd : isDir fs'.disk i = true) :
    DirOk fs'.disk i ∧ ∀ c ∈ dirPtrs (slot fs'.disk i), c ≠ 0 := by
  rcases h.newSlot hc hp hn with hs | ⟨-, hs⟩
  · exact h.made.dirOk hs (fun c hcL => h.took.data c (List.mem_cons_of_mem _ hcL)) hd
  · rw [isDir_zero hs] at hd; cases hd

/-- The parent has a block more, with the new entry in it. -/
theorem Grow.dirParent (h : Grow request p nb fs fs₀ fs' i ni L []) (hc : Consistent fs)
    (hp : IsDirectory fs.disk p) (hn : iBlocks (slot fs.disk p) < 15) :
    DirOk fs'.disk p ∧ ∀ c ∈ dirPtrs (slot fs'.disk p), c ≠ 0 := by
  have hnb : IsData nb := h.took.data nb (by simp)
  refine ⟨⟨?_, fun c hcb => ?_⟩, fun c hcb => ?_⟩
  · rw [(h.parent_fields (by omega) hnb.1).2.1]
    omega
  · rw [h.blocks_eq hn hnb] at hcb
    rcases List.mem_append.mp hcb with hcb | hcb
    · obtain ⟨h1, h2, h3⟩ := hc.dirBlock hp hcb
      rw [h.data_eq h1 h2]; exact h3
    · rw [List.mem_singleton.mp hcb]
      exact ⟨_, h.block⟩
  · rw [h.dirPtrs_eq hn hnb.1] at hcb
    rcases List.mem_append.mp hcb with hcb | hcb
    · exact hc.dirFull p hp c hcb
    · rw [List.mem_singleton.mp hcb]; exact hnb.ne_zero

theorem Grow.dirOther (h : Grow request p nb fs fs₀ fs' i ni L []) (hc : Consistent fs)
    (hp : IsDirectory fs.disk p) (hn : iBlocks (slot fs.disk p) < 15) {j : Nat}
    (hj : IsDirectory fs.disk j) (hjp : j ≠ p) (hji : j ≠ i) :
    DirOk fs'.disk j ∧ ∀ c ∈ dirPtrs (slot fs'.disk j), c ≠ 0 := by
  have hslot := h.slot_other hp.isInode hn hj.isInode hjp hji
  refine ⟨⟨by rw [hslot]; exact (hc.dirOk j hj).size, fun c hcb => ?_⟩, ?_⟩
  · rw [hslot] at hcb
    obtain ⟨h1, h2, h3⟩ := hc.dirBlock hj hcb
    rw [h.data_eq h1 h2]; exact h3
  · rw [hslot]
    exact hc.dirFull j hj

theorem Grow.consistent (h : Grow request p nb fs fs₀ fs' i ni L []) (hc : Consistent fs)
    (hp : IsDirectory fs.disk p) (hn : iBlocks (slot fs.disk p) < 15) : Consistent fs' := by
  have hdir : ∀ j, IsDirectory fs'.disk j →
      DirOk fs'.disk j ∧ ∀ c ∈ dirPtrs (slot fs'.disk j), c ≠ 0 := by
    intro j hj
    by_cases hji : j = i
    · subst hji
      exact h.dirNew hc hp hn hj.dir
    · by_cases hjp : j = p
      · rw [hjp]
        exact h.dirParent hc hp hn
      · exact h.dirOther hc hp hn (h.isDirectory_old hp hn hj hji) hjp hji
  refine ⟨h.took.ready hc.ready, h.owned hc.owned hc.freeSlot hp hn, fun j hj hu => ?_,
    fun j hj => (hdir j hj).1, fun j hj => (hdir j hj).2⟩
  have hji : j ≠ i := by
    rintro rfl
    rw [h.took.inodes j hj] at hu
    simp at hu
  rw [h.inodeUsed_old hj hji] at hu
  have hjp : j ≠ p := by
    rintro rfl
    rw [hp.used] at hu
    cases hu
  rw [h.slot_other hp.isInode hn hj hjp hji]
  exact hc.freeSlot j hj hu

/-- The growth path adds one entry and nothing else. -/
theorem Grow.created (h : Grow request p nb fs fs₀ fs' i ni L []) (hc : Consistent fs)
    (hp : IsDirectory fs.disk p) (hn : iBlocks (slot fs.disk p) < 15)
    (hmiss : firstHit request fs.disk p = none) : Created request fs fs' p i ni L := by
  have hnb : IsData nb := h.took.data nb (by simp)
  refine ⟨h.consistent hc hp hn, h.took.isInode, h.took.freshInode, h.took.firstFreeInode,
    h.took.inodes, fun j hj hji hjp => h.slot_other hp.isInode hn hj hjp hji,
    (h.parent_fields (by omega) hnb.1).1, (h.newSlot hc hp hn).imp_right fun hz => ⟨hmiss, hz⟩,
    ⟨_, h.made⟩, ?_, fun c h1 h2 _ => h.data_eq h1 h2⟩
  rw [h.blocks_eq hn hnb]
  refine .grow (blockEntries_name_ne fun q hq => ?_) h.block.blockRecords_eq fun c hcb => ?_
  · have := List.find?_eq_none.mp hmiss q hq
    simp only [Bool.or_eq_true, not_or, Bool.not_eq_true] at this
    exact this.1
  · obtain ⟨h1, h2, -⟩ := hc.dirBlock hp hcb
    exact h.data_eq h1 h2

end Grow

/-! ## The outcome of `write` -/

/-- Nothing that can be reached has changed. -/
structure Quiet (fs fs' : Fs) : Prop where
  consistent : Consistent fs'
  inodes : ∀ j, IsInode j → inodeUsed fs'.disk j = inodeUsed fs.disk j
  slots : ∀ j, slot fs'.disk j = slot fs.disk j
  kept : ∀ c, IsData c → blockUsed fs.disk c = true → fs'.disk c = fs.disk c

theorem Quiet.refl {fs : Fs} (hc : Consistent fs) : Quiet fs fs :=
  ⟨hc, fun _ _ => rfl, fun _ => rfl, fun _ _ _ => rfl⟩

section Quiet

variable {fs fs' : Fs} {p : Nat}

theorem Quiet.isDirectory_iff (h : Quiet fs fs') :
    IsDirectory fs'.disk p ↔ IsDirectory fs.disk p := by
  have hd : isDir fs'.disk p = isDir fs.disk p := isDir_congr (by rw [h.slots p])
  constructor
  · exact fun hp => ⟨hp.isInode, by rw [← h.inodes p hp.isInode]; exact hp.used, hd ▸ hp.dir⟩
  · exact fun hp => ⟨hp.isInode, by rw [h.inodes p hp.isInode]; exact hp.used, hd.trans hp.dir⟩

theorem Quiet.dirBlock_eq (h : Quiet fs fs') (hc : Consistent fs) (hp : IsDirectory fs.disk p)
    {c : Nat} (hcb : c ∈ dirBlocks (slot fs.disk p)) : fs'.disk c = fs.disk c := by
  obtain ⟨h1, h2, -⟩ := hc.dirBlock hp hcb
  exact h.kept c h1 h2

theorem Quiet.entries_eq (h : Quiet fs fs') (hc : Consistent fs) (hp : IsDirectory fs.disk p) :
    entries fs'.disk p = entries fs.disk p := by
  unfold entries
  rw [h.slots p]
  exact blockEntries_congr fun c hcb => h.dirBlock_eq hc hp hcb

end Quiet

/-- Taking blocks that nothing points to. -/
theorem Grab.quiet {fs fs' : Fs} {L : List Nat} (h : Grab fs fs' L) (hc : Consistent fs) :
    Quiet fs fs' := by
  have hkeep : ∀ c, IsData c → blockUsed fs.disk c = true → fs'.disk c = fs.disk c :=
    fun c h1 h2 => h.data_eq h1 (h.not_mem_of_used h2)
  have hdir : ∀ j, IsDirectory fs'.disk j → IsDirectory fs.disk j := fun j hj =>
    ⟨hj.isInode, by rw [← h.inodeUsed_eq hj.isInode]; exact hj.used,
      by rw [← show isDir fs'.disk j = isDir fs.disk j from isDir_congr (by rw [h.slot_eq])]
         exact hj.dir⟩
  refine ⟨⟨h.ready hc.ready, hc.owned.shrink fun j hj hu => ?_, fun j hj hu => ?_,
    fun j hj => ?_, fun j hj => ?_⟩, fun j hj => h.inodeUsed_eq hj, h.slot_eq, hkeep⟩
  · rw [h.inodeUsed_eq hj] at hu
    refine ⟨hu, reach_congr (h.slot_eq j) fun c hcr => ?_, fun c hcr => ?_⟩
    · obtain ⟨h1, h2⟩ := hc.owned.data j hj hu c hcr
      exact hkeep c h1 h2
    · obtain ⟨h1, h2⟩ := hc.owned.data j hj hu c hcr
      exact h.used_mono h1.1 h2
  · rw [h.slot_eq]
    exact hc.freeSlot j hj (by rw [← h.inodeUsed_eq hj]; exact hu)
  · refine ⟨by rw [h.slot_eq]; exact (hc.dirOk j (hdir j hj)).size, fun c hcb => ?_⟩
    rw [h.slot_eq] at hcb
    obtain ⟨h1, h2, h3⟩ := hc.dirBlock (hdir j hj) hcb
    rw [hkeep c h1 h2]; exact h3
  · rw [h.slot_eq]
    exact hc.dirFull j (hdir j hj)

/-- `write` gets as far as creating an inode: the parent has room before the name, or neither
    the name nor room but a free block to grow by, and there is a free inode. -/
def Creates (request : EXT2DriverRequest) (d : Disk) : Prop :=
  request.parentInode.toNat ≠ 0 ∧ isDir d request.parentInode.toNat = true ∧
    (∃ i, firstFreeInode d = some i) ∧
    ((∃ q, firstHit request d request.parentInode.toNat = some q ∧ q.2.named request = false) ∨
      firstHit request d request.parentInode.toNat = none ∧
        ∃ nb, growthBlock request d = some nb)

theorem Creates.unnamed {request : EXT2DriverRequest} {d : Disk} (h : Creates request d)
    {q : Nat × Rec} (hq : firstHit request d request.parentInode.toNat = some q) :
    q.2.named request = false := by
  rcases h.2.2.2 with ⟨q', hq', hn⟩ | ⟨hnone, -⟩
  · rw [hq, Option.some.injEq] at hq'
    rw [hq']; exact hn
  · rw [hq] at hnone; cases hnone

/-- The parent has a free pointer when it has to grow. -/
def CanGrow (request : EXT2DriverRequest) (d : Disk) : Prop :=
  firstHit request d request.parentInode.toNat = none →
    iBlocks (slot d request.parentInode.toNat) < 15

/-- A new directory finds a free block. -/
def DirFits (request : EXT2DriverRequest) (d : Disk) : Prop :=
  isDirRequest request = true → ∀ i, firstFreeInode d = some i →
    (roomFrom request d (inodeToBgd i)).Nonempty

/-- `write` on a consistent state changes nothing that can be reached, or adds one entry. -/
theorem write_outcome {request : EXT2DriverRequest} {fs : Fs} (hc : Consistent fs)
    (hp : IsInode request.parentInode.toNat)
    (hok : Creates request fs.disk → CanGrow request fs.disk ∧ DirFits request fs.disk) :
    ((write request fs).1 ≠ 0 ∧ Quiet fs (write request fs).2) ∨
    ((write request fs).1 = 0 ∧ IsDirectory fs.disk request.parentInode.toNat ∧
      Creates request fs.disk ∧
      ∃ i ni L, Created request fs (write request fs).2 request.parentInode.toNat i ni L) := by
  have hw := write_cases request hc.ready hc.freeSlot hp fun hd => hc.parentOk hp hd
  have hp0 : request.parentInode.toNat ≠ 0 := by have := hp.1; omega
  generalize write request fs = res at hw ⊢
  obtain ⟨code, fs'⟩ := res
  dsimp only at hw ⊢
  cases hw with
  | notDir => exact Or.inl ⟨by decide, Quiet.refl hc⟩
  | duplicate => exact Or.inl ⟨by decide, Quiet.refl hc⟩
  | noInode => exact Or.inl ⟨by decide, Quiet.refl hc⟩
  | noBlock => exact Or.inl ⟨by decide, Quiet.refl hc⟩
  | halfGrown nb _ _ hgrab => exact Or.inl ⟨by decide, hgrab.quiet hc⟩
  | @hole b r i ni L X _ hd hhit hn hhole =>
    right
    have hi := hhole.took.firstFreeInode
    have hcr : Creates request fs.disk := ⟨hp0, hd, ⟨i, hi⟩, Or.inl ⟨_, hhit, hn⟩⟩
    have hX := hhole.room_iff.mpr fun hreq => by
      rw [← roomFrom_of_hit hhit]
      exact (hok hcr).2 hreq i hi
    subst hX
    obtain ⟨pre, post, xs, ys, hs⟩ := Stop.of_firstHit hhit hn
    have hdir := hc.isDirectory hp hd
    exact ⟨rfl, hdir, hcr, i, ni, L, hhole.created hc hdir hs⟩
  | @grow nb i ni L X _ _ hd hhit hgrab hnb hg =>
    right
    have hi := hg.took.firstFreeInode
    have hcr : Creates request fs.disk := ⟨hp0, hd, ⟨i, hi⟩, Or.inr ⟨hhit, nb, hnb⟩⟩
    have hX := (hg.room_iff hgrab).mpr fun hreq => by
      rw [← roomFrom_of_grab hgrab hnb]
      exact (hok hcr).2 hreq i hi
    subst hX
    have hdir := hc.isDirectory hp hd
    exact ⟨rfl, hdir, hcr, i, ni, L, hg.created hc hdir ((hok hcr).1 hhit) hhit⟩

end LossOs.Ext2
