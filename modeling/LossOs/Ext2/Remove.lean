/-
  A successful `delete`.

  It finds the first live record of the name, frees the inode that the record names, and takes
  the record out of its block. On a consistent state this ends in `Deleted`: the state is
  consistent again, the inode is free, the entry list of the parent has one element less, and
  every other inode and directory is as before (`delete_outcome`). The inode need not differ
  from the parent: `.` names the parent itself.
-/
import LossOs.Ext2.Insert

namespace LossOs.Ext2

open LossOs.Lib

/-! ## One element less -/

/-- What `delete` does to the blocks `bs` of a directory: the first live record of the name is
    merged into the record before it, or, when it is the first of its block, loses its inode
    number. -/
inductive Removed (request : EXT2DriverRequest) (e : Entry) (d d' : Disk) (bs : List Nat) : Prop
  | merge {pre post : List Nat} {b : Nat} {xs ys : List Rec} {q r : Rec} : bs = pre ++ b :: post →
      blockRecords (d b) = xs ++ q :: r :: ys → r.named request = true → r.entry = e →
      (∀ a ∈ blockEntries d pre ++ live (xs ++ [q]), a.name ≠ requestName request) →
      blockRecords (d' b) = xs ++ { q with recLen := q.recLen + r.recLen } :: ys →
      (∀ c ∈ pre ++ post, d' c = d c) → Removed request e d d' bs
  | first {pre post : List Nat} {b : Nat} {ys : List Rec} {r : Rec} : bs = pre ++ b :: post →
      blockRecords (d b) = r :: ys → r.named request = true → r.entry = e →
      (∀ a ∈ blockEntries d pre, a.name ≠ requestName request) →
      blockRecords (d' b) = { r with inode := 0 } :: ys →
      (∀ c ∈ pre ++ post, d' c = d c) → Removed request e d d' bs

section Removed

variable {request : EXT2DriverRequest} {e : Entry} {d d' : Disk} {bs : List Nat}

/-- As a list of entries the directory has one element less, the first of the name. -/
theorem Removed.entries_eq (h : Removed request e d d' bs) :
    ∃ A B, blockEntries d bs = A ++ e :: B ∧ blockEntries d' bs = A ++ B ∧
      e.name = requestName request ∧ ∀ a ∈ A, a.name ≠ requestName request := by
  cases h with
  | @merge pre post b xs ys q r hbs hrs hn he hname hnew hsame =>
    obtain ⟨hr0, hrn⟩ := named_iff.mp hn
    refine ⟨blockEntries d pre ++ live (xs ++ [q]), live ys ++ blockEntries d post, ?_, ?_,
      by rw [← he]; exact hrn, hname⟩
    · rw [hbs, blockEntries_append, blockEntries_cons, hrs,
        show xs ++ q :: r :: ys = (xs ++ [q]) ++ r :: ys by simp, live_append, live_cons_of_ne hr0,
        he]
      simp only [List.append_assoc, List.cons_append]
    · rw [hbs, blockEntries_append, blockEntries_cons, hnew, live_append, live_recLen,
        blockEntries_congr fun c hc => hsame c (List.mem_append_left _ hc),
        blockEntries_congr fun c hc => hsame c (List.mem_append_right _ hc),
        show q :: ys = [q] ++ ys from rfl, live_append, live_append]
      simp only [List.append_assoc]
  | @first pre post b ys r hbs hrs hn he hname hnew hsame =>
    obtain ⟨hr0, hrn⟩ := named_iff.mp hn
    refine ⟨blockEntries d pre, live ys ++ blockEntries d post, ?_, ?_, by rw [← he]; exact hrn,
      hname⟩
    · rw [hbs, blockEntries_append, blockEntries_cons, hrs, live_cons_of_ne hr0, he]
      simp only [List.cons_append]
    · rw [hbs, blockEntries_append, blockEntries_cons, hnew,
        live_cons_of_eq (r := { r with inode := 0 }) rfl,
        blockEntries_congr fun c hc => hsame c (List.mem_append_left _ hc),
        blockEntries_congr fun c hc => hsame c (List.mem_append_right _ hc)]

/-- The first block: the record that goes may lie in it. -/
theorem Removed.first_block (h : Removed request e d d' bs) {b : Nat} {post : List Nat}
    (hb : bs = b :: post) : blockRecords (d' b) = blockRecords (d b) ∨
      (∃ xs q r ys, blockRecords (d b) = xs ++ q :: r :: ys ∧ r.named request = true ∧
        r.entry = e ∧
        blockRecords (d' b) = xs ++ { q with recLen := q.recLen + r.recLen } :: ys) ∨
      ∃ r ys, blockRecords (d b) = r :: ys ∧ r.named request = true ∧ r.entry = e ∧
        blockRecords (d' b) = { r with inode := 0 } :: ys := by
  cases h with
  | @merge pre post' b' xs ys q r hbs hrs hn he _ hnew hsame =>
    cases pre with
    | cons c pre =>
      obtain ⟨rfl, -⟩ := List.cons.inj (hb.symm.trans hbs)
      exact Or.inl (by rw [hsame b (by simp)])
    | nil =>
      obtain ⟨rfl, -⟩ := List.cons.inj (hb.symm.trans hbs)
      exact Or.inr (Or.inl ⟨xs, q, r, ys, hrs, hn, he, hnew⟩)
  | @first pre post' b' ys r hbs hrs hn he _ hnew hsame =>
    cases pre with
    | cons c pre =>
      obtain ⟨rfl, -⟩ := List.cons.inj (hb.symm.trans hbs)
      exact Or.inl (by rw [hsame b (by simp)])
    | nil =>
      obtain ⟨rfl, -⟩ := List.cons.inj (hb.symm.trans hbs)
      exact Or.inr (Or.inr ⟨r, ys, hrs, hn, he, hnew⟩)

/-- Record lengths stay multiples of 4. -/
theorem Removed.aligned (h : Removed request e d d' bs)
    (ha : ∀ b ∈ bs, Aligned (blockRecords (d b))) : ∀ b ∈ bs, Aligned (blockRecords (d' b)) := by
  -- the blocks other than the one that was edited
  have hother : ∀ {pre post : List Nat} {b c : Nat}, bs = pre ++ b :: post →
      (∀ c ∈ pre ++ post, d' c = d c) → c ∈ bs → c ≠ b → Aligned (blockRecords (d' c)) := by
    intro pre post b c hbs hsame hc hne
    rw [hsame c]
    · exact ha c hc
    · rw [hbs] at hc
      simp only [List.mem_append, List.mem_cons] at hc ⊢
      tauto
  cases h with
  | @merge pre post b xs ys q r hbs hrs _ _ _ hnew hsame =>
    intro c hc
    by_cases hcb : c = b
    · subst hcb
      have hold := ha c hc
      rw [hrs] at hold
      rw [hnew]
      intro t ht
      simp only [List.mem_append, List.mem_cons] at ht
      rcases ht with ht | rfl | ht
      · exact hold t (by simp [ht])
      · exact Nat.dvd_add (hold q (by simp)) (hold r (by simp))
      · exact hold t (by simp [ht])
    · exact hother hbs hsame hc hcb
  | @first pre post b ys r hbs hrs _ _ _ hnew hsame =>
    intro c hc
    by_cases hcb : c = b
    · subst hcb
      have hold := ha c hc
      rw [hrs] at hold
      rw [hnew]
      intro t ht
      rcases List.mem_cons.mp ht with rfl | ht
      · exact hold r (by simp)
      · exact hold t (by simp [ht])
    · exact hother hbs hsame hc hcb

end Removed

/-! ## The stores of `delete` -/

/-- The state in which a successful `delete` ends: the inode of record `r` of block `b` is
    freed, and the record, which lies behind those of `xs`, is taken out. -/
def removeAt (b : Nat) (xs : List Rec) (r : Rec) (fs : Fs) : Fs :=
  syncMetadata ((deallocateNode r.inode fs).writeBlocks b
    (removeEntry (xs.getLast?.map Rec.off) r.off (fs.readBlocks b)))

/-- `delete` fails and changes nothing, or removes the first live record of the name. -/
theorem delete_steps {request : EXT2DriverRequest} {fs : Fs} (hl : Layout fs)
    (hp : IsInode request.parentInode.toNat)
    (hok : isDir fs.disk request.parentInode.toNat = true →
      DirOk fs.disk request.parentInode.toNat) :
    ((delete request fs).1 ≠ 0 ∧ (delete request fs).2 = fs) ∨
    ∃ pre b post xs r ys, isDir fs.disk request.parentInode.toNat = true ∧
      dirBlocks (slot fs.disk request.parentInode.toNat) = pre ++ b :: post ∧
      blockRecords (fs.disk b) = xs ++ r :: ys ∧ r.named request = true ∧
      (∀ q ∈ dirRecords fs.disk pre, q.2.named request = false) ∧
      (∀ q ∈ xs, q.named request = false) ∧
      (request.isDirectory = true → r.fileType = 2 ∧ isDirectoryEmpty r.inode fs = true) ∧
      (request.isDirectory = false → r.fileType = 1) ∧
      delete request fs = (0, removeAt b xs r fs) := by
  cases hd : isDir fs.disk request.parentInode.toNat with
  | false =>
    left
    rw [delete_of_not_dir hl hp hd]
    exact ⟨by simp, rfl⟩
  | true =>
    rcases delete_cases request hl hp hd (hok hd) with
      ⟨he, -⟩ | ⟨pre, b, post, xs, r, ys, hbs, hrs, hn, hpre, hxs, he⟩
    · left
      rw [he]
      exact ⟨by simp, rfl⟩
    · rw [he]
      unfold deleteAt
      by_cases h1 : request.isDirectory = true ∧ r.fileType ≠ 2
      · left
        rw [if_pos h1]
        exact ⟨by simp, rfl⟩
      by_cases h2 : request.isDirectory = true ∧ isDirectoryEmpty r.inode fs = false
      · left
        rw [if_neg h1, if_pos h2]
        exact ⟨by simp, rfl⟩
      by_cases h3 : ¬ request.isDirectory = true ∧ r.fileType ≠ 1
      · left
        rw [if_neg h1, if_neg h2, if_pos h3]
        exact ⟨by simp, rfl⟩
      right
      rw [if_neg h1, if_neg h2, if_neg h3]
      refine ⟨pre, b, post, xs, r, ys, rfl, hbs, hrs, hn, hpre, hxs, fun hr => ⟨?_, ?_⟩,
        fun hr => ?_, rfl⟩
      · by_contra hc
        exact h1 ⟨hr, hc⟩
      · by_contra hc
        exact h2 ⟨hr, by simpa using hc⟩
      · by_contra hc
        exact h3 ⟨by rw [hr]; decide, hc⟩

/-- The inode is given back with the blocks that `deallocate_node` visits. -/
theorem removeAt_freed {fs : Fs} (hl : Layout fs) {b : Nat} (hb : IsData b) (xs : List Rec)
    {r : Rec} (hi : IsInode r.inode)
    (hdata : ∀ c ∈ fileBlocks fs.disk (slot fs.disk r.inode), IsData c) :
    Freed fs (removeAt b xs r fs) r.inode (fileBlocks fs.disk (slot fs.disk r.inode)) [b] :=
  ((deallocateNode_spec hl hi hdata).writeData hb _).sync

section RemoveAt

variable {fs : Fs} {b : Nat} {xs ys : List Rec} {q r : Rec}

theorem removeAt_block (hb : IsData b) (xs : List Rec) (r : Rec) :
    (removeAt b xs r fs).disk b =
      blockOf (removeEntry (xs.getLast?.map Rec.off) r.off (fs.readBlocks b)) := by
  unfold removeAt
  rw [syncMetadata_disk hb.ne_super.1 hb.ne_super.2, writeBlocks_disk, Function.update_self]

/-- The first record of a block loses its inode number. -/
theorem removeAt_tiles_first (hb : IsData b) (hdb : IsDirBlock (fs.disk b))
    (hrs : blockRecords (fs.disk b) = r :: ys) :
    Tiles ((removeAt b [] r fs).disk b).mem 0 ({ r with inode := 0 } :: ys) 512 := by
  have ht := hdb.tiles_read
  rw [hrs] at ht
  exact (removeEntry_tiles_none ht).congr fun o _ ho => by
    rw [removeAt_block hb]
    exact mem_blockOf ho

/-- Any other record is merged into the one before it. -/
theorem removeAt_tiles_merge (hb : IsData b) (hdb : IsDirBlock (fs.disk b))
    (hrs : blockRecords (fs.disk b) = xs ++ q :: r :: ys) :
    Tiles ((removeAt b (xs ++ [q]) r fs).disk b).mem 0
      (xs ++ { q with recLen := q.recLen + r.recLen } :: ys) 512 := by
  have ht := hdb.tiles_read
  have hprev : ((xs ++ [q]).getLast?.map Rec.off) = some q.off := by simp
  rw [hrs] at ht
  refine (removeEntry_tiles_some ht).congr fun o _ ho => ?_
  rw [removeAt_block hb, hprev]
  exact mem_blockOf ho

/-- The record is taken out of its block. -/
theorem removeAt_removed {request : EXT2DriverRequest} {bs pre post : List Nat}
    (hbs : bs = pre ++ b :: post) (hnd : bs.Nodup)
    (hrs : blockRecords (fs.disk b) = xs ++ r :: ys) (hb : IsData b) (hdb : IsDirBlock (fs.disk b))
    (hn : r.named request = true) (hpre : ∀ q ∈ dirRecords fs.disk pre, q.2.named request = false)
    (hxs : ∀ q ∈ xs, q.named request = false)
    (hsame : ∀ c ∈ bs, c ≠ b → (removeAt b xs r fs).disk c = fs.disk c) :
    Removed request r.entry fs.disk (removeAt b xs r fs).disk bs ∧
      IsDirBlock ((removeAt b xs r fs).disk b) := by
  subst hbs
  have hsame' : ∀ c ∈ pre ++ post, (removeAt b xs r fs).disk c = fs.disk c := by
    intro c hc
    have hne : c ≠ b := by
      rintro rfl
      rcases List.mem_append.mp hc with hc | hc
      · exact (List.nodup_append.mp hnd).2.2 c hc c (by simp) rfl
      · exact (List.nodup_cons.mp (List.nodup_append.mp hnd).2.1).1 hc
    refine hsame c ?_ hne
    simp only [List.mem_append, List.mem_cons] at hc ⊢
    tauto
  have hnames := blockEntries_name_ne hpre
  rcases List.eq_nil_or_concat xs with rfl | ⟨xs, q, rfl⟩
  · have ht := removeAt_tiles_first hb hdb hrs
    exact ⟨.first rfl hrs hn rfl hnames ht.blockRecords_eq hsame', _, ht⟩
  · rw [List.concat_eq_append] at hrs hxs hsame' ⊢
    rw [List.append_assoc] at hrs
    have ht := removeAt_tiles_merge hb hdb hrs
    refine ⟨.merge rfl hrs hn rfl (fun a ha => ?_) ht.blockRecords_eq hsame', _, ht⟩
    exact (List.mem_append.mp ha).elim (hnames a) (live_name_ne hxs a)

end RemoveAt

/-! ## The outcome of `delete` -/

/-- A `delete` that returned 0: the entry `e` is gone from directory `p`, and its inode is
    free. -/
structure Deleted (request : EXT2DriverRequest) (fs fs' : Fs) (p : Nat) (e : Entry) : Prop where
  consistent : Consistent fs'
  isInode : IsInode e.inode
  used : inodeUsed fs.disk e.inode = true
  inodes : ∀ j, IsInode j → inodeUsed fs'.disk j = (inodeUsed fs.disk j && !decide (j = e.inode))
  others : ∀ j, IsInode j → j ≠ e.inode → slot fs'.disk j = slot fs.disk j
  gone : ∀ o, slot fs'.disk e.inode o = 0
  parent : Removed request e fs.disk fs'.disk (dirBlocks (slot fs.disk p))
  kept : ∀ c, IsData c → c ∉ dirBlocks (slot fs.disk p) → fs'.disk c = fs.disk c

/-- The blocks that `deallocate_node` visits belong to the inode. -/
theorem fileBlocks_reach {d : Disk} {i : Nat} (h : isDir d i = true → iBlocks (slot d i) ≤ 12) :
    (fileBlocks d (slot d i)).Sublist (reach d i) := by
  cases hd : isDir d i with
  | true =>
    rw [reach_of_dir hd, fileBlocks_of_le (h hd)]
    exact List.Sublist.refl _
  | false =>
    rw [reach_of_not_dir hd]
    exact fileBlocks_sublist d _

section Deleted

variable {request : EXT2DriverRequest} {fs fs' : Fs} {p : Nat} {e : Entry}

theorem Deleted.isDirectory_iff (h : Deleted request fs fs' p e) {j : Nat} :
    IsDirectory fs'.disk j ↔ IsDirectory fs.disk j ∧ j ≠ e.inode := by
  have hiff : ∀ j, IsInode j → j ≠ e.inode → isDir fs'.disk j = isDir fs.disk j :=
    fun j hj hne => isDir_congr (by rw [h.others j hj hne])
  constructor
  · intro hj
    have hu := hj.used
    rw [h.inodes j hj.isInode] at hu
    simp only [Bool.and_eq_true, Bool.not_eq_true', decide_eq_false_iff_not] at hu
    exact ⟨⟨hj.isInode, hu.1, by rw [← hiff j hj.isInode hu.2]; exact hj.dir⟩, hu.2⟩
  · rintro ⟨hj, hne⟩
    refine ⟨hj.isInode, ?_, by rw [hiff j hj.isInode hne]; exact hj.dir⟩
    rw [h.inodes j hj.isInode, hj.used]
    simp [hne]

/-- The entry list of the parent has one element less. -/
theorem Deleted.parentEntries (h : Deleted request fs fs' p e) (hp : IsInode p)
    (hne : p ≠ e.inode) :
    ∃ A B, entries fs.disk p = A ++ e :: B ∧ entries fs'.disk p = A ++ B ∧
      e.name = requestName request ∧ ∀ a ∈ A, a.name ≠ requestName request := by
  unfold entries
  rw [h.others p hp hne]
  exact h.parent.entries_eq

/-- The blocks of the other directories are untouched. -/
theorem Deleted.dirBlock_eq (h : Deleted request fs fs' p e) (hc : Consistent fs)
    (hp : IsDirectory fs.disk p) {j : Nat} (hj : IsDirectory fs.disk j) (hjp : j ≠ p) {c : Nat}
    (hcb : c ∈ dirBlocks (slot fs.disk j)) : fs'.disk c = fs.disk c := by
  obtain ⟨h1, -, -⟩ := hc.dirBlock hj hcb
  apply h.kept c h1
  intro hcp
  rw [← reach_of_dir hj.dir] at hcb
  rw [← reach_of_dir hp.dir] at hcp
  exact hc.owned.disjoint j p hj.isInode hp.isInode hj.used hp.used hjp c hcb hcp

theorem Deleted.otherEntries (h : Deleted request fs fs' p e) (hc : Consistent fs)
    (hp : IsDirectory fs.disk p) {j : Nat} (hj : IsDirectory fs.disk j) (hjp : j ≠ p)
    (hne : j ≠ e.inode) : entries fs'.disk j = entries fs.disk j := by
  unfold entries
  rw [h.others j hj.isInode hne]
  exact blockEntries_congr fun c hcb => h.dirBlock_eq hc hp hj hjp hcb

end Deleted

section Freed

variable {fs fs' : Fs} {i p b : Nat}

/-- What is in use was in use, and is not the inode that was given back. -/
theorem Freed.used_old {L X : List Nat} (h : Freed fs fs' i L X) {j : Nat} (hj : IsInode j)
    (hu : inodeUsed fs'.disk j = true) : inodeUsed fs.disk j = true ∧ j ≠ i := by
  rw [h.inodes j hj] at hu
  simpa using hu

theorem Freed.isDirectory_old {L X : List Nat} (h : Freed fs fs' i L X) (hi : IsInode i) {j : Nat}
    (hj : IsDirectory fs'.disk j) : IsDirectory fs.disk j ∧ j ≠ i := by
  obtain ⟨hu, hne⟩ := h.used_old hj.isInode hj.used
  refine ⟨⟨hj.isInode, hu, ?_⟩, hne⟩
  rw [← hj.dir]
  exact isDir_congr (by rw [h.slots.slot_eq hi hj.isInode hne])

/-- The other inodes reach the blocks that they have reached, also when block `b` of a directory
    is written. -/
theorem Freed.reach_eq {L : List Nat} (h : Freed fs fs' i L [b]) (hi : IsInode i)
    (ho : Ownership fs.disk) (hp : IsDirectory fs.disk p) (hb : b ∈ dirBlocks (slot fs.disk p))
    {j : Nat} (hj : IsInode j) (hu : inodeUsed fs.disk j = true) (hne : j ≠ i) :
    reach fs'.disk j = reach fs.disk j := by
  have hs := h.slots.slot_eq hi hj hne
  cases hd : isDir fs.disk j with
  | true =>
    have hd' : isDir fs'.disk j = true := (isDir_congr (by rw [hs])).trans hd
    rw [reach_of_dir hd, reach_of_dir hd', hs]
  | false =>
    apply reach_congr hs
    intro c hcr
    refine h.data c (ho.data j hj hu c hcr).1 fun hcb => ?_
    obtain rfl : c = b := by simpa using hcb
    have hjp : j ≠ p := by
      rintro rfl
      rw [hp.dir] at hd; cases hd
    apply ho.disjoint j p hj hp.isInode hu hp.used hjp c hcr
    rw [reach_of_dir hp.dir]
    exact hb

/-- The state stays consistent when the blocks that are given back are among those that the
    inode reached, and the directory block that is written is one again. -/
theorem Freed.consistent {L : List Nat} (h : Freed fs fs' i L [b]) (hc : Consistent fs)
    (hi : IsInode i) (hu : inodeUsed fs.disk i = true) (hL : L.Sublist (reach fs.disk i))
    (hp : IsDirectory fs.disk p) (hb : b ∈ dirBlocks (slot fs.disk p))
    (hnew : IsDirBlock (fs'.disk b)) : Consistent fs' := by
  have hslot : ∀ j, IsInode j → j ≠ i → slot fs'.disk j = slot fs.disk j :=
    fun j hj hne => h.slots.slot_eq hi hj hne
  refine ⟨h.ready hc.ready ((hc.owned.nodup _ hi hu).sublist hL)
    (fun c hcL => hc.owned.data i hi hu c (hL.subset hcL)) hu,
    hc.owned.shrink fun j hj hju => ?_, fun j hj hju => ?_, fun j hj => ?_, fun j hj => ?_⟩
  · obtain ⟨h1, h2⟩ := h.used_old hj hju
    refine ⟨h1, h.reach_eq hi hc.owned hp hb hj h1 h2, fun c hcr => ?_⟩
    obtain ⟨h3, h4⟩ := hc.owned.data j hj h1 c hcr
    have hnot : c ∉ L := fun hcf =>
      hc.owned.disjoint j _ hj hi h1 hu h2 c hcr (hL.subset hcf)
    rw [h.blocks c h3.1, h4]
    simp [hnot]
  · by_cases hji : j = i
    · rw [hji]; exact h.slotSelf
    · rw [hslot j hj hji]
      apply hc.freeSlot j hj
      rw [h.inodes j hj] at hju
      simpa [hji] using hju
  · obtain ⟨h1, h2⟩ := h.isDirectory_old hi hj
    refine ⟨by rw [hslot j hj.isInode h2]; exact (hc.dirOk j h1).size, fun c hcb => ?_⟩
    rw [hslot j hj.isInode h2] at hcb
    by_cases hcb' : c = b
    · rw [hcb']; exact hnew
    · obtain ⟨h3, -, h4⟩ := hc.dirBlock h1 hcb
      rw [h.data c h3 (by simpa using hcb')]; exact h4
  · obtain ⟨h1, h2⟩ := h.isDirectory_old hi hj
    rw [hslot j hj.isInode h2]
    exact hc.dirFull j h1

end Freed

/-- Removing the record `r` of block `b` from directory `p` keeps the state consistent, when
    the inode it names is allocated and its blocks are all visited. -/
theorem removeAt_deleted {request : EXT2DriverRequest} {fs : Fs} (hc : Consistent fs) {p : Nat}
    (hp : IsDirectory fs.disk p) {pre post : List Nat} {b : Nat} {xs ys : List Rec} {r : Rec}
    (hbs : dirBlocks (slot fs.disk p) = pre ++ b :: post)
    (hrs : blockRecords (fs.disk b) = xs ++ r :: ys) (hn : r.named request = true)
    (hpre : ∀ q ∈ dirRecords fs.disk pre, q.2.named request = false)
    (hxs : ∀ q ∈ xs, q.named request = false) (hi : IsInode r.inode)
    (hu : inodeUsed fs.disk r.inode = true)
    (h12 : isDir fs.disk r.inode = true → iBlocks (slot fs.disk r.inode) ≤ 12) :
    Deleted request fs (removeAt b xs r fs) p r.entry := by
  have hbm : b ∈ dirBlocks (slot fs.disk p) := by rw [hbs]; simp
  obtain ⟨hb, -, hdb⟩ := hc.dirBlock hp hbm
  have hsub := fileBlocks_reach h12
  have hf := removeAt_freed hc.ready.layout hb xs hi fun c hcb =>
    (hc.owned.data _ hi hu c (hsub.subset hcb)).1
  have hkeep : ∀ c, IsData c → c ≠ b → (removeAt b xs r fs).disk c = fs.disk c :=
    fun c h1 hne => hf.data c h1 (by simpa using hne)
  obtain ⟨hrem, hnewb⟩ := removeAt_removed hbs
    (by rw [← reach_of_dir hp.dir]; exact hc.owned.nodup p hp.isInode hp.used) hrs hb hdb hn hpre
    hxs fun c hcb hne => hkeep c (hc.dirBlock hp hcb).1 hne
  exact ⟨hf.consistent hc hi hu hsub hp hbm hnewb, hi, hu, hf.inodes,
    fun j hj hne => hf.slots.slot_eq hi hj hne, hf.slotSelf, hrem,
    fun c h1 h2 => hkeep c h1 fun hcb => h2 (hcb ▸ hbm)⟩

/-- The entry that `delete` looks at. -/
def firstNamed (request : EXT2DriverRequest) (d : Disk) (p : Nat) : Option Entry :=
  (entries d p).find? fun e => e.name == requestName request

theorem firstNamed_eq {request : EXT2DriverRequest} {d : Disk} {p b : Nat} {pre post : List Nat}
    {xs ys : List Rec} {r : Rec} (hbs : dirBlocks (slot d p) = pre ++ b :: post)
    (hrs : blockRecords (d b) = xs ++ r :: ys) (hn : r.named request = true)
    (hpre : ∀ q ∈ dirRecords d pre, q.2.named request = false)
    (hxs : ∀ q ∈ xs, q.named request = false) : firstNamed request d p = some r.entry := by
  obtain ⟨hr0, hrn⟩ := named_iff.mp hn
  refine List.find?_eq_some_iff_append.mpr ⟨beq_iff_eq.mpr hrn,
    blockEntries d pre ++ live xs, live ys ++ blockEntries d post, ?_, fun a ha => ?_⟩
  · unfold entries
    rw [hbs, blockEntries_append, blockEntries_cons, hrs, live_append, live_cons_of_ne hr0]
    simp only [List.append_assoc, List.cons_append]
  · have hne := (List.mem_append.mp ha).elim (blockEntries_name_ne hpre a) (live_name_ne hxs a)
    simpa using hne

theorem isDir_of_isDirectoryEmpty {fs : Fs} (hl : Layout fs) {i : Nat} (hi : IsInode i)
    (h : isDirectoryEmpty i fs = true) : isDir fs.disk i = true := by
  rw [isDir_eq_true, ← iMode_view hl hi]
  intro h0
  unfold isDirectoryEmpty at h
  dsimp only at h
  rw [if_pos h0] at h
  cases h

/-- `delete` on a consistent state changes nothing, or removes the first entry of the name,
    of the requested type, with its inode. -/
theorem delete_outcome {request : EXT2DriverRequest} {fs : Fs} (hc : Consistent fs)
    (hp : IsInode request.parentInode.toNat) :
    ((delete request fs).1 ≠ 0 ∧ (delete request fs).2 = fs) ∨
    ((delete request fs).1 = 0 ∧ IsDirectory fs.disk request.parentInode.toNat ∧
      ∃ e, firstNamed request fs.disk request.parentInode.toNat = some e ∧
        (request.isDirectory = true → e.fileType = 2 ∧ isDirectoryEmpty e.inode fs = true) ∧
        (request.isDirectory = false → e.fileType = 1) ∧
        (IsInode e.inode → inodeUsed fs.disk e.inode = true →
          (isDir fs.disk e.inode = true → iBlocks (slot fs.disk e.inode) ≤ 12) →
          Deleted request fs (delete request fs).2 request.parentInode.toNat e)) := by
  rcases delete_steps hc.ready.layout hp fun hd => hc.dirOk _ (hc.isDirectory hp hd) with
    h | ⟨pre, b, post, xs, r, ys, hd, hbs, hrs, hn, hpre, hxs, h1, h2, he⟩
  · exact Or.inl h
  · right
    rw [he]
    exact ⟨rfl, hc.isDirectory hp hd, r.entry, firstNamed_eq hbs hrs hn hpre hxs, h1, h2,
      fun hi hu h12 => removeAt_deleted hc (hc.isDirectory hp hd) hbs hrs hn hpre hxs hi hu h12⟩

/-- `delete` returns 0 when the first entry of the name is of the requested type, and a directory
    passes for empty. -/
theorem delete_succeeds {request : EXT2DriverRequest} {fs : Fs} (hc : Consistent fs)
    (hp : IsDirectory fs.disk request.parentInode.toNat) {e : Entry}
    (hfirst : firstNamed request fs.disk request.parentInode.toNat = some e)
    (htwo : request.isDirectory = true → e.fileType = 2 ∧ isDirectoryEmpty e.inode fs = true)
    (hone : request.isDirectory = false → e.fileType = 1) : (delete request fs).1 = 0 := by
  rcases delete_cases request hc.ready.layout hp.isInode hp.dir (hc.dirOk _ hp) with
    ⟨-, hall⟩ | ⟨pre, b, post, xs, r, ys, hbs, hrs, hn, hpre, hxs, he⟩
  · have hname := List.find?_some hfirst
    have hmem := List.mem_of_find?_eq_some hfirst
    exact absurd (beq_iff_eq.mp hname) (entries_name_ne hall e hmem)
  · obtain rfl : r.entry = e :=
      Option.some.inj ((firstNamed_eq hbs hrs hn hpre hxs).symm.trans hfirst)
    rw [he]
    unfold deleteAt
    cases hreq : request.isDirectory with
    | true =>
      obtain ⟨h2, hempty⟩ := htwo hreq
      rw [if_neg fun h => h.2 h2, if_neg fun h => Bool.noConfusion (hempty.symm.trans h.2),
        if_neg fun h => h.1 rfl]
    | false =>
      rw [if_neg fun h => Bool.noConfusion h.1, if_neg fun h => Bool.noConfusion h.1,
        if_neg fun h => h.2 (hone hreq)]

end LossOs.Ext2
