/-
  File systems in which the root is the only directory.

  `RootState` lists the records of its one block and the inodes in use. Writing a file splits a
  record (`RootState.write`), deleting one merges a record into the one before it
  (`RootState.delete`), so a run over files in the root can be followed record by record.
-/
import LossOs.Ext2.Runs
import LossOs.Ext2.Fresh

namespace LossOs.Ext2

open LossOs.Lib

/-- The root is the only directory, its block 21 holds the records `rs`, and the inodes in `used`
    are in use. -/
structure RootState (fs : Fs) (rs : List Rec) (used : List Nat) : Prop where
  consistent : Consistent fs
  dirs : ∀ p, IsDirectory fs.disk p ↔ p = 1
  size : iBlocks (slot fs.disk 1) = 1
  blocks : dirBlocks (slot fs.disk 1) = [21]
  records : blockRecords (fs.disk 21) = rs
  inodes : ∀ j, IsInode j → inodeUsed fs.disk j = decide (j ∈ used)

theorem Formatted.rootState {fs : Fs} (h : Formatted fs) : RootState fs (dotRecords 1 1) [1] where
  consistent := h.consistent
  dirs := fun _ => h.isDirectory_iff
  size := h.iBlocks_root
  blocks := h.rootBlocks
  records := h.rootRecords
  inodes := fun j hj => by
    rw [h.inodes j hj]
    simp only [List.mem_singleton]

/-- The record before which a search stops, and what lies around it, are unique. -/
theorem split_unique {α : Type*} {P : α → Bool} {xs ys xs' ys' : List α} {a a' : α}
    (h : xs ++ a :: ys = xs' ++ a' :: ys') (hx : ∀ x ∈ xs, P x = false) (ha : P a = true)
    (hx' : ∀ x ∈ xs', P x = false) (ha' : P a' = true) : xs = xs' ∧ a = a' ∧ ys = ys' := by
  have hlen : xs = xs' := by
    have htake : ∀ {zs ws : List α} {b : α}, (∀ x ∈ zs, P x = false) → P b = true →
        (zs ++ b :: ws).takeWhile (fun x => !P x) = zs := by
      intro zs ws b hz hb
      rw [List.takeWhile_append_of_pos fun x hm => by rw [hz x hm]; rfl,
        List.takeWhile_cons_of_neg (by rw [hb]; decide), List.append_nil]
    rw [← @htake xs ys a hx ha, h, htake hx' ha']
  subst hlen
  have := List.append_cancel_left h
  rw [List.cons.injEq] at this
  exact ⟨rfl, this.1, this.2⟩

section RootState

variable {fs : Fs} {rs xs ys : List Rec} {q r : Rec} {used : List Nat}
  {request : EXT2DriverRequest} {i : Nat}

theorem RootState.entries_eq (h : RootState fs rs used) : entries fs.disk 1 = live rs := by
  unfold entries
  rw [h.blocks, blockEntries_cons, h.records]
  exact List.append_nil _

theorem RootState.firstFreeInode (h : RootState fs rs used) (hi : IsInode i) (hnew : i ∉ used)
    (hfirst : ∀ j, 0 < j → j < i → j ∈ used) : firstFreeInode fs.disk = some i :=
  firstFreeInode_eq hi (by rw [h.inodes i hi, decide_eq_false hnew]) fun j hj hlt => by
    rw [h.inodes j hj, decide_eq_true (hfirst j hj.1 hlt)]

/-- The pass of `write` stops at record `r`. -/
theorem RootState.stop (h : RootState fs rs used) (hrs : rs = xs ++ r :: ys)
    (hx : ∀ q ∈ xs, q.named request = false ∧ q.roomy request = false)
    (hr : r.named request = false ∧ r.roomy request = true) :
    Stop request fs.disk 1 21 r [] [] xs ys where
  blocks := h.blocks
  recs := h.records.trans hrs
  isLive := (roomy_iff.mp hr.2).1
  room := (roomy_iff.mp hr.2).2
  unnamed := hr.1
  before := by simp [dirRecords]
  beforeHere := hx

/-- A file is written behind record `r`. -/
theorem RootState.write (request : EXT2DriverRequest) (xs : List Rec) (i : Nat)
    (h : RootState fs (xs ++ r :: ys) used) (hp : request.parentInode = 1)
    (hreg : isDirRequest request = false)
    (hx : ∀ q ∈ xs, q.named request = false ∧ q.roomy request = false)
    (hr : r.named request = false ∧ r.roomy request = true) (hi : IsInode i) (hnew : i ∉ used)
    (hfirst : ∀ j, 0 < j → j < i → j ∈ used) :
    ∃ fs', write request fs = (0, fs') ∧ RootState fs' (xs ++ { r with recLen := r.size } ::
      newRec request i (r.off + r.size) (r.recLen - r.size) :: ys) (i :: used) := by
  have hone : request.parentInode.toNat = 1 := by rw [hp]; rfl
  have hc := h.consistent
  have hroot := (h.dirs 1).mpr rfl
  have hs := h.stop rfl hx hr
  have hw := write_hole request hc.ready hc.freeSlot (by rw [hone]; exact hroot.isInode)
    (by rw [hone]; exact hroot.dir) (by rw [hone]; exact hc.parentOk hroot.isInode hroot.dir)
    (by rw [hone]; exact hs.firstHit) hr.1 (h.firstFreeInode hi hnew hfirst)
  obtain ⟨hcode, ni, L, X, hh⟩ := hw
  refine ⟨(LossOs.Ext2.write request fs).2, Prod.ext hcode rfl, ?_⟩
  generalize (LossOs.Ext2.write request fs).2 = fs' at hh ⊢
  have hX : X = [] := hh.room_iff.mpr fun hd => by rw [hreg] at hd; cases hd
  subst hX
  have hcr := hh.created hc hroot hs
  have hne := (hh.ne_parent hroot).symm
  refine ⟨hcr.consistent, fun p => ?_, ?_, ?_,
    (hh.records hs (hc.dirBlock hroot hs.mem).2.2).blockRecords_eq, fun j hj => ?_⟩
  · by_cases hpi : p = i
    · refine iff_of_false (fun hd => ?_) (hpi ▸ hne.symm)
      have := hh.made.isDir_eq hh.slotSelf
      rw [← hpi, hd.dir, hreg] at this
      cases this
    · rw [hcr.isDirectory_iff hpi, h.dirs]
  · rw [hh.slot_eq (by decide) hne]; exact h.size
  · rw [hh.slot_eq (by decide) hne]; exact h.blocks
  · rw [hcr.inodes j hj, h.inodes j hj]
    simp only [List.mem_cons, Bool.decide_or, Bool.or_comm]

/-- The file of record `r` is deleted. -/
theorem RootState.delete (request : EXT2DriverRequest) (xs : List Rec)
    (h : RootState fs (xs ++ q :: r :: ys) used)
    (hp : request.parentInode = 1) (hreg : request.isDirectory = false)
    (hx : ∀ a ∈ xs, a.named request = false) (hq : q.named request = false)
    (hr : r.named request = true) (hfile : r.fileType = 1) (hne : r.inode ≠ 1)
    (hi : IsInode r.inode) (hu : r.inode ∈ used) :
    ∃ fs', delete request fs = (0, fs') ∧ RootState fs'
      (xs ++ { q with recLen := q.recLen + r.recLen } :: ys) (used.filter (· ≠ r.inode)) := by
  have hone : request.parentInode.toNat = 1 := by rw [hp]; rfl
  have hc := h.consistent
  have hroot := (h.dirs 1).mpr rfl
  have hrec := h.records
  have hxq : ∀ a ∈ xs ++ [q], a.named request = false := fun a ha => by
    rcases List.mem_append.mp ha with ha | ha
    · exact hx a ha
    · rw [List.mem_singleton.mp ha]; exact hq
  have husedi : inodeUsed fs.disk r.inode = true := by rw [h.inodes _ hi, decide_eq_true hu]
  have hrec' : blockRecords (fs.disk 21) = (xs ++ [q]) ++ r :: ys := by
    rw [hrec, List.append_assoc]
    rfl
  have hdir : isDir fs.disk r.inode = false := by
    cases hd : isDir fs.disk r.inode with
    | false => rfl
    | true => exact absurd ((h.dirs _).mp (hc.isDirectory hi hd)) hne
  have hb : (21 : Nat) ∈ dirBlocks (slot fs.disk 1) := by rw [h.blocks]; simp
  obtain ⟨hdata, -, hdb⟩ := hc.dirBlock hroot hb
  have hcases := delete_cases request hc.ready.layout
    (by rw [hone]; exact hroot.isInode) (by rw [hone]; exact hroot.dir)
    (by rw [hone]; exact hc.dirOk 1 hroot)
  rw [hone, h.blocks] at hcases
  rcases hcases with ⟨-, hall⟩ | ⟨pre, b, post, xs', r', ys', hbs, hrs, hn, hpre, hxs', he⟩
  · have := hall (21, r) (mem_dirRecords.mpr ⟨by simp, by rw [hrec']; simp⟩)
    rw [hr] at this
    cases this
  -- the search has found this record
  rcases List.singleton_eq_append_iff.mp hbs with ⟨rfl, hb'⟩ | ⟨-, hb'⟩
  swap
  · cases hb'
  rw [List.cons.injEq] at hb'
  obtain ⟨rfl, rfl⟩ := hb'
  rw [hrec'] at hrs
  obtain ⟨rfl, rfl, rfl⟩ := split_unique hrs.symm hxs' hn hxq hr
  have hrun : delete request fs = (0, removeAt 21 (xs ++ [q]) r' fs) := by
    rw [he]
    unfold deleteAt
    rw [if_neg (by rw [hreg]; simp), if_neg (by rw [hreg]; simp), if_neg (by rw [hfile]; simp)]
    rfl
  have hd := removeAt_deleted hc hroot (show _ = [] ++ 21 :: [] from h.blocks) hrec' hr
    (by simp [dirRecords]) hxq hi husedi fun hdir' => by rw [hdir] at hdir'; cases hdir'
  have ht := removeAt_tiles_merge hdata hdb hrec
  refine ⟨_, hrun, hd.consistent, fun p => ?_, ?_, ?_, ht.blockRecords_eq, fun j hj => ?_⟩
  · rw [hd.isDirectory_iff, h.dirs]
    refine ⟨And.left, fun hp => ⟨hp, ?_⟩⟩
    rw [hp]
    exact Ne.symm hne
  · rw [hd.others 1 (by decide) (Ne.symm hne)]; exact h.size
  · rw [hd.others 1 (by decide) (Ne.symm hne)]; exact h.blocks
  · rw [hd.inodes j hj, h.inodes j hj]
    simp only [List.mem_filter, decide_not, Bool.decide_and, Bool.not_eq_true',
      decide_eq_false_iff_not]
    rfl

end RootState

end LossOs.Ext2
