/-
  What the driver does with a parent that is no directory.

  `read`, `read_directory`, `write` and `delete` begin alike: 0 is turned away, any other number
  is divided into a group and a slot, and the slot's mode decides (`checkParent`). The bitmap is
  not looked at, and the number is not compared with the 896 inodes there are, so that from 897
  on the descriptor is taken from behind the table (`bad_parent_refused_iff`).
-/
import LossOs.Ext2.Fresh

namespace LossOs.Ext2

open LossOs.Lib

/-- How the four functions begin: the groups of `bgdtCache.table` they index, and the parent's node
    if they take it for a directory. -/
def checkParent (request : EXT2DriverRequest) (fs : Fs) : List Nat × Option Mem :=
  let parentInode := request.parentInode.toNat
  if parentInode = 0 then ([], none)
  else
    let parent := view (fs.readBlocks (fs.inodeBlock parentInode)) (slotOffset parentInode)
    ([inodeToBgd parentInode], if iMode parent &&& 0x4000 = 0 then none else some parent)

/-- The mode in the slot that `p` leads to. -/
def modeAt (fs : Fs) (p : Nat) : Nat :=
  iMode (view (fs.readBlocks (fs.inodeBlock p)) (slotOffset p))

/-- The bit that `p` leads to. -/
def inodeBit (fs : Fs) (p : Nat) : Bool :=
  bit (fs.readBlocks (fs.bgdtCache (inodeToBgd p)).bgInodeBitmap.toNat) (inodeToLocal p)

/-- `p` is the number of an allocated directory. -/
def AllocatedDir (fs : Fs) (p : Nat) : Prop :=
  IsInode p ∧ inodeBit fs p = true ∧ modeAt fs p &&& 0x4000 ≠ 0

/-- All four functions fail and leave the state and the caller's buffer as they are, and no index
    into the table is behind its end. -/
structure Refused (request : EXT2DriverRequest) (fs : Fs) : Prop where
  read : (read request fs).1 ≠ 0 ∧ (read request fs).2 = request.buf
  readDirectory : (readDirectory request fs).1 ≠ 0 ∧ (readDirectory request fs).2 = request.buf
  write : (write request fs).1 ≠ 0 ∧ (write request fs).2 = fs
  delete : (delete request fs).1 ≠ 0 ∧ (delete request fs).2 = fs
  groups : ∀ g ∈ (checkParent request fs).1, g < 8

section Check

variable {request : EXT2DriverRequest} {fs : Fs}

theorem checkParent_none : (checkParent request fs).2 = none ↔
    request.parentInode.toNat = 0 ∨ modeAt fs request.parentInode.toNat &&& 0x4000 = 0 := by
  unfold checkParent modeAt
  by_cases h0 : request.parentInode.toNat = 0
  · simp [h0]
  · simp [h0]

theorem groups_lt (h : request.parentInode.toNat ≤ 896) :
    ∀ g ∈ (checkParent request fs).1, g < 8 := by
  intro g hg
  unfold checkParent inodeToBgd at hg
  by_cases h0 : request.parentInode.toNat = 0
  · simp [h0] at hg
  · simp only [h0, if_false, List.mem_singleton] at hg
    omega

theorem group_behind (h : 896 < request.parentInode.toNat) :
    ∃ g ∈ (checkParent request fs).1, 8 ≤ g := by
  refine ⟨inodeToBgd request.parentInode.toNat, ?_, ?_⟩
  · unfold checkParent
    rw [if_neg (by omega)]
    exact List.mem_singleton_self _
  · unfold inodeToBgd
    rw [if_neg (by omega)]
    omega

/-- A parent that is stopped by the check is refused there: nothing after it runs. -/
theorem refused_of_check (hle : request.parentInode.toNat ≤ 896)
    (h : (checkParent request fs).2 = none) : Refused request fs := by
  have hcheck := checkParent_none.mp h
  unfold modeAt at hcheck
  have hread : LossOs.Ext2.read request fs = (-1, request.buf) := by
    unfold LossOs.Ext2.read
    rcases hcheck with h0 | hmode
    · rw [if_pos h0]
    · simp [hmode]
  have hreadDir : LossOs.Ext2.readDirectory request fs = (-1, request.buf) := by
    unfold LossOs.Ext2.readDirectory
    rcases hcheck with h0 | hmode
    · rw [if_pos h0]
    · simp [hmode]
  have hwrite : LossOs.Ext2.write request fs = (2, fs) := by
    unfold LossOs.Ext2.write
    rcases hcheck with h0 | hmode
    · rw [if_pos h0]
    · simp [hmode]
  have hdelete : LossOs.Ext2.delete request fs = (-1, fs) := by
    unfold LossOs.Ext2.delete
    rcases hcheck with h0 | hmode
    · rw [if_pos h0]
    · simp [hmode]
  have hne : (-1 : Int) ≠ 0 ∧ (2 : Int) ≠ 0 := by decide
  refine ⟨?_, ?_, ?_, ?_, groups_lt hle⟩
  · rw [hread]
    exact ⟨hne.1, rfl⟩
  · rw [hreadDir]
    exact ⟨hne.1, rfl⟩
  · rw [hwrite]
    exact ⟨hne.2, rfl⟩
  · rw [hdelete]
    exact ⟨hne.1, rfl⟩

end Check

/-- A parent that is not an allocated directory is refused if and only if it is at most 896, in a
    state in which its slot holds no directory when its bit is clear. -/
theorem bad_parent_refused_iff {request : EXT2DriverRequest} {fs : Fs}
    (hbad : ¬ AllocatedDir fs request.parentInode.toNat)
    (hfree : IsInode request.parentInode.toNat → inodeBit fs request.parentInode.toNat = false →
      modeAt fs request.parentInode.toNat &&& 0x4000 = 0) :
    Refused request fs ↔ request.parentInode.toNat ≤ 896 := by
  constructor
  · intro h
    by_contra hlt
    obtain ⟨g, hg, hge⟩ : ∃ g ∈ (checkParent request fs).1, 8 ≤ g :=
      group_behind (not_le.mp hlt)
    exact absurd (h.groups g hg) (not_lt.mpr hge)
  · intro hle
    refine refused_of_check hle (checkParent_none.mpr ?_)
    by_cases h0 : request.parentInode.toNat = 0
    · exact Or.inl h0
    · have hi : IsInode request.parentInode.toNat := ⟨by omega, hle⟩
      apply Or.inr
      cases hbit : inodeBit fs request.parentInode.toNat with
      | false => exact hfree hi hbit
      | true =>
        by_contra hmode
        exact hbad ⟨hi, hbit, hmode⟩

/-- A request of a file `a` in inode `p`. -/
def requestIn (p : UInt32) : EXT2DriverRequest :=
  { rootRequest [97] [] false with parentInode := p }

theorem mode_freshFs : modeAt freshFs 2 = 0 := by
  have hf := isFresh_freshFs.formatted
  unfold modeAt
  rw [iMode_view hf.layout (by decide)]
  have hz : ∀ o < 70, slot freshFs.disk 2 o = (fun _ => 0 : Mem) o := fun o _ =>
    hf.slots 2 (by decide) (by decide) o
  exact iMode_congr hz

theorem bad_parent_refused_fresh : Refused (requestIn 2) freshFs := by
  have hmode : modeAt freshFs (requestIn 2).parentInode.toNat &&& 0x4000 = 0 := by
    rw [show (requestIn 2).parentInode.toNat = 2 from rfl, mode_freshFs]
    rfl
  exact (bad_parent_refused_iff (fun h => h.2.2 hmode) fun _ _ => hmode).mpr (by decide)

/-- With the parent 897 the descriptor behind the last one of the table is read. -/
theorem bad_parent_not_refused : ¬ AllocatedDir freshFs (requestIn 897).parentInode.toNat ∧
    8 ∈ (checkParent (requestIn 897) freshFs).1 ∧ ¬ Refused (requestIn 897) freshFs := by
  have hg : 8 ∈ (checkParent (requestIn 897) freshFs).1 := List.mem_singleton_self 8
  exact ⟨fun h => absurd h.1.2 (by decide), hg, fun h => absurd (h.groups 8 hg) (by decide)⟩

end LossOs.Ext2
