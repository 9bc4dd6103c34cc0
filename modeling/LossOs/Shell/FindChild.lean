/-
  `find_child_inode` on a buffer that is not empty.

  The kernel fills in the one block of the directory, and the walk goes on through what the buffer
  held before. So a name that the directory does not have is found exactly if the stale records
  behind the block have a directory of that name (`findChildInode_childOf`); `stale` does not
  depend on the directory. `find_recursive` clears the same buffer first.
-/
import LossOs.Shell.Cd

namespace LossOs.Shell

open LossOs.Lib LossOs.Ext2

/-! ## Stale records -/

/-- The records are those of the bytes from the offset on. -/
theorem walked_congr {buf buf' : Mem} {o : Nat} (h : ∀ j, o ≤ j → buf' j = buf j) :
    walked buf' o = walked buf o := by
  fun_induction walked buf o with
  | case1 o hlt hend =>
    have hrec : recAt buf' o = recAt buf o := recAt_congr fun j hj _ => h j hj
    have hlen : entryRecLen buf' o = entryRecLen buf o := congrArg Rec.recLen hrec
    rw [walked, dif_pos hlt, hlen, dif_pos hend]
  | case2 o hlt hgo ih =>
    have hrec : recAt buf' o = recAt buf o := recAt_congr fun j hj _ => h j hj
    have hlen : entryRecLen buf' o = entryRecLen buf o := congrArg Rec.recLen hrec
    rw [walked, dif_pos hlt, hlen, dif_neg hgo, hrec, ih fun j hj => h j (by omega)]
  | case3 o hlt => rw [walked, dif_neg hlt]

/-- What the buffer of a look-up holds behind the first block, before the look-up. -/
def stale (m : Machine) : List Entry := live (walked (m.user 0) 512)

theorem stale_zeros (fs : Fs) : stale (Machine.zeros fs) = [] := by
  unfold stale
  rw [walked, dif_pos (by decide),
    dif_pos (Or.inl (show entryRecLen ((Machine.zeros fs).user 0) 512 = 0 from rfl))]
  rfl

/-- A listing of one block leaves the rest of the buffer as it was. -/
theorem lookedAt_behind {m : Machine} {p : Nat} (ht : Tree m.fs) (hp : IsDirectory m.fs.disk p)
    (h1 : iBlocks (slot m.fs.disk p) = 1) {j : Nat} (hj : 512 ≤ j) :
    lookedAt m p j = m.user 0 j := by
  have hsize := ht.shaped.size p hp
  rw [h1] at hsize
  unfold lookedAt listed
  rw [looked_disk]
  exact blit_of_not_mem (by omega)

/-! ## The look-up -/

/-- A directory of the name, or 0 if there is none. -/
def ChildOf (d : Disk) (p : Nat) (c : List UInt8) (q : Nat) : Prop :=
  (∃ e ∈ entries d p, dirNamed c e = true ∧ q = e.inode) ∨
    (∀ e ∈ entries d p, dirNamed c e = false) ∧ q = 0

/-- The directory has the name, or nothing stale has. -/
def NoGhost (m : Machine) (p : Nat) (c : List UInt8) : Prop :=
  (∃ e ∈ entries m.fs.disk p, dirNamed c e = true) ∨ ∀ e ∈ stale m, dirNamed c e = false

section FindChild

variable {m : Machine} {p : Nat}

/-- The first directory of the name, in the directory and then among what is stale. -/
theorem findChildInode_eq (ht : Tree m.fs) (hp : IsDirectory m.fs.disk p)
    (h1 : iBlocks (slot m.fs.disk p) = 1) (c : List UInt8) :
    Program.run answer (findChildInode p c) m =
      (some ((((entries m.fs.disk p ++ stale m).find? (dirNamed c)).map Entry.inode).getD 0),
        m.looked) := by
  have h0 : p ≠ 0 := by have := hp.isInode.1; omega
  obtain ⟨rest, heq, hrest⟩ := ht.entries_first hp
  rw [hrest h1, List.append_nil] at heq
  have hwalk : live (walked (lookedAt m p) 0) = entries m.fs.disk p ++ stale m := by
    rw [walked_tiles (lookedAt_tiles ht hp) (by decide), live_append, ← heq,
      walked_congr fun j hj => lookedAt_behind ht hp h1 hj]
    rfl
  unfold findChildInode
  rw [if_neg h0, run_scratch_bind, run_syscall_bind, answer_look ht hp]
  dsimp only
  rw [if_neg (by decide), childWalk_eq, hwalk]
  exact Program.run_pure _ m.looked

/-- The inode numbers of the entries are none of them 0. -/
theorem stale_ne_zero {e : Entry} (h : e ∈ stale m) : e.inode ≠ 0 := by
  obtain ⟨r, hr, rfl⟩ := List.mem_map.mp h
  exact of_decide_eq_true (List.mem_filter.mp hr).2

/-- Without a ghost the stale records do not matter. -/
theorem NoGhost.found {c : List UInt8} (h : NoGhost m p c) :
    (((entries m.fs.disk p ++ stale m).find? (dirNamed c)).map Entry.inode).getD 0 =
      (enter m.fs.disk p c).getD 0 := by
  unfold enter
  rw [List.find?_append]
  cases hf : (entries m.fs.disk p).find? (dirNamed c) with
  | some e => rfl
  | none =>
    have hstale : (stale m).find? (dirNamed c) = none := by
      refine List.find?_eq_none.mpr fun e he hn => ?_
      rcases h with ⟨e', he', hn'⟩ | h
      · exact List.find?_eq_none.mp hf e' he' hn'
      · rw [h e he] at hn
        cases hn
    rw [hstale]
    rfl

/-- What the entry list says is right. -/
theorem enter_childOf (d : Disk) (p : Nat) (c : List UInt8) :
    ChildOf d p c ((enter d p c).getD 0) := by
  unfold enter
  cases hf : (entries d p).find? (dirNamed c) with
  | some e => exact Or.inl ⟨e, List.mem_of_find?_eq_some hf, List.find?_some hf, rfl⟩
  | none =>
    exact Or.inr ⟨fun e he => Bool.eq_false_iff.mpr (List.find?_eq_none.mp hf e he), rfl⟩

/-- What is found is right exactly if there is no ghost. -/
theorem found_childOf {c : List UInt8} : ChildOf m.fs.disk p c
    ((((entries m.fs.disk p ++ stale m).find? (dirNamed c)).map Entry.inode).getD 0) ↔
      NoGhost m p c := by
  constructor
  · rintro (⟨e, he, hn, -⟩ | ⟨hnone, hzero⟩)
    · exact Or.inl ⟨e, he, hn⟩
    · refine Or.inr fun e he => Bool.eq_false_iff.mpr fun hn => ?_
      obtain ⟨e', hf⟩ := Option.isSome_iff_exists.mp (List.find?_isSome.mpr ⟨e, he, hn⟩)
      have hnot : (entries m.fs.disk p).find? (dirNamed c) = none :=
        List.find?_eq_none.mpr fun e he hn => by rw [hnone e he] at hn; cases hn
      rw [List.find?_append, hnot, Option.none_or, hf] at hzero
      exact stale_ne_zero (List.mem_of_find?_eq_some hf) hzero
  · intro h
    rw [h.found]
    exact enter_childOf _ _ _

end FindChild

/-- Two look-ups that differ in what the buffer held before are right, and so the same, exactly if
    neither has a ghost. -/
theorem find_child_no_ghosts {m : Machine} {p : Nat} (ht : Tree m.fs) (hp : IsDirectory m.fs.disk p)
    (h1 : iBlocks (slot m.fs.disk p) = 1) (c : List UInt8) (user : Nat → Mem) :
    ∃ q q', (Program.run answer (findChildInode p c) m).1 = some q ∧
      (Program.run answer (findChildInode p c) { m with user := user }).1 = some q' ∧
      ((ChildOf m.fs.disk p c q ∧ ChildOf m.fs.disk p c q') ∧ q = q' ↔
        NoGhost m p c ∧ NoGhost { m with user := user } p c) := by
  refine ⟨_, _, congrArg Prod.fst (findChildInode_eq ht hp h1 c),
    congrArg Prod.fst (@findChildInode_eq { m with user := user } p ht hp h1 c), ?_⟩
  rw [found_childOf, @found_childOf { m with user := user } p c]
  exact and_iff_left_of_imp fun h => h.1.found.trans h.2.found.symm

/-- `bin` in the root directory, with zeros and with other bytes in the buffer. -/
theorem find_child_no_ghosts_bin : ∃ q q',
    (Program.run answer (findChildInode 1 [98, 105, 110]) (Machine.zeros binFs)).1 = some q ∧
      (Program.run answer (findChildInode 1 [98, 105, 110])
        { Machine.zeros binFs with user := fun _ _ => 255 }).1 = some q' ∧
      (ChildOf binFs.disk 1 [98, 105, 110] q ∧ ChildOf binFs.disk 1 [98, 105, 110] q') ∧
        q = q' := by
  obtain ⟨ht, hroot, -, A, B, -, heq⟩ := binFs_root
  have h1 := binFs_blocks.1
  generalize binFs = fs at ht hroot heq h1 ⊢
  have hmem : ∃ e ∈ entries fs.disk 1, dirNamed [98, 105, 110] e = true :=
    ⟨⟨[98, 105, 110], 2, 2⟩, by rw [heq]; simp, rfl⟩
  obtain ⟨q, q', hq, hq', hiff⟩ :=
    @find_child_no_ghosts (Machine.zeros fs) 1 ht hroot h1 [98, 105, 110] fun _ _ => 255
  exact ⟨q, q', hq, hq', hiff.mpr ⟨Or.inl hmem, Or.inl hmem⟩⟩

/-- A buffer with a directory `x` of inode 5 behind the first block. -/
def ghostBuffer : Mem := fun j =>
  if j = 512 then 5 else if j = 517 then 30 else if j = 518 then 1 else if j = 520 then 2
  else if j = 521 then 120 else 0

/-- In the root directory is no `x`, and it is found all the same. -/
theorem find_child_ghost :
    (Program.run answer (findChildInode 1 [120]) (Machine.zeros binFs)).1 = some 0 ∧
      (Program.run answer (findChildInode 1 [120])
        { Machine.zeros binFs with user := fun _ => ghostBuffer }).1 = some 5 ∧
      ¬ ChildOf binFs.disk 1 [120] 5 := by
  obtain ⟨ht, hroot, -, A, B, hAB, heq⟩ := binFs_root
  have h1 := binFs_blocks.1
  generalize binFs = fs at ht hroot heq h1 ⊢
  have hnone : ∀ e ∈ entries fs.disk 1, dirNamed [120] e = false := by
    intro e he
    rw [heq, List.mem_append, List.mem_cons, or_left_comm, ← List.mem_append, hAB] at he
    rcases he with rfl | he
    · rfl
    · rcases mem_dotEntries.mp he with rfl | rfl <;> rfl
  have hfind : (entries fs.disk 1).find? (dirNamed [120]) = none :=
    List.find?_eq_none.mpr fun e he h => by rw [hnone e he] at h; cases h
  have hghost : stale { Machine.zeros fs with user := fun _ => ghostBuffer } = [⟨[120], 5, 2⟩] := by
    unfold stale
    dsimp only
    rw [walked, dif_pos (by decide), dif_neg (by decide), walked, dif_neg (by decide)]
    decide
  refine ⟨?_, ?_, ?_⟩
  · rw [@findChildInode_eq (Machine.zeros fs) 1 ht hroot h1, stale_zeros, List.append_nil]
    show some (((entries fs.disk 1).find? (dirNamed [120])).map Entry.inode |>.getD 0) = some 0
    rw [hfind]
    rfl
  · rw [@findChildInode_eq { Machine.zeros fs with user := fun _ => ghostBuffer } 1 ht hroot h1,
      hghost, List.find?_append]
    show some ((((entries fs.disk 1).find? (dirNamed [120])).or _).map Entry.inode |>.getD 0) =
      some 5
    rw [hfind]
    rfl
  · rintro (⟨e, he, hn, -⟩ | ⟨-, h5⟩)
    · rw [hnone e he] at hn
      cases hn
    · cases h5

end LossOs.Shell
