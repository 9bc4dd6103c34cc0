/-
  Directories in directories.

  A `write` of a directory into one that is still empty leads one name further down
  (`Nested.write`). In `nestedFs` five directories with names of 62 letters are in each other.
-/
import LossOs.Ext2.RootBlock

namespace LossOs.Ext2

open LossOs.Lib

/-- The names lead from the root to the empty directory `p`, below directory `up`. The inodes in
    `used` are in use, and at least `room` blocks are free. -/
structure Nested (fs : Fs) (ns : List (List UInt8)) (p up : Nat) (used : List Nat) (room : Nat) :
    Prop where
  tree : Tree fs
  dir : IsDirectory fs.disk p
  block : ∃ b, OneBlock fs.disk p b (dotRecords p up)
  leads : LinkGraph.Leads Entry.inode Proper Entry.name (graphOf fs.disk) ns 1 p
  inodes : ∀ j, IsInode j → inodeUsed fs.disk j = decide (j ∈ used)
  room : room ≤ (freeFrom fs.disk 0).card

section Nested

variable {fs fs' : Fs} {ns : List (List UInt8)} {p up i room : Nat} {used : List Nat}
  {request : EXT2DriverRequest}

theorem Formatted.nested (h : Formatted fs) : Nested fs [] 1 1 [1] 234 :=
  ⟨h.tree, h.rootBlock.root, ⟨21, h.rootBlock.oneBlock⟩, rfl, h.rootBlock.inodes, h.rootBlock.room⟩

/-- The entries of the old directories are still there. -/
theorem Added.leads (h : Added request fs fs' i)
    (hl : LinkGraph.Leads Entry.inode Proper Entry.name (graphOf fs.disk) ns 1 p) :
    LinkGraph.Leads Entry.inode Proper Entry.name (graphOf fs'.disk) ns 1 p := by
  refine hl.mono fun y hy => ⟨h.grafted.isDirectory hy, fun a ha => ?_⟩
  by_cases hyp : y = request.parentInode.toNat
  · subst hyp
    obtain ⟨A, B, h1, h2, -⟩ := h.entries
    rw [graphOf_links, h1] at ha
    rw [graphOf_links, h2]
    rcases List.mem_append.mp ha with ha | ha
    · exact List.mem_append_left _ ha
    · exact List.mem_append_right _ (List.mem_cons_of_mem _ ha)
  · rw [graphOf_links, (h.grafted.kept y hy.isInode hy.used hyp).entries_eq hy]
    exact ha

/-- A directory in the last one. -/
theorem Nested.write (h : Nested fs ns p up used room) (request : EXT2DriverRequest) (i : Nat)
    (hp : request.parentInode.toNat = p) (hdir : isDirRequest request = true)
    (hx : ∀ q ∈ [(⟨0, p, 12, [46], 2⟩ : Rec)], q.named request = false ∧ q.roomy request = false)
    (hr : Rec.named request ⟨12, up, 500, [46, 46], 2⟩ = false ∧
      Rec.roomy request ⟨12, up, 500, [46, 46], 2⟩ = true)
    (hi : IsInode i) (hnew : i ∉ used) (hfirst : ∀ j, 0 < j → j < i → j ∈ used)
    (hg : inodeToBgd i = 0) (hroom : 1 ≤ room) :
    Nested (LossOs.Ext2.write request fs).2 (ns ++ [requestName request]) i p (i :: used)
      (room - 1) := by
  subst hp
  obtain ⟨b, hb⟩ := h.block
  have hneeded : needed request = 1 := by
    unfold needed
    rw [hdir]
    rfl
  have hle := hroom.trans h.room
  rw [← hg, ← hneeded] at hle
  have hfree : firstFreeInode fs.disk = some i :=
    firstFreeInode_eq hi (by rw [h.inodes i hi, decide_eq_false hnew]) fun j hj hlt => by
      rw [h.inodes j hj, decide_eq_true (hfirst j hj.1 hlt)]
  obtain ⟨⟨hok, -⟩, h0, hadd, -, -, hcard⟩ :=
    h.tree.write_behind request
      [⟨0, request.parentInode.toNat, 12, [46], 2⟩] h.dir hb hx hr hfree hle
  obtain ⟨hnewdir, -⟩ := hadd.dir hdir
  rcases h.tree.sound.write_careful hok with ⟨hne, -⟩ | ⟨-, -, j, ni, L, hcreated, -⟩
  · exact absurd h0 hne
  obtain rfl : i = j := Option.some.inj (hfree.symm.trans hcreated.first)
  obtain ⟨-, -, b', hblocks, hrecords⟩ := hcreated.newDir hnewdir
  have hlast : LinkGraph.Leads Entry.inode Proper Entry.name
      (graphOf (LossOs.Ext2.write request fs).2.disk) [requestName request]
      request.parentInode.toNat i := by
    obtain ⟨A, B, -, h2, -⟩ := hadd.entries
    refine LinkGraph.leads_link (a := newEntry request i) (hadd.grafted.isDirectory h.dir) ?_
      hadd.proper
    rw [graphOf_links, h2]
    exact List.mem_append_right _ List.mem_cons_self
  refine ⟨hadd.tree, hnewdir, ⟨b', hblocks, hrecords⟩,
    LinkGraph.leads_append.mpr ⟨_, hadd.leads h.leads, hlast⟩, hadd.used_eq h.inodes, ?_⟩
  have := h.room
  omega

end Nested

/-! ## Five directories -/

/-- A name of 62 letters. -/
def letters : List UInt8 := List.replicate 62 97

/-- A directory of that name in directory `p`. -/
def nestedRequest (p : Nat) : EXT2DriverRequest :=
  { rootRequest letters [] true with parentInode := UInt32.ofNat p }

/-- A fresh file system with `n` of them, each in the one before. -/
def nestedFs : Nat → Fs
  | 0 => freshFs
  | n + 1 => written (nestedRequest (n + 1)) (nestedFs n)

/-- One directory more. -/
theorem nestedFs_succ {n up room : Nat} {ns : List (List UInt8)} {used : List Nat}
    (h : Nested (nestedFs n) ns (n + 1) up used room)
    (hp : (nestedRequest (n + 1)).parentInode.toNat = n + 1)
    (hx : ∀ q ∈ [(⟨0, n + 1, 12, [46], 2⟩ : Rec)],
      q.named (nestedRequest (n + 1)) = false ∧ q.roomy (nestedRequest (n + 1)) = false)
    (hr : Rec.named (nestedRequest (n + 1)) ⟨12, up, 500, [46, 46], 2⟩ = false ∧
      Rec.roomy (nestedRequest (n + 1)) ⟨12, up, 500, [46, 46], 2⟩ = true)
    (hi : IsInode (n + 2)) (hnew : n + 2 ∉ used) (hfirst : ∀ j < n + 2, 0 < j → j ∈ used)
    (hg : inodeToBgd (n + 2) = 0) (hroom : 1 ≤ room) :
    Nested (nestedFs (n + 1)) (ns ++ [letters]) (n + 2) (n + 1) ((n + 2) :: used) (room - 1) := by
  have hname : requestName (nestedRequest (n + 1)) = letters :=
    @requestName_root letters [] true (by decide)
  have hdir : isDirRequest (nestedRequest (n + 1)) = true := rfl
  rw [show nestedFs (n + 1) = written (nestedRequest (n + 1)) (nestedFs n) from rfl, written_eq,
    ← hname]
  exact h.write (nestedRequest (n + 1)) (n + 2) hp hdir hx hr hi hnew (mem_of_lt hfirst) hg hroom

theorem nestedFs_five :
    Nested (nestedFs 5) (List.replicate 5 letters) 6 5 [6, 5, 4, 3, 2, 1] 229 := by
  have h₀ : Nested (nestedFs 0) [] 1 1 [1] 234 := isFresh_freshFs.formatted.nested
  have h₁ := nestedFs_succ h₀ (by decide) (by decide) (by decide) (by decide) (by decide)
    (by decide) (by decide) (by decide)
  have h₂ := nestedFs_succ h₁ (by decide) (by decide) (by decide) (by decide) (by decide)
    (by decide) (by decide) (by decide)
  have h₃ := nestedFs_succ h₂ (by decide) (by decide) (by decide) (by decide) (by decide)
    (by decide) (by decide) (by decide)
  have h₄ := nestedFs_succ h₃ (by decide) (by decide) (by decide) (by decide) (by decide)
    (by decide) (by decide) (by decide)
  exact nestedFs_succ h₄ (by decide) (by decide) (by decide) (by decide) (by decide)
    (by decide) (by decide) (by decide)

end LossOs.Ext2
