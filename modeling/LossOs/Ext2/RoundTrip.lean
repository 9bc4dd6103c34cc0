/-
  A file that is written can be read back.

  `read_write`: on a consistent state, with room in the parent, a free inode and enough free
  blocks from its group on, `write` returns 0 and every later `read` of the name with a large
  enough buffer yields the bytes of the request.
-/
import LossOs.Ext2.Stored
import LossOs.Ext2.Fresh

namespace LossOs.Ext2

open LossOs.Lib

/-- The new entry is the one that is found under its name. -/
theorem Created.find_new {request : EXT2DriverRequest} {fs fs' : Fs} {p i : Nat} {ni : Mem}
    {L : List Nat} (h : Created request fs fs' p i ni L) :
    (entries fs'.disk p).find? (fun e => e.name == requestName request) =
      some (newEntry request i) := by
  obtain ⟨A, B, -, he, hA⟩ := h.parentEntries
  rw [he, List.find?_append, List.find?_eq_none.mpr fun e hm => by simpa using hA e hm,
    List.find?_cons_of_pos (by simp [newEntry])]
  rfl

theorem read_write (request : EXT2DriverRequest) {fs : Fs} (hc : Consistent fs)
    (hp : IsDirectory fs.disk request.parentInode.toNat) (hreg : isDirRequest request = false)
    {q : Nat × Rec} (hhit : firstHit request fs.disk request.parentInode.toNat = some q)
    (hn : q.2.named request = false) {i : Nat} (hi : firstFreeInode fs.disk = some i)
    (hroom : blocksNeeded (exactBlocks request) ≤ (freeFrom fs.disk (inodeToBgd i)).card) :
    (write request fs).1 = 0 ∧ ∀ (rd : EXT2DriverRequest) (stack : Mem),
      rd.parentInode = request.parentInode → requestName rd = requestName request →
      request.bufferSize ≤ rd.bufferSize →
        (read rd ((write request fs).2.withStack stack)).1 = 0 ∧
        ∀ k, (read rd ((write request fs).2.withStack stack)).2 k =
          if k < request.bufferSize.toNat then request.buf k else rd.buf k := by
  obtain ⟨h0, ni, L, X, hh⟩ := write_hole request hc.ready hc.freeSlot hp.isInode hp.dir
    (hc.parentOk hp.isInode hp.dir) hhit hn hi
  refine ⟨h0, fun rd stack hpar hname hsize => ?_⟩
  generalize (write request fs).2 = fs' at hh ⊢
  have hX : X = [] := hh.room_iff.mpr fun hd => by rw [hreg] at hd; cases hd
  subst hX
  obtain ⟨pre, post, xs, ys, hs⟩ := Stop.of_firstHit hhit hn
  have hcr := hh.created hc hp hs
  have hcount := blockCount_exact hroom (card_freeFrom_le _ _)
  obtain ⟨t, ht⟩ := (hh.made.stored_iff hreg hh.slotSelf hh.took.used_of_mem).mpr
    ⟨hcount, by rw [hcount]; exact hroom⟩
  have hdir : IsDirectory fs'.disk request.parentInode.toNat :=
    (hcr.isDirectory_iff (hcr.ne_of_used hp.used)).mpr hp
  have hfind := hcr.find_new
  rw [← hpar] at hdir hfind
  rw [← hname] at hfind
  exact (hcr.consistent.withStack stack).read_stored hdir hfind rfl (requestFileType_file hreg)
    hh.took.isInode ht (UInt32.le_iff_toNat_le.mp hsize)

/-- A first file of three bytes. -/
theorem read_write_fresh : (read (rootRequest [97] [0, 0, 0] false)
    ((write (rootRequest [97] [7, 8, 9] false) freshFs).2.withStack fun _ => 1)).1 = 0 := by
  have hf := isFresh_freshFs.formatted
  have hone : blocksNeeded (exactBlocks (rootRequest [97] [7, 8, 9] false)) = 1 := by decide
  exact ((read_write (rootRequest [97] [7, 8, 9] false) hf.consistent
    (hf.isDirectory_iff.mpr rfl) (by decide) (hf.stop (by decide) (by decide)).firstHit (by decide)
    hf.firstFreeInode (hone ▸ hf.card_pos)).2
      (rootRequest [97] [0, 0, 0] false) (fun _ => 1) rfl rfl (by decide)).1

end LossOs.Ext2
