/-
  The free counters of the groups.

  Both counters of every group stay the numbers of clear bits in its bitmaps, whatever `write` and
  `delete` return (`call_counters`). It takes less than consistency: what `deallocate_node` would
  visit for an allocated inode is data in use and visited once, and live entries name allocated
  inodes (`Accounted`).
-/
import LossOs.Ext2.Runs
import LossOs.Ext2.Fresh

namespace LossOs.Ext2

open LossOs.Lib

/-- `delete` changes nothing, or gives back the inode of the first entry of the name, with the
    blocks that `deallocate_node` visits. -/
theorem delete_freed {request : EXT2DriverRequest} {fs : Fs} (hl : Layout fs)
    (hp : IsInode request.parentInode.toNat)
    (hok : isDir fs.disk request.parentInode.toNat = true →
      ParentOk fs.disk request.parentInode.toNat) :
    ((delete request fs).1 ≠ 0 ∧ (delete request fs).2 = fs) ∨
    ((delete request fs).1 = 0 ∧ isDir fs.disk request.parentInode.toNat = true ∧
      ∃ b e, firstNamed request fs.disk request.parentInode.toNat = some e ∧
        (request.isDirectory = true → e.fileType = 2 ∧ isDirectoryEmpty e.inode fs = true) ∧
        (request.isDirectory = false → e.fileType = 1) ∧
        (IsInode e.inode → (∀ c ∈ fileBlocks fs.disk (slot fs.disk e.inode), IsData c) →
          Freed fs (delete request fs).2 e.inode (fileBlocks fs.disk (slot fs.disk e.inode))
            [b])) := by
  rcases delete_steps hl hp fun hd => (hok hd).toDirOk with
    h | ⟨pre, b, post, xs, r, ys, hd, hbs, hrs, hn, hpre, hxs, h1, h2, he⟩
  · exact Or.inl h
  · right
    have hb := ((hok hd).data b (by rw [hbs]; simp)).1
    rw [he]
    exact ⟨rfl, hd, b, r.entry, firstNamed_eq hbs hrs hn hpre hxs, h1, h2,
      fun hi hdata => removeAt_freed hl hb xs hi hdata⟩

/-- What the counters depend on. -/
structure Accounted (fs : Fs) : Prop where
  ready : Ready fs
  freeSlot : FreeSlots fs.disk
  data : ∀ i, IsInode i → inodeUsed fs.disk i = true →
    ∀ b ∈ fileBlocks fs.disk (slot fs.disk i), IsData b ∧ blockUsed fs.disk b = true
  nodup : ∀ i, IsInode i → inodeUsed fs.disk i = true →
    (fileBlocks fs.disk (slot fs.disk i)).Nodup
  size : ∀ p, IsDirectory fs.disk p → iBlocks (slot fs.disk p) ≤ 12
  blocks : ∀ p, IsDirectory fs.disk p → ∀ b ∈ dirBlocks (slot fs.disk p), IsDirBlock (fs.disk b)
  live : ∀ p, IsDirectory fs.disk p → ∀ e ∈ entries fs.disk p,
    IsInode e.inode ∧ inodeUsed fs.disk e.inode = true

theorem Accounted.parentOk {fs : Fs} (h : Accounted fs) {p : Nat} (hp : IsInode p)
    (hd : isDir fs.disk p = true) : ParentOk fs.disk p := by
  have hdir := h.freeSlot.isDirectory hp hd
  have hsize := h.size p hdir
  refine ⟨⟨by omega, h.blocks p hdir⟩, fun b hb => h.data p hp hdir.used b ?_⟩
  rwa [fileBlocks_of_le hsize]

/-- After every `write` and every `delete`, whatever it returns, the counters of each group are
    the numbers of clear bits in its bitmaps. -/
theorem call_counters {c : Call} {fs : Fs} (h : Accounted fs)
    (hp : IsInode c.request.parentInode.toNat) : Counters (c.run fs).2 := by
  have hcnt := h.ready.counters
  cases c with
  | write request =>
    have hw := write_cases request h.ready h.freeSlot hp fun hd => h.parentOk hp hd
    rw [Call.run_write]
    generalize write request fs = res at hw ⊢
    obtain ⟨code, fs'⟩ := res
    dsimp only at hw ⊢
    cases hw with
    | notDir => exact hcnt
    | duplicate => exact hcnt
    | noInode => exact hcnt
    | noBlock => exact hcnt
    | halfGrown nb _ _ hgrab => exact hgrab.counters hcnt
    | hole b r _ _ _ hhole => exact hhole.took.counters hcnt
    | grow nb _ _ _ _ hgrow => exact hgrow.took.counters hcnt
  | delete request =>
    rw [Call.run_delete]
    rcases delete_freed h.ready.layout hp fun hd => h.parentOk hp hd with
      ⟨-, he⟩ | ⟨-, hd, b, e, hfirst, -, -, hfreed⟩
    · rw [show (delete request fs).2 = fs from he]
      exact hcnt
    · obtain ⟨hi, hu⟩ := h.live _ (h.freeSlot.isDirectory hp hd) e (firstNamed_mem hfirst).1
      have hL := h.data _ hi hu
      exact (hfreed hi fun c hc => (hL c hc).1).counters (h.nodup _ hi hu)
        (fun c hc => ⟨(hL c hc).1.1, (hL c hc).2⟩) hu hcnt

/-- A fresh file system is accounted for. -/
theorem Formatted.accounted {fs : Fs} (h : Formatted fs) : Accounted fs := by
  have hc := h.consistent
  have hroot : ∀ p, IsDirectory fs.disk p → p = 1 := fun p hp => h.isDirectory_iff.mp hp
  have hreach : ∀ i, IsInode i → inodeUsed fs.disk i = true →
      (fileBlocks fs.disk (slot fs.disk i)).Sublist (reach fs.disk i) := by
    intro i hi hu
    rw [h.inodes i hi, decide_eq_true_iff] at hu
    subst hu
    exact fileBlocks_reach fun _ => by rw [h.iBlocks_root]; decide
  refine ⟨hc.ready, hc.freeSlot,
    fun i hi hu b hb => hc.owned.data i hi hu b ((hreach i hi hu).subset hb),
    fun i hi hu => (hc.owned.nodup i hi hu).sublist (hreach i hi hu), fun p hp => ?_,
    fun p hp => (hc.dirOk p hp).blocks, fun p hp e he => ?_⟩
  · rw [hroot p hp, h.iBlocks_root]
    decide
  · rw [hroot p hp, h.rootEntries] at he
    have : e.inode = 1 := by
      rcases mem_dotEntries.mp he with rfl | rfl <;> rfl
    rw [this, h.inodes 1 (by decide)]
    exact ⟨by decide, rfl⟩

theorem call_counters_fresh : Counters ((Call.write (rootRequest [97] [7] false)).run freshFs).2 :=
  call_counters isFresh_freshFs.formatted.accounted (by decide)

end LossOs.Ext2
