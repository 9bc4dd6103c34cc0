/-
  The machine is switched off and on.

  What the driver holds in memory is lost, and `initialize_filesystem_ext2` mounts the disk again.
  No call writes the boot block, so the signature stays and the disk is not formatted
  (`Tree.boot_kept`); where the cache and the disk agree (`Remounts`), the driver holds what it
  held before (`Mounted.reboot`).
-/
import LossOs.Ext2.Remount
import LossOs.Ext2.Tree

namespace LossOs.Ext2

open LossOs.Lib

/-! ## The boot block -/

section Boot

variable {request : EXT2DriverRequest} {fs fs' fs₀ fs₁ : Fs} {i b : Nat} {L M : List Nat}

theorem IsData.boot_ne (h : IsData b) : 0 ≠ b := by
  have := h.2.1
  omega

theorem blockBitmapAt_ne_boot (g : Nat) : 0 ≠ blockBitmapAt g := by
  unfold blockBitmapAt
  split <;> omega

theorem Grab.boot (h : Grab fs fs' L) : fs'.disk 0 = fs.disk 0 :=
  h.frame 0 (fun hb => (h.data 0 hb).boot_ne rfl) (fun g _ => blockBitmapAt_ne_boot g)
    (by decide) (by decide)

theorem inodeBitmapAt_ne_boot (g : Nat) : 0 ≠ inodeBitmapAt g := by
  unfold inodeBitmapAt
  split <;> omega

theorem inodeBlockAt_ne_boot (j : Nat) : 0 ≠ inodeBlockAt j := by
  have := inodeBlockAt_ge j
  omega

theorem GrabInode.boot (h : GrabInode fs fs' i) : fs'.disk 0 = fs.disk 0 :=
  h.frame 0 (inodeBitmapAt_ne_boot _) (by decide) (by decide)

theorem Release.boot (h : Release fs fs' L) : fs'.disk 0 = fs.disk 0 :=
  h.frame 0 fun g _ => blockBitmapAt_ne_boot g

theorem syncMetadata_boot (fs : Fs) : (syncMetadata fs).disk 0 = fs.disk 0 :=
  syncMetadata_disk (by decide) (by decide)

theorem writeBlocks_boot {n : Nat} (h : 0 ≠ n) (fs : Fs) (buf : Mem) :
    (fs.writeBlocks n buf).disk 0 = fs.disk 0 := by
  rw [writeBlocks_disk, Function.update_of_ne h]

theorem syncNode_boot (hl : Layout fs) (hi : IsInode i) (node : Mem) :
    (syncNode node i fs).disk 0 = fs.disk 0 := by
  rw [syncNode_eq hl hi, writeBlocks_boot (inodeBlockAt_ne_boot i)]

/-- Where the pointers of the slot are zero, a new inode is built without the boot block. -/
theorem createNode_boot (hr : Ready fs) (hi : IsInode i) (hz : ∀ o, slot fs.disk i o = 0) :
    (createNode request i fs).disk 0 = fs.disk 0 := by
  unfold createNode buildNode
  cases hreg : isDirRequest request with
  | false =>
    rw [if_neg (by decide)]
    dsimp only
    generalize hnode : setIBlocks (setISize (setIMode _ 0x8000) _) _ = node
    have h0 : ∀ j < 14, iBlock node j = 0 := by
      intro j hj
      obtain ⟨-, -, -, h⟩ := header_fields
        (view (fs.readBlocks (fs.inodeBlock i)) (slotOffset i)) 0x8000
        request.bufferSize.toNat ((request.bufferSize + 512 - 1) / 512).toNat (by decide)
        request.bufferSize.toNat_lt (UInt32.toNat_lt _)
      rw [← hnode, h, iBlock_of_zero hr.layout hi hz (by omega)]
    obtain ⟨ni, fs₂, t, heq, hlaid⟩ :=
      allocateNodeBlocks_spec request.buf node (inodeToBgd i) hr h0
    rw [heq]
    exact (syncNode_boot (hlaid.grab.layout hr.layout) hi ni).trans hlaid.grab.boot
  | true =>
    rw [if_pos rfl]
    unfold initDirectoryTable
    -- the block is a free one, or the first data block of the group
    have hpick : ∃ b fs₂, pickDirBlock (inodeToBgd i) fs = (b, fs₂) ∧ 0 ≠ b ∧
        Layout fs₂ ∧ fs₂.disk 0 = fs.disk 0 := by
      rcases pickDirBlock_spec hr (inodeToBgd i) with ⟨b, fs₂, he, hg, -⟩ | ⟨-, he⟩
      · exact ⟨b, fs₂, he, (hg.data b (by simp)).boot_ne, hg.layout hr.layout, hg.boot⟩
      · exact ⟨_, fs, he, (isData_fallbackBlock (inodeToBgd_lt hi)).boot_ne, hr.layout, rfl⟩
    obtain ⟨b, fs₂, he, hb, hl, hboot⟩ := hpick
    rw [he]
    dsimp only
    generalize hfs₃ : fs₂.writeBlocks b _ = fs₃
    have hl₃ : Layout fs₃ := by
      rw [← hfs₃]
      exact ⟨hl.blockBitmap, hl.inodeBitmap, hl.inodeTable⟩
    have hboot₃ : fs₃.disk 0 = fs.disk 0 := by rw [← hfs₃, writeBlocks_boot hb, hboot]
    have hbm : (fs₃.bgdtCache 0).bgBlockBitmap ≠ 0 := by
      intro hc
      have := hl₃.blockBitmap 0 (by decide)
      rw [hc] at this
      cases this
    rw [if_pos hbm, syncNode_boot _ hi, modifyDesc_disk, syncMetadata_boot, hboot₃]
    exact hl₃.of_geometry ((modifyDesc_dirs_geometry (syncMetadata fs₃) (inodeToBgd i) fun d =>
      d.bgUsedDirsCount + 1).trans (syncMetadata_geometry fs₃))

theorem writeHole_boot (hr : Ready fs) (hz : FreeSlots fs.disk) (hb : 0 ≠ b) (off : Nat) :
    (writeHole request b off fs).2.disk 0 = fs.disk 0 := by
  unfold writeHole
  rcases allocateNode_spec hr with ⟨he, -⟩ | ⟨i, fs₁, he, hi⟩
  · rw [he]
    rfl
  · rw [he]
    dsimp only
    rw [if_neg hi.ne_zero, syncMetadata_boot, writeBlocks_boot hb,
      createNode_boot (hi.ready hr) hi.isInode, hi.boot]
    intro o
    rw [hi.slot_eq]
    exact hz i hi.isInode hi.fresh o

theorem writeGrow_boot (hr : Ready fs) (hz : FreeSlots fs.disk)
    (hp : IsInode request.parentInode.toNat) (buf : Mem) :
    (writeGrow request buf fs).2.disk 0 = fs.disk 0 := by
  unfold writeGrow
  dsimp only
  rw [growSearch_eq hr, hr.layout.inodeBlock_eq hp]
  rcases searchBlock_spec hr (inodeToBgd request.parentInode.toNat) with
    ⟨he, -⟩ | ⟨nb, fs₀, he, -, hg, -⟩
  · rw [he]
    rfl
  · have hnb := (hg.data nb (by simp)).boot_ne
    have hr₀ := hg.ready hr
    rw [he, Option.getD_some]
    dsimp only
    rw [if_neg hnb.symm]
    rcases allocateNode_spec hr₀ with ⟨hi, -⟩ | ⟨i, fs₁, hi, hgi⟩
    · rw [hi]
      exact hg.boot
    · rw [hi]
      dsimp only
      rw [if_neg hgi.ne_zero, syncMetadata_boot, writeBlocks_boot (inodeBlockAt_ne_boot _),
        writeBlocks_boot hnb, createNode_boot (hgi.ready hr₀) hgi.isInode, hgi.boot, hg.boot]
      intro o
      rw [hgi.slot_eq, hg.slot_eq]
      refine hz i hgi.isInode ?_ o
      rw [← hg.inodeUsed_eq hgi.isInode]
      exact hgi.fresh

theorem fileBlocks_congr_node {d : Disk} {m m' : Mem} (h : ∀ o < 70, m o = m' o) :
    fileBlocks d m = fileBlocks d m' := by
  unfold fileBlocks singleRest
  rw [iBlocks_congr h, iBlock_congr h (by decide : 12 < 15), iBlock_congr h (by decide : 13 < 15),
    nonzero_congr fun j hj => iBlock_congr h (by omega)]

/-- The blocks of an inode are given back without the boot block. -/
theorem deallocateNode_boot (hl : Layout fs) (hi : IsInode i)
    (hdata : ∀ c ∈ fileBlocks fs.disk (slot fs.disk i), IsData c) :
    (deallocateNode i fs).disk 0 = fs.disk 0 := by
  have hnode : ∀ o < 70, view (fs.readBlocks (fs.inodeBlock i)) (slotOffset i) o =
      slot fs.disk i o := fun o ho => hl.node_apply hi ho
  rw [deallocateNode_eq (by have := hi.1; omega)]
  generalize hnd : view (fs.readBlocks (fs.inodeBlock i)) (slotOffset i) = node at hnode
  have hl₁ := dropDir_layout (inodeToBgd i) node hl
  have hd₁ := dropDir_disk (inodeToBgd i) node fs
  generalize dropDir (inodeToBgd i) node fs = fs₁ at hl₁ hd₁ ⊢
  have hfb : fileBlocks fs₁.disk node = fileBlocks fs.disk (slot fs.disk i) := by
    rw [hd₁]
    exact fileBlocks_congr_node hnode
  have hrel := freeBlocks_release hl₁ fun c hc => (hdata c (hfb ▸ hc)).1
  rw [freeNodeBlocks_eq hl₁ fun c hc => hdata c (hfb ▸ hc)]
  generalize (fileBlocks fs₁.disk node).foldl freeBlock fs₁ = fs₂ at hrel ⊢
  have hl₂ := hrel.layout hl₁
  unfold dropInode
  dsimp only
  rw [syncMetadata_boot]
  simp only [modifyDesc_disk, writeBlocks_bgdtCache]
  rw [hl₂.inodeBitmap _ (inodeToBgd_lt hi), hl₂.inodeBlock_eq hi,
    writeBlocks_boot (inodeBitmapAt_ne_boot _), writeBlocks_boot (inodeBlockAt_ne_boot _),
    hrel.boot, hd₁]

/-- No `write` touches the boot block. -/
theorem Consistent.write_boot (hc : Consistent fs) (h896 : request.parentInode.toNat ≤ 896) :
    (write request fs).2.disk 0 = fs.disk 0 := by
  by_cases h0 : request.parentInode.toNat = 0
  · rw [write_parent_zero h0]
  · have hp : IsInode request.parentInode.toNat := ⟨by omega, h896⟩
    cases hd : isDir fs.disk request.parentInode.toNat with
    | false => rw [write_of_not_dir hc.ready.layout hp hd]
    | true =>
      have hdir := hc.isDirectory hp hd
      rw [write_eq hc.ready.layout hp hd (hc.dirOk _ hdir)]
      cases hhit : firstHit request fs.disk request.parentInode.toNat with
      | none => exact writeGrow_boot hc.ready hc.freeSlot hp _
      | some q =>
        dsimp only
        split
        · rfl
        · have hb := (mem_dirRecords.mp (List.mem_of_find?_eq_some hhit)).1
          exact writeHole_boot hc.ready hc.freeSlot (hc.dirBlock hdir hb).1.boot_ne _

/-- No `delete` does, when its victim is in use and has its blocks where they are looked for. -/
theorem Consistent.delete_boot (hc : Consistent fs) (h896 : request.parentInode.toNat ≤ 896)
    (hvictim : ∀ e, IsDirectory fs.disk request.parentInode.toNat →
      firstNamed request fs.disk request.parentInode.toNat = some e →
      (request.isDirectory = true → e.fileType = 2 ∧ isDirectoryEmpty e.inode fs = true) →
      (request.isDirectory = false → e.fileType = 1) →
      IsInode e.inode ∧ inodeUsed fs.disk e.inode = true ∧
        (isDir fs.disk e.inode = true → iBlocks (slot fs.disk e.inode) ≤ 12)) :
    (delete request fs).2.disk 0 = fs.disk 0 := by
  by_cases h0 : request.parentInode.toNat = 0
  · rw [delete_parent_zero h0]
  · have hp : IsInode request.parentInode.toNat := ⟨by omega, h896⟩
    rcases delete_steps hc.ready.layout hp fun hd => hc.dirOk _ (hc.isDirectory hp hd) with
      ⟨-, he⟩ | ⟨pre, b, post, xs, r, ys, hd, hbs, hrs, hn, hpre, hxs, htwo, hone, he⟩
    · rw [he]
    · have hdir := hc.isDirectory hp hd
      obtain ⟨hi, hu, h12⟩ := hvictim _ hdir (firstNamed_eq hbs hrs hn hpre hxs) htwo hone
      have hb := (hc.dirBlock hdir (c := b) (by rw [hbs]; simp)).1.boot_ne
      have hsub := fileBlocks_reach h12
      rw [he]
      unfold removeAt
      rw [syncMetadata_boot, writeBlocks_boot hb]
      exact deallocateNode_boot hc.ready.layout hi fun c hcb =>
        (hc.owned.data r.inode hi hu c (hsub.subset hcb)).1

end Boot

/-- A careful call leaves the boot block alone. -/
theorem Tree.boot_kept {fs : Fs} (ht : Tree fs) {c : Call} (hok : Careful c fs) :
    (c.run fs).2.disk 0 = fs.disk 0 := by
  have hc := ht.consistent
  have h896 : c.request.parentInode.toNat ≤ 896 := hok.parent
  cases c with
  | write request => exact hc.write_boot h896
  | delete request =>
    refine hc.delete_boot h896 fun e hp he htwo hone => ?_
    have hm := (firstNamed_mem he).1
    obtain ⟨hi, hu, -⟩ := ht.sound.noDangling.entry _ hp e hm
    refine ⟨hi, hu, fun hd => ?_⟩
    have h2 := (ht.sound.noDangling.isDir_iff hp hm).mp ⟨hi, hu, hd⟩
    cases hreq : request.isDirectory with
    | true => exact hok.delete _ e rfl hreq he h2 (htwo hreq).2
    | false =>
      rw [hone hreq] at h2
      cases h2

/-! ## Mounting again -/

/-- A file system in use: the driver's cache agrees with the disk, which carries the signature. -/
structure Mounted (fs : Fs) : Prop where
  tree : Tree fs
  remounts : Remounts fs
  signed : isEmptyStorage fs = false

/-- The driver sees a disk through the descriptors of its groups. -/
theorem Tree.of_cache {fs fs' : Fs} (ht : Tree fs) (hd : fs'.disk = fs.disk)
    (hg : ∀ g < 8, fs'.bgdtCache g = fs.bgdtCache g) : Tree fs' := by
  obtain ⟨⟨⟨⟨⟨hb, hi, ht'⟩, ⟨hcb, hci⟩, hm⟩, ho, hz, hok, hfull⟩, honce, hroot, hag, hdots⟩,
    ⟨⟨-, hin, honce', hkinds⟩, hdot, hsize⟩, h2, hr, hf⟩ := ht
  have hc : Consistent fs' := by
    refine ⟨⟨⟨fun g h => ?_, fun g h => ?_, fun g h => ?_⟩, ⟨fun g h => ?_, fun g h => ?_⟩,
      hd ▸ hm⟩, hd ▸ ho, hd ▸ hz, hd ▸ hok, hd ▸ hfull⟩
    · rw [hg g h, hb g h]
    · rw [hg g h, hi g h]
    · rw [hg g h, ht' g h]
    · rw [hg g h, hcb g h, hd]
    · rw [hg g h, hci g h, hd]
  rw [← hd] at honce hroot hag hdots hin honce' hkinds hdot hsize h2 hr hf
  exact ⟨⟨hc, honce, hroot, hag, hdots⟩, ⟨⟨hc, hin, honce', hkinds⟩, hdot, hsize⟩, h2, hr, hf⟩

/-- What mounting a signed disk loads. -/
theorem Mounted.reboot {fs ram : Fs} (h : Mounted fs) (hd : ram.disk = fs.disk) :
    Mounted (initializeFilesystemExt2 ram) ∧ (initializeFilesystemExt2 ram).disk = fs.disk ∧
      ∀ g < 8, (initializeFilesystemExt2 ram).bgdtCache g = fs.bgdtCache g := by
  have hread : ∀ n, ∀ o < 512, ram.readBlocks n o = fs.readBlocks n o := fun n o ho => by
    rw [readBlocks_of_lt _ _ ho, readBlocks_of_lt _ _ ho, hd]
  have hsig : ∀ fs' : Fs, fs'.disk = fs.disk → isEmptyStorage fs' = false := by
    intro fs' hd'
    rw [← h.signed]
    unfold isEmptyStorage
    rw [rd16_congr fun o _ ho => by
      rw [readBlocks_of_lt _ _ (by omega), hd', ← readBlocks_of_lt fs _ (by omega)]]
  have hdisk : (initializeFilesystemExt2 ram).disk = fs.disk := by
    unfold initializeFilesystemExt2
    rw [if_neg (by rw [hsig ram hd]; decide)]
    exact hd
  have hcache : ∀ g < 8, (initializeFilesystemExt2 ram).bgdtCache g = fs.bgdtCache g := by
    intro g hg
    unfold initializeFilesystemExt2
    rw [if_neg (by rw [hsig ram hd]; decide)]
    refine (if_pos hg).trans ((load_congr fun o _ ho => ?_).trans (h.remounts.groups g hg))
    exact hread 2 o (by omega)
  exact ⟨⟨h.tree.of_cache hdisk hcache, remounts_boot ram, hsig _ hdisk⟩, hdisk, hcache⟩

/-- A careful call that does not stop half way leaves the file system in use. -/
theorem Mounted.call {fs : Fs} (h : Mounted fs) {c : Call} (hok : Careful c fs)
    (hfl : Flushes c fs) : Mounted (c.run fs).2 := by
  refine ⟨h.tree.run hok, h.remounts.call h.tree.consistent.ready.layout hfl, ?_⟩
  rw [← h.signed]
  unfold isEmptyStorage
  rw [rd16_congr fun o _ ho => by
    rw [readBlocks_of_lt _ _ (by omega), h.tree.boot_kept hok, ← readBlocks_of_lt fs _ (by omega)]]

theorem Mounted.withStack {fs : Fs} (h : Mounted fs) (s : Mem) : Mounted (fs.withStack s) := by
  refine ⟨h.tree.withStack s, h.remounts.withStack s, ?_⟩
  rw [← h.signed]
  unfold isEmptyStorage
  rw [rd16_congr fun o _ ho => by
    rw [readBlocks_of_lt _ _ (by omega), withStack_disk, ← readBlocks_of_lt fs _ (by omega)]]

/-- `create_ext2` starts the disk with the signature. -/
theorem createExt2_boot {fs : Fs} (h : (fs.bgdtCache 0).bgBlockBitmap = 0) :
    (createExt2 fs).disk 0 = blockOf (blit fs.zeroBuf 0 fsSignature 512) := by
  unfold createExt2 initDirectoryTable pickDirBlock
  simp only [writeBlocks_bgdtCache, h, ne_eq, not_true_eq_false, if_false]
  rw [foldl_groups]
  simp only [writeBlocks_disk, foldl_writeBlocks, Function.update_apply]
  rw [if_neg (by decide), if_neg (by decide), if_neg (by decide), if_neg (by decide),
    if_neg (by decide), if_neg (by decide), if_neg (by decide), if_neg (by decide),
    if_neg (by decide), if_pos trivial]

theorem IsFresh.mounted {fs : Fs} (h : IsFresh fs) : Mounted fs := by
  have ht := h.formatted.tree
  obtain ⟨fs₀, hb, rfl⟩ := h
  refine ⟨ht, remounts_boot fs₀, ?_⟩
  unfold isEmptyStorage
  rw [rd16_congr fun o _ ho => by
    rw [readBlocks_of_lt _ _ (by omega), (mounted_new hb.empty hb.cache).1,
      createExt2_boot hb.cache, mem_blockOf (by omega), blit_of_mem (by omega) (by omega),
      Nat.sub_zero]]
  rw [beq_self_eq_true]
  rfl

end LossOs.Ext2
