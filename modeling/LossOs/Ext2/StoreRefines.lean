/-
  The driver refines the store.

  `storeOf` reads the store off a disk: the entries of each directory by their names, and of each
  file the bytes that `read` copies. Every careful call does to the store what `Serves` allows
  (`Tree.serves`), and every `read` answers by it (`Tree.answers`). With restarts between the
  calls this holds of whole runs (`driver_refines_store`).
-/
import LossOs.Ext2.Store
import LossOs.Ext2.Reboot
import LossOs.Ext2.Isolation

namespace LossOs.Ext2

open LossOs.Lib

/-! ## The bytes of a file -/

/-- The bytes that `read` copies of the file in inode `i`. -/
def contents (fs : Fs) (i : Nat) : List UInt8 :=
  let st := copyFile fs (slot fs.disk i) fun _ => 0
  bytes st.out 0 st.copied

theorem getD_bytes (m : Mem) (n k : Nat) (b : UInt8) :
    (bytes m 0 n).getD k b = if k < n then m k else b := by
  unfold bytes
  by_cases hk : k < n
  · rw [if_pos hk, List.getD_eq_getElem _ _ (by simpa using hk)]
    simp
  · rw [if_neg hk, List.getD_eq_default _ _ (by simpa using hk)]

theorem copyList_copied (fs : Fs) (L : List Nat) (st : Copy) :
    (copyList fs L st).copied = st.copied + min st.toRead (512 * L.length) := by
  induction L generalizing st with
  | nil =>
    show st.copied = _
    simp
  | cons b L ih =>
    show (copyList fs L (copyBlock fs b st)).copied = _
    rw [ih]
    unfold copyBlock
    dsimp only
    rw [List.length_cons]
    split <;> omega

section Contents

variable {fs fs' : Fs} {i : Nat} {t : FileTree} {node : Mem}

/-- The contents of a tree of pointers: the first bytes of its data blocks. -/
theorem FileTree.Holds.contents (h : t.Holds fs.disk (slot fs.disk i))
    (h0 : ∀ b ∈ t.blocks, b ≠ 0) : contents fs i =
      bytes (fun k => (fs.disk (t.data.getD (k / 512) 0)).mem (k % 512)) 0
        (min (iSize (slot fs.disk i)) (512 * t.data.length)) := by
  unfold LossOs.Ext2.contents
  dsimp only
  rw [copyFile_eq h h0, copyList_copied]
  dsimp only
  rw [Nat.zero_add]
  apply bytes_congr
  intro k _ hk
  rw [copyList_out, if_pos (by dsimp only; omega)]
  rfl

/-- `read` lays the contents over the caller's buffer. -/
theorem TreeFile.copyFile_out (h : TreeFile fs.disk i) (hn : ∀ o < 70, node o = slot fs.disk i o)
    (out : Mem) (k : Nat) : (copyFile fs node out).out k = (contents fs i).getD k (out k) := by
  obtain ⟨t, hh, -, h0⟩ := h
  rw [hh.contents h0, getD_bytes, copyFile_eq (hh.congr (fun j hj => iBlock_congr hn (by omega))
    fun _ _ => rfl) h0, copyList_out]
  dsimp only
  rw [iSize_congr hn, Nat.zero_add, Nat.sub_zero]
  by_cases hk : k < min (iSize (slot fs.disk i)) (512 * t.data.length)
  · rw [if_pos hk, if_pos (by omega)]
  · rw [if_neg hk, if_neg (by omega)]

/-- The contents lie in the slot and in the blocks that it reaches. -/
theorem contents_congr (hd : isDir fs.disk i = false) (hs : slot fs'.disk i = slot fs.disk i)
    (hb : ∀ b ∈ reach fs.disk i, fs'.disk b = fs.disk b) : contents fs' i = contents fs i := by
  have hc : copyFile fs' (slot fs'.disk i) (fun _ => 0) =
      copyFile fs (slot fs.disk i) fun _ => 0 :=
    copyFile_congr (fun o _ => by rw [hs]) (by rw [← reach_of_not_dir hd]; exact hb) _
  unfold contents
  rw [hc]

theorem contents_disk {fs fs' : Fs} (h : fs'.disk = fs.disk) (i : Nat) :
    contents fs' i = contents fs i := by
  have hc : copyFile fs' (slot fs'.disk i) (fun _ => 0) =
      copyFile fs (slot fs.disk i) fun _ => 0 :=
    copyFile_congr (fun o _ => by rw [h]) (fun b _ => by rw [h]) _
  unfold contents
  rw [hc]

end Contents

/-- The 32-bit block count is right, or it is 0. -/
theorem blockCount_cases (request : EXT2DriverRequest) :
    blockCount request = exactBlocks request ∨ blockCount request = 0 := by
  have hlt := request.bufferSize.toNat_lt
  rw [blockCount_exact_iff, blockCount_eq]
  omega

/-- A new file holds the first bytes of the request, and all of them if its tree is full. -/
theorem FileAt.contents {request : EXT2DriverRequest} {fs : Fs} {i : Nat} {ni : Mem} {t : FileTree}
    (h : FileAt request fs.disk ni t) (hs : slot fs.disk i = cutNode ni)
    (h0 : ∀ b ∈ t.blocks, b ≠ 0) : contents fs i =
      bytes request.buf 0 (min request.bufferSize.toNat (512 * t.data.length)) := by
  have h' : FileAt request fs.disk (slot fs.disk i) t :=
    h.congr (fun o ho => by rw [hs, cutNode_of_lt ho]) fun _ _ => rfl
  rw [h'.holds.contents h0, h'.size]
  apply bytes_congr
  intro k _ hk
  rcases blockCount_cases request with hexact | hzero
  · have hk' : k / 512 < t.data.length := by omega
    rw [Nat.zero_add] at hk
    rw [List.getD_eq_getElem _ _ hk', h'.filled (k / 512) _ (List.getElem?_eq_getElem hk'),
      Nat.zero_add]
    exact chunk_apply (by rw [h'.count, h'.size, hexact]; rfl) (by rw [h'.size]; omega)
  · have hshape := h'.shape
    have := hshape.length_blocks.1
    omega

/-! ## The store of a disk -/

/-- What an entry leads to. -/
def itemOf (fs : Fs) (e : Entry) : Item Nat UInt8 :=
  if e.fileType = 2 then .dir e.inode
  else .file (iSize (slot fs.disk e.inode)) (contents fs e.inode)

open Classical in
/-- The store that a state stands for. -/
noncomputable def storeOf (fs : Fs) : FileStore where
  dir p := IsDirectory fs.disk p
  items p n := if IsDirectory fs.disk p then
    ((entries fs.disk p).filter fun e => e.name == n).map (itemOf fs) else []

section View

variable {fs fs' : Fs} {p : Nat} {n : List UInt8} {e : Entry} {request : EXT2DriverRequest}

@[simp] theorem storeOf_dir : (storeOf fs).dir p ↔ IsDirectory fs.disk p := Iff.rfl

theorem storeOf_items (hp : IsDirectory fs.disk p) : (storeOf fs).items p n =
    ((entries fs.disk p).filter fun e => e.name == n).map (itemOf fs) := if_pos hp

theorem storeOf_items_none (hp : ¬ IsDirectory fs.disk p) : (storeOf fs).items p n = [] :=
  if_neg hp

theorem storeOf_absent (hp : IsDirectory fs.disk request.parentInode.toNat)
    (h : firstNamed request fs.disk request.parentInode.toNat = none) :
    (storeOf fs).named request = [] := by
  unfold FileStore.named
  rw [storeOf_items hp, List.filter_eq_nil_iff.mpr (List.find?_eq_none.mp h)]
  rfl

/-- The top item of a name is that of the first entry. -/
theorem storeOf_top (hp : IsDirectory fs.disk request.parentInode.toNat)
    (h : firstNamed request fs.disk request.parentInode.toNat = some e) :
    ∃ l, (storeOf fs).named request = itemOf fs e :: l := by
  obtain ⟨hn, A, B, hAB, hA⟩ := List.find?_eq_some_iff_append.mp h
  unfold FileStore.named
  rw [storeOf_items hp, hAB, List.filter_append,
    List.filter_eq_nil_iff.mpr fun a ha => by simpa using hA a ha,
    List.filter_cons_of_pos (by exact hn)]
  exact ⟨_, rfl⟩

/-- An entry of a file leads to a file. -/
theorem Tree.entry_file (ht : Tree fs) (hp : IsDirectory fs.disk p) (he : e ∈ entries fs.disk p)
    (h2 : e.fileType ≠ 2) : e.fileType = 1 ∧ IsInode e.inode ∧ inodeUsed fs.disk e.inode = true ∧
      isDir fs.disk e.inode = false := by
  obtain ⟨hi, hu, hk⟩ := ht.sound.noDangling.entry p hp e he
  have hd : isDir fs.disk e.inode = false := by
    cases hd : isDir fs.disk e.inode with
    | false => rfl
    | true => exact absurd ((ht.sound.noDangling.isDir_iff hp he).mp ⟨hi, hu, hd⟩) h2
  exact ⟨hk.elim And.left fun h => absurd h.1 h2, hi, hu, hd⟩

/-- An entry leads to the same while its inode and its blocks stay. -/
theorem Tree.itemOf_eq (ht : Tree fs) (hp : IsDirectory fs.disk p) (he : e ∈ entries fs.disk p)
    (h : IsInode e.inode → inodeUsed fs.disk e.inode = true → isDir fs.disk e.inode = false →
      slot fs'.disk e.inode = slot fs.disk e.inode ∧
        ∀ b ∈ reach fs.disk e.inode, fs'.disk b = fs.disk b) : itemOf fs' e = itemOf fs e := by
  unfold itemOf
  by_cases h2 : e.fileType = 2
  · rw [if_pos h2, if_pos h2]
  · obtain ⟨-, hi, hu, hd⟩ := ht.entry_file hp he h2
    obtain ⟨hs, hb⟩ := h hi hu hd
    rw [if_neg h2, if_neg h2, hs, contents_congr hd hs hb]

/-- The items of a directory stay with its entries, when each of them leads to the same. -/
theorem storeOf_items_eq (hp : IsDirectory fs.disk p) (hp' : IsDirectory fs'.disk p)
    (hes : entries fs'.disk p = entries fs.disk p)
    (hit : ∀ e ∈ entries fs.disk p, itemOf fs' e = itemOf fs e) :
    (storeOf fs').items p n = (storeOf fs).items p n := by
  rw [storeOf_items hp, storeOf_items hp', hes]
  exact List.map_congr_left fun e he => hit e (List.mem_of_mem_filter he)

/-- The store does not depend on the driver's buffers and cache. -/
theorem storeOf_disk (h : fs'.disk = fs.disk) : storeOf fs' = storeOf fs := by
  have hit : itemOf fs' = itemOf fs := by
    funext e
    unfold itemOf
    rw [h, contents_disk h]
  refine Store.ext_items (fun p => by rw [storeOf_dir, storeOf_dir, h]) fun p n => ?_
  unfold storeOf
  dsimp only
  rw [h, hit]

end View

/-! ## Reading -/

/-- `read` answers by the store. -/
theorem Tree.answers {fs : Fs} (ht : Tree fs) {rd : EXT2DriverRequest}
    (h896 : rd.parentInode.toNat ≤ 896) : (storeOf fs).Answers rd (read rd fs) := by
  have hc := ht.consistent
  by_cases hp : IsDirectory fs.disk rd.parentInode.toNat
  · rw [hc.read_eq hp]
    cases hf : firstNamed rd fs.disk rd.parentInode.toNat with
    | none => exact .absent hp (storeOf_absent hp hf)
    | some e =>
      obtain ⟨l, hl⟩ := storeOf_top hp hf
      have he := (firstNamed_mem hf).1
      unfold readEntry itemOf at *
      dsimp only
      by_cases h2 : e.fileType = 2
      · rw [if_pos h2] at hl
        rw [if_pos (by rw [h2]; decide)]
        exact .directory hp hl
      · obtain ⟨h1, hi, hu, hd⟩ := ht.entry_file hp he h2
        have hnode : ∀ o < 70, view (fs.readBlocks (fs.inodeBlock e.inode)) (slotOffset e.inode) o =
            slot fs.disk e.inode o := fun o ho => hc.ready.layout.node_apply hi ho
        rw [if_neg h2] at hl
        rw [if_neg (not_not.mpr h1), iSize_congr hnode]
        by_cases hsize : rd.bufferSize.toNat < iSize (slot fs.disk e.inode)
        · rw [if_pos hsize]
          exact .tooLarge hp hl hsize
        · rw [if_neg hsize, show (copyFile fs _ rd.buf).out = fun k =>
            (contents fs e.inode).getD k (rd.buf k) from
            funext fun k => (ht.file e.inode hi hu hd).copyFile_out hnode rd.buf k]
          exact .found hp hl (by omega)
  · have hread : read rd fs = (-1, rd.buf) := by
      by_cases h0 : rd.parentInode.toNat = 0
      · unfold read
        dsimp only
        rw [if_pos h0]
      · have hi : IsInode rd.parentInode.toNat := ⟨by omega, h896⟩
        cases hd : isDir fs.disk rd.parentInode.toNat with
        | false => exact read_of_not_dir hc.ready.layout hi hd
        | true => exact absurd (hc.isDirectory hi hd) hp
    rw [hread]
    exact .notDir hp

/-! ## Calls -/

section Calls

variable {request : EXT2DriverRequest} {fs fs' : Fs} {p i : Nat} {ni : Mem} {L : List Nat}
  {e : Entry}

theorem Quiet.storeOf_eq (h : Quiet fs fs') (ht : Tree fs) : storeOf fs' = storeOf fs := by
  have hc := ht.consistent
  refine Store.ext_items (fun p => h.isDirectory_iff) fun p n => ?_
  by_cases hp : IsDirectory fs.disk p
  · refine storeOf_items_eq hp (h.isDirectory_iff.mpr hp) (h.entries_eq hc hp) fun e he => ?_
    refine ht.itemOf_eq hp he fun hi hu _ => ⟨h.slots _, fun b hb => ?_⟩
    obtain ⟨h1, h2⟩ := hc.owned.data e.inode hi hu b hb
    exact h.kept b h1 h2
  · rw [storeOf_items_none hp, storeOf_items_none fun hp' => hp (h.isDirectory_iff.mp hp')]

/-- The items of one name, with one entry put in before all others of the name. -/
theorem filter_insert {A B : List Entry} {n : List UInt8} (hA : ∀ a ∈ A, a.name ≠ e.name) :
    (A ++ e :: B).filter (fun a => a.name == n) =
      if n = e.name then e :: (A ++ B).filter (fun a => a.name == n)
      else (A ++ B).filter fun a => a.name == n := by
  by_cases hn : n = e.name
  · subst hn
    rw [if_pos rfl, List.filter_append, List.filter_append,
      List.filter_eq_nil_iff.mpr fun a ha => by simpa using hA a ha,
      List.filter_cons_of_pos (by simp)]
    rfl
  · rw [if_neg hn, List.filter_append, List.filter_append,
      List.filter_cons_of_neg (by simpa using fun h => hn h.symm)]

/-- A new entry puts its item on top of its name. -/
theorem Created.items_eq (h : Created request fs fs' request.parentInode.toNat i ni L)
    (ht : Tree fs) (hp : IsDirectory fs.disk request.parentInode.toNat) {q : Nat} (hq : q ≠ i)
    (n : List UInt8) : (storeOf fs').items q n =
      ((storeOf fs).push request.parentInode.toNat (requestName request)
        (itemOf fs' (newEntry request i))).items q n := by
  have hc := ht.consistent
  rw [Store.push_items]
  by_cases hd : IsDirectory fs.disk q
  · have hd' := (h.isDirectory_iff hq).mpr hd
    have hit : ∀ a ∈ entries fs.disk q, itemOf fs' a = itemOf fs a := fun a ha =>
      ht.itemOf_eq hd ha fun hi hu hnd => by
        have hne : a.inode ≠ request.parentInode.toNat := by
          intro he
          rw [he, hp.dir] at hnd
          cases hnd
        exact ⟨h.others _ hi (h.ne_of_used hu) hne, h.reach_kept hc hp hi hu hne⟩
    by_cases hqp : q = request.parentInode.toNat
    · subst hqp
      obtain ⟨A, B, h1, h2, hA⟩ := h.parentEntries
      rw [h1] at hit
      have hold : ∀ m, (storeOf fs).items request.parentInode.toNat m =
          ((A ++ B).filter fun a => a.name == m).map (itemOf fs') := fun m => by
        rw [storeOf_items hd, h1]
        exact List.map_congr_left fun a ha => (hit a (List.mem_of_mem_filter ha)).symm
      rw [storeOf_items hd', h2, filter_insert (e := newEntry request i) hA, hold, hold,
        show (newEntry request i).name = requestName request from rfl]
      by_cases hn : n = requestName request
      · rw [if_pos hn, if_pos ⟨rfl, hn⟩, hn, List.map_cons]
      · rw [if_neg hn, if_neg fun hc => hn hc.2]
    · rw [if_neg fun hc => hqp hc.1]
      exact storeOf_items_eq hd hd' (h.otherEntries hc hp hd hqp) hit
  · rw [storeOf_items_none hd, storeOf_items_none fun hd' => hd ((h.isDirectory_iff hq).mp hd'),
      if_neg fun hqp : q = _ ∧ _ => hd (hqp.1 ▸ hp)]

/-- A new file. -/
theorem Created.store_file (h : Created request fs fs' request.parentInode.toNat i ni L)
    (ht : Tree fs) (hp : IsDirectory fs.disk request.parentInode.toNat)
    (hnot : ¬ IsDirectory fs'.disk i) : storeOf fs' =
      (storeOf fs).push request.parentInode.toNat (requestName request)
        (itemOf fs' (newEntry request i)) := by
  have hnot' : ¬ IsDirectory fs.disk i := fun hd => h.ne_of_used hd.used rfl
  have hpi : request.parentInode.toNat ≠ i := fun hc => hnot' (hc ▸ hp)
  refine Store.ext_items (fun q => ?_) fun q n => ?_
  · rw [Store.push_dir, storeOf_dir, storeOf_dir]
    by_cases hq : q = i
    · rw [hq]
      exact iff_of_false hnot hnot'
    · exact h.isDirectory_iff hq
  · by_cases hq : q = i
    · rw [hq, storeOf_items_none hnot, Store.push_items, if_neg fun hc => hpi hc.1.symm,
        storeOf_items_none hnot']
    · exact h.items_eq ht hp hq n

/-- The items of a new directory. -/
theorem dotEntries_items (fs : Fs) (i parent : Nat) (n : List UInt8) :
    ((dotEntries i parent).filter fun e => e.name == n).map (itemOf fs) =
      FileStore.dots i parent n := by
  unfold dotEntries FileStore.dots
  by_cases h1 : n = [46]
  · rw [if_pos h1, h1]
    rfl
  · rw [if_neg h1]
    by_cases h2 : n = [46, 46]
    · rw [if_pos h2, h2]
      rfl
    · rw [if_neg h2, List.filter_cons_of_neg (by simpa using fun h => h1 h.symm),
        List.filter_cons_of_neg (by simpa using fun h => h2 h.symm)]
      rfl

/-- A new directory. -/
theorem Created.store_dir (h : Created request fs fs' request.parentInode.toNat i ni L)
    (ht : Tree fs) (hp : IsDirectory fs.disk request.parentInode.toNat)
    (hd : IsDirectory fs'.disk i) : storeOf fs' = (storeOf fs).addDir request i := by
  have hreq := (h.newDir hd).1
  have hitem : itemOf fs' (newEntry request i) = .dir i := by
    unfold itemOf newEntry requestFileType
    rw [if_pos (by rw [hreq]; rfl)]
  unfold FileStore.addDir
  refine Store.ext_items (fun q => ?_) fun q n => ?_
  · rw [Store.openDir_dir, Store.push_dir, storeOf_dir, storeOf_dir]
    by_cases hq : q = i
    · rw [hq]
      exact iff_of_true hd (Or.inr rfl)
    · rw [h.isDirectory_iff hq]
      exact ⟨Or.inl, fun hc => hc.resolve_right hq⟩
  · rw [Store.openDir_items]
    by_cases hq : q = i
    · rw [if_pos hq, hq, storeOf_items hd,
        h.newEntries (by have := hp.isInode.1; omega) hd, dotEntries_items]
    · rw [if_neg hq, h.items_eq ht hp hq, hitem]

/-- An entry that is gone takes the top item of its name with it. -/
theorem Deleted.items_eq (h : Deleted request fs fs' request.parentInode.toNat e)
    (ht : Tree fs) (hp : IsDirectory fs.disk request.parentInode.toNat) (hP : Proper e)
    (hm : e ∈ entries fs.disk request.parentInode.toNat) {q : Nat} (hq : q ≠ e.inode)
    (n : List UInt8) : (storeOf fs').items q n =
      ((storeOf fs).unlink request).items q n := by
  have hc := ht.consistent
  unfold FileStore.unlink
  rw [Store.pop_items]
  by_cases hd : IsDirectory fs.disk q
  · have hd' : IsDirectory fs'.disk q := h.isDirectory_iff.mpr ⟨hd, hq⟩
    -- an entry that is left leads to another inode
    have hit : ∀ a ∈ entries fs'.disk q, a ∈ entries fs.disk q → itemOf fs' a = itemOf fs a :=
      fun a ha' ha => ht.itemOf_eq hd ha fun hi hu hnd => by
        have hap : a.inode ≠ request.parentInode.toNat := by
          intro he
          rw [he, hp.dir] at hnd
          cases hnd
        have hPa : Proper a := by
          refine ht.sound.proper_of_file hd ha (ht.entry_file hd ha fun h2 => ?_).1
          have := ((ht.sound.noDangling.isDir_iff hd ha).mpr h2).dir
          rw [hnd] at this
          cases this
        have hae : a.inode ≠ e.inode := ht.sound.once.rest (h.drop hc hp) hp
          (by rw [graphOf_links]; exact hm) hP hd' (by rw [graphOf_links]; exact ha') hPa
        exact ⟨h.others _ hi hae, h.reach_kept hc hp hi hu hap⟩
    by_cases hqp : q = request.parentInode.toNat
    · subst hqp
      obtain ⟨A, B, h1, h2, hn, hA⟩ := h.parentEntries hp.isInode hq
      rw [h1, h2] at hit
      have hold : ∀ m, (storeOf fs).items request.parentInode.toNat m =
          ((A ++ e :: B).filter fun a => a.name == m).map (itemOf fs) := fun m => by
        rw [storeOf_items hd, h1]
      have hmap : ∀ m : List UInt8, ((A ++ B).filter fun a => a.name == m).map (itemOf fs') =
          ((A ++ B).filter fun a => a.name == m).map (itemOf fs) := fun m =>
        List.map_congr_left fun a ha => hit a (List.mem_of_mem_filter ha) (by
          have := List.mem_of_mem_filter ha
          simp only [List.mem_append, List.mem_cons] at this ⊢
          tauto)
      have hins : ∀ m : List UInt8, (A ++ e :: B).filter (fun a => a.name == m) =
          if m = requestName request then e :: (A ++ B).filter (fun a => a.name == m)
          else (A ++ B).filter fun a => a.name == m := fun m => by
        rw [← hn]
        exact filter_insert fun a ha => by rw [hn]; exact hA a ha
      rw [storeOf_items hd', h2, hold, hold, hmap, hins, hins, if_pos rfl]
      by_cases hne : n = requestName request
      · rw [if_pos ⟨rfl, hne⟩, hne, List.map_cons, List.tail_cons]
      · rw [if_neg fun hc => hne hc.2, if_neg hne]
    · have hes := h.otherEntries hc hp hd hqp hq
      rw [if_neg fun hc => hqp hc.1]
      exact storeOf_items_eq hd hd' hes fun a ha => hit a (hes ▸ ha) ha
  · rw [storeOf_items_none hd,
      storeOf_items_none fun hd' => hd (h.isDirectory_iff.mp hd').1,
      if_neg fun hqp : q = _ ∧ _ => hd (hqp.1 ▸ hp)]

/-- A file is gone. -/
theorem Deleted.store_file (h : Deleted request fs fs' request.parentInode.toNat e)
    (ht : Tree fs) (hp : IsDirectory fs.disk request.parentInode.toNat) (hP : Proper e)
    (hm : e ∈ entries fs.disk request.parentInode.toNat) (hnot : ¬ IsDirectory fs.disk e.inode) :
    storeOf fs' = (storeOf fs).unlink request := by
  have hdir : ∀ q, IsDirectory fs'.disk q ↔ IsDirectory fs.disk q := fun q =>
    h.isDirectory_iff.trans ⟨And.left, fun hd => ⟨hd, fun hc => hnot (hc ▸ hd)⟩⟩
  refine Store.ext_items hdir fun q n => ?_
  by_cases hq : q = e.inode
  · have hpe : ¬ (q = request.parentInode.toNat ∧ n = requestName request) := fun hc =>
      hnot (hq ▸ hc.1 ▸ hp)
    unfold FileStore.unlink
    rw [Store.pop_items, if_neg hpe, hq, storeOf_items_none hnot,
      storeOf_items_none fun hd => hnot ((hdir _).mp hd)]
  · exact h.items_eq ht hp hP hm hq n

/-- A directory is gone, and all that it held. -/
theorem Deleted.store_dir (h : Deleted request fs fs' request.parentInode.toNat e)
    (ht : Tree fs) (hp : IsDirectory fs.disk request.parentInode.toNat) (hP : Proper e)
    (hm : e ∈ entries fs.disk request.parentInode.toNat) :
    storeOf fs' = ((storeOf fs).unlink request).closeDir e.inode := by
  refine Store.ext_items (fun q => h.isDirectory_iff) fun q n => ?_
  rw [Store.closeDir_items]
  by_cases hq : q = e.inode
  · rw [if_pos hq, hq, storeOf_items_none fun hd => (h.isDirectory_iff.mp hd).2 rfl]
  · rw [if_neg hq]
    exact h.items_eq ht hp hP hm hq n

/-! ## What calls return -/

theorem writeHole_code (blk off : Nat) : (writeHole request blk off fs).1 = 0 ∨
    (writeHole request blk off fs).1 = -1 := by
  unfold writeHole
  dsimp only
  split
  · exact Or.inr rfl
  · exact Or.inl rfl

theorem writeGrow_code (buf : Mem) : (writeGrow request buf fs).1 = 0 ∨
    (writeGrow request buf fs).1 = -1 := by
  unfold writeGrow
  dsimp only
  split
  · exact Or.inr rfl
  · split
    · exact Or.inr rfl
    · exact Or.inl rfl

/-- A `write` that fails. -/
theorem Tree.write_refused (ht : Tree fs) (h896 : request.parentInode.toNat ≤ 896)
    (h : (write request fs).1 ≠ 0) :
    (storeOf fs).Serves (.write request) (write request fs).1 (storeOf fs) := by
  have hc := ht.consistent
  by_cases hp : IsDirectory fs.disk request.parentInode.toNat
  · have hcase : (write request fs).1 = 1 ∧ (storeOf fs).named request ≠ [] ∨
        (write request fs).1 = -1 := by
      rw [write_eq hc.ready.layout hp.isInode hp.dir (hc.dirOk _ hp)] at h ⊢
      cases hhit : firstHit request fs.disk request.parentInode.toNat with
      | none =>
        rw [hhit] at h
        exact Or.inr ((writeGrow_code _).resolve_left h)
      | some q =>
        rw [hhit] at h
        dsimp only at h ⊢
        cases hn : q.2.named request with
        | false =>
          rw [hn, if_neg (by decide)] at h
          rw [if_neg (by decide)]
          exact Or.inr ((writeHole_code _ _).resolve_left h)
        | true =>
          rw [if_pos rfl]
          obtain ⟨hb, hr⟩ := mem_dirRecords.mp (List.mem_of_find?_eq_some hhit)
          obtain ⟨h0, hname⟩ := named_iff.mp hn
          refine Or.inl ⟨rfl, fun hnil => ?_⟩
          unfold FileStore.named at hnil
          rw [storeOf_items hp, List.map_eq_nil_iff, List.filter_eq_nil_iff] at hnil
          refine hnil q.2.entry ?_ (beq_iff_eq.mpr hname)
          unfold entries blockEntries
          exact List.mem_flatMap.mpr ⟨q.1, hb, mem_live.mpr ⟨q.2, hr, h0, rfl⟩⟩
    rcases hcase with ⟨h1, hne⟩ | h1 <;> rw [h1]
    · exact .taken hp hne
    · exact .full hp
  · have hwrite : write request fs = (2, fs) := by
      by_cases h0 : request.parentInode.toNat = 0
      · exact write_parent_zero h0
      · have hi : IsInode request.parentInode.toNat := ⟨by omega, h896⟩
        cases hd : isDir fs.disk request.parentInode.toNat with
        | false => exact write_of_not_dir hc.ready.layout hi hd
        | true => exact absurd (hc.isDirectory hi hd) hp
    rw [hwrite]
    exact .noParent hp

/-- The item of an entry is of its type. -/
theorem itemOf_dir (h : e.fileType = 2) : itemOf fs e = .dir e.inode := if_pos h

theorem itemOf_file (h : e.fileType ≠ 2) :
    itemOf fs e = .file (iSize (slot fs.disk e.inode)) (contents fs e.inode) := if_neg h

/-- A `delete` that fails. -/
theorem Tree.delete_refused (ht : Tree fs) (h896 : request.parentInode.toNat ≤ 896)
    (h : (delete request fs).1 ≠ 0) :
    (storeOf fs).Serves (.delete request) (delete request fs).1 (storeOf fs) := by
  have hc := ht.consistent
  by_cases hp : IsDirectory fs.disk request.parentInode.toNat
  · rcases delete_cases request hc.ready.layout hp.isInode hp.dir (hc.dirOk _ hp) with
      ⟨he, hall⟩ | ⟨pre, b, post, xs, r, ys, hbs, hrs, hn, hpre, hxs, he⟩
    · rw [he]
      refine .absent hp (storeOf_absent hp (List.find?_eq_none.mpr fun e hm => ?_))
      simpa using entries_name_ne hall e hm
    · have hfirst := firstNamed_eq hbs hrs hn hpre hxs
      obtain ⟨l, hl⟩ := storeOf_top hp hfirst
      have hm := (firstNamed_mem hfirst).1
      rw [he] at h ⊢
      unfold deleteAt at h ⊢
      by_cases h2 : r.fileType = 2
      · rw [itemOf_dir (e := r.entry) h2] at hl
        cases hreq : request.isDirectory with
        | false =>
          rw [if_neg fun hcon => Bool.noConfusion hcon.1,
            if_neg fun hcon => Bool.noConfusion hcon.1,
            if_pos ⟨Bool.false_ne_true, by rw [h2]; decide⟩]
          exact .notFile hp hl hreq
        | true =>
          rw [hreq, if_neg fun hcon => hcon.2 h2] at h
          rw [if_neg fun hcon => hcon.2 h2]
          by_cases hempty : isDirectoryEmpty r.inode fs = false
          · rw [if_pos ⟨rfl, hempty⟩]
            exact .notEmpty hp hl hreq
          · rw [if_neg fun hcon => hempty hcon.2, if_neg fun hcon => hcon.1 rfl] at h
            exact absurd rfl h
      · have h1 := (ht.entry_file hp hm h2).1
        rw [itemOf_file (e := r.entry) h2] at hl
        cases hreq : request.isDirectory with
        | true =>
          rw [if_pos ⟨rfl, h2⟩]
          exact .notDir hp hl hreq
        | false =>
          rw [hreq, if_neg fun hcon => Bool.noConfusion hcon.1,
            if_neg fun hcon => Bool.noConfusion hcon.1, if_neg fun hcon => hcon.2 h1] at h
          exact absurd rfl h
  · have hdelete : delete request fs = (-1, fs) := by
      by_cases h0 : request.parentInode.toNat = 0
      · exact delete_parent_zero h0
      · have hi : IsInode request.parentInode.toNat := ⟨by omega, h896⟩
        cases hd : isDir fs.disk request.parentInode.toNat with
        | false => exact delete_of_not_dir hc.ready.layout hi hd
        | true => exact absurd (hc.isDirectory hi hd) hp
    rw [hdelete]
    exact .nowhere hp

/-- A `write` of a file that returns 0 keeps its first bytes, and all of them if they fit. -/
theorem Tree.write_file (ht : Tree fs) (hok : Careful (.write request) fs)
    (hreg : isDirRequest request = false) (h : (write request fs).1 = 0) :
    ∃ k ≤ request.bufferSize.toNat, storeOf (write request fs).2 = (storeOf fs).addFile request k ∧
      ∀ i, firstFreeInode fs.disk = some i → FileFits request fs i →
        k = request.bufferSize.toNat := by
  rcases ht.sound.write_careful hok with ⟨hne, -⟩ | ⟨-, hp, i, ni, L, hnew, hname, hkept⟩
  · exact absurd h hne
  rcases write_built (ht.consistent.hosts hp) with ⟨hne, -⟩ | ⟨-, -, j, nj, M, X, hj, hbuilt⟩
  · exact absurd h hne
  obtain rfl : j = i := Option.some.inj (hj.symm.trans hnew.first)
  have hslot := hbuilt.kept fun hscan =>
    hkept ((scanParent_none_iff ht.consistent hp).mp hscan)
  obtain ⟨d₀, hmade, hleft⟩ := hbuilt.made
  have hfile := (hmade.isDir_eq hslot).trans hreg
  have hused := hbuilt.blocks
  generalize (write request fs).2 = fs' at *
  have hstore := hnew.store_file ht hp fun hd => Bool.false_ne_true (hfile.symm.trans hd.dir)
  cases hmade with
  | dir b hdir => rw [hreg] at hdir; cases hdir
  | fallback hdir => rw [hreg] at hdir; cases hdir
  | file t _ hat _ hfull =>
    refine ⟨min request.bufferSize.toNat (512 * t.data.length), Nat.min_le_left _ _, ?_, ?_⟩
    · have hsize : iSize (slot fs'.disk j) = request.bufferSize.toNat := by
        rw [← hat.size]
        exact iSize_congr fun o ho => by rw [hslot, cutNode_of_lt ho]
      have hitem : itemOf fs' (newEntry request j) = .file request.bufferSize.toNat
          (bytes request.buf 0 (min request.bufferSize.toNat (512 * t.data.length))) := by
        have hcont := hat.contents hslot fun b hb => (hused b hb).1.ne_zero
        rw [itemOf_file (e := newEntry request j) (show (requestFileType request).toNat ≠ 2 by
          rw [requestFileType_file hreg]; decide)]
        show Item.file (iSize (slot fs'.disk j)) (LossOs.Ext2.contents fs' j) = _
        rw [hsize, hcont]
      rw [hstore, hitem]
      rfl
    · intro i' hi' hfits
      obtain rfl : j = i' := Option.some.inj (hj.symm.trans hi')
      have hexact := blockCount_exact hfits.room
        ((Finset.card_filter_le _ _).trans (card_freeFrom_le _ _))
      have hlen := hfull.mpr (by rw [hexact, hleft]; exact hfits.room)
      rw [hlen, hexact]
      unfold exactBlocks
      omega

/-- A `write` of a directory that returns 0. -/
theorem Tree.write_dir (ht : Tree fs) (hok : Careful (.write request) fs)
    (hreg : isDirRequest request = true) (h : (write request fs).1 = 0) :
    ∃ i, ¬ IsDirectory fs.disk i ∧
      storeOf (write request fs).2 = (storeOf fs).addDir request i := by
  rcases ht.sound.write_careful hok with ⟨hne, -⟩ | ⟨-, hp, i, ni, L, hnew, hname, hkept⟩
  · exact absurd h hne
  obtain ⟨d₀, hmade⟩ := hnew.made
  have hslot := hnew.newSlot.resolve_right fun hz => hkept hz.1 hz.2.1
  refine ⟨i, fun hd => hnew.ne_of_used hd.used rfl, hnew.store_dir ht hp
    ⟨hnew.isInode, ?_, (hmade.isDir_eq hslot).trans hreg⟩⟩
  rw [hnew.inodes i hnew.isInode, decide_eq_true rfl, Bool.or_true]

/-- A `delete` that returns 0. -/
theorem Tree.delete_served (ht : Tree fs) (hok : Careful (.delete request) fs)
    (h : (delete request fs).1 = 0) : (storeOf fs).Serves (.delete request) 0
      (storeOf (delete request fs).2) := by
  rcases ht.sound.delete_careful hok with ⟨hne, -⟩ | ⟨-, hp, e, hfirst, hP, htwo, hone, -, hdel⟩
  · exact absurd h hne
  have hm := (firstNamed_mem hfirst).1
  obtain ⟨l, hl⟩ := storeOf_top hp hfirst
  cases hreq : request.isDirectory with
  | true =>
    obtain ⟨h2, -⟩ := htwo hreq
    rw [itemOf_dir h2] at hl
    rw [hdel.store_dir ht hp hP hm]
    refine .removed hp hl (fun hc => ?_) hreq
    obtain ⟨rank, hrank⟩ := ht.ranked
    have := hrank _ hp e (by rw [graphOf_links]; exact hm) hP
    rw [hc] at this
    exact Nat.lt_irrefl _ this
  | false =>
    have h1 := hone hreq
    have h2 : e.fileType ≠ 2 := by rw [h1]; decide
    obtain ⟨-, -, -, hd⟩ := ht.entry_file hp hm h2
    rw [itemOf_file h2] at hl
    rw [hdel.store_file ht hp hP hm fun hdir => Bool.false_ne_true (hd.symm.trans hdir.dir)]
    exact .unlinked hp hl hreq

/-- Every careful call does to the store what it may do. -/
theorem Tree.serves (ht : Tree fs) {c : Call} (hok : Careful c fs) :
    (storeOf fs).Serves c (c.run fs).1 (storeOf (c.run fs).2) := by
  have h896 : c.request.parentInode.toNat ≤ 896 := hok.parent
  cases c with
  | write request =>
    rw [Call.run_write]
    rcases ht.sound.write_careful hok with ⟨hne, hq⟩ | ⟨h0, hp, i, ni, L, -, hname, -⟩
    · rw [hq.storeOf_eq ht]
      exact ht.write_refused h896 hne
    · rw [h0]
      cases hreg : isDirRequest request with
      | false =>
        obtain ⟨k, hk, hs, -⟩ := ht.write_file hok hreg h0
        rw [hs]
        exact .file k hp hname.1 hname.2 hreg hk
      | true =>
        obtain ⟨j, hj, hs⟩ := ht.write_dir hok hreg h0
        rw [hs]
        exact .dir j hp hname.1 hname.2 hreg hj
  | delete request =>
    rw [Call.run_delete]
    by_cases h0 : (delete request fs).1 = 0
    · rw [h0]
      exact ht.delete_served hok h0
    · rw [congrArg storeOf (delete_failed h0)]
      exact ht.delete_refused h896 h0

end Calls

/-! ## Runs -/

/-- A careful call that does not stop half way, with any bytes in its local buffers; or a restart,
    with anything in the memory but for what is loaded from the disk. -/
inductive Service : Fs → Event → Fs → Prop
  | call {fs : Fs} (c : Call) (stack : Mem) : Careful c (fs.withStack stack) →
      Flushes c (fs.withStack stack) →
      Service fs (.call c (c.run (fs.withStack stack)).1) (c.run (fs.withStack stack)).2
  | reboot {fs : Fs} (ram : Fs) : ram.disk = fs.disk →
      Service fs .reboot (initializeFilesystemExt2 ram)

section Runs

variable {fs fs' fs₀ : Fs} {e : Event} {es : List Event} {request : EXT2DriverRequest}

theorem storeOf_withStack (fs : Fs) (stack : Mem) : storeOf (fs.withStack stack) = storeOf fs :=
  storeOf_disk rfl

/-- What happens to the file system happens to its store. -/
theorem Mounted.service (h : Mounted fs) (hs : Service fs e fs') :
    Mounted fs' ∧ (storeOf fs).Step e (storeOf fs') := by
  cases hs with
  | call c stack hok hfl =>
    refine ⟨(h.withStack stack).call hok hfl, .call ?_⟩
    rw [← storeOf_withStack fs stack]
    exact (h.tree.withStack stack).serves hok
  | reboot ram hd =>
    obtain ⟨hm, hdisk, -⟩ := h.reboot hd
    rw [storeOf_disk hdisk]
    exact ⟨hm, .reboot _⟩

theorem Mounted.execution (h : Mounted fs) (hrun : Execution Service fs es fs') : Mounted fs' :=
  hrun.invariant (fun _ _ _ _ hm hs => (hm.service hs).1) h

/-- A run of the driver is a run of its store. -/
theorem Mounted.simulates (h : Mounted fs) (hrun : Execution Service fs es fs') :
    Execution FileStore.Step (storeOf fs) es (storeOf fs') := by
  obtain ⟨s, hs, -, rfl⟩ := hrun.simulate FileStore.Step (fun e => [e])
    (fun fs s => Mounted fs ∧ storeOf fs = s)
    (fun fs s e fs' hR hstep => by
      obtain ⟨hm, rfl⟩ := hR
      obtain ⟨hm', hs⟩ := hm.service hstep
      exact ⟨storeOf fs', .single hs, hm', rfl⟩) ⟨h, rfl⟩
  simpa using hs

/-- A fresh file system stands for the root alone. -/
theorem Formatted.store (h : Formatted fs) : storeOf fs = rootStore := by
  refine Store.ext_items (fun p => h.isDirectory_iff) fun p n => ?_
  unfold rootStore
  dsimp only
  by_cases hp : p = 1
  · subst hp
    rw [if_pos rfl, storeOf_items (h.isDirectory_iff.mpr rfl), h.rootEntries]
    exact dotEntries_items fs 1 1 n
  · rw [if_neg hp, storeOf_items_none fun hd => hp (h.isDirectory_iff.mp hd)]

/-! ## What is kept -/

/-- A step under another name keeps the items of a name, as long as their directory stays. -/
theorem FileStore.Step.items_kept {s s' : FileStore} (h : s.Step e s') {p : Nat} {n : List UInt8}
    (hother : ∀ c code, e = .call c code → (c.request.parentInode.toNat, requestName c.request) ≠
      (p, n)) (hp : s.dir p) (hp' : s'.dir p) : s'.items p n = s.items p n := by
  cases h with
  | reboot => rfl
  | @call _ c code h =>
    have hne : ∀ r : EXT2DriverRequest, c.request = r →
        ¬ (p = r.parentInode.toNat ∧ n = requestName r) := by
      rintro r rfl ⟨hc1, hc2⟩
      exact hother c code rfl (by rw [hc1, hc2])
    cases h with
    | file k => exact Store.push_items.trans (if_neg (hne _ rfl))
    | dir i _ _ _ _ hi =>
      have hpi : p ≠ i := fun hc => hi (hc ▸ hp)
      exact (Store.openDir_items.trans (if_neg hpi)).trans
        (Store.push_items.trans (if_neg (hne _ rfl)))
    | unlinked => exact Store.pop_items.trans (if_neg (hne _ rfl))
    | removed =>
      exact (Store.closeDir_items.trans (if_neg hp'.2)).trans
        (Store.pop_items.trans (if_neg (hne _ rfl)))
    | _ => rfl

/-- So does a run. -/
theorem Mounted.items_kept (h : Mounted fs) {p : Nat} {n : List UInt8}
    (hrun : Execution (fun fs e fs' => Service fs e fs' ∧ IsDirectory fs'.disk p) fs es fs')
    (hother : ∀ c code, .call c code ∈ es →
      (c.request.parentInode.toNat, requestName c.request) ≠ (p, n))
    (hp : IsDirectory fs.disk p) :
    Mounted fs' ∧ IsDirectory fs'.disk p ∧ (storeOf fs').items p n = (storeOf fs).items p n := by
  refine hrun.invariant (I := fun fs₁ => Mounted fs₁ ∧ IsDirectory fs₁.disk p ∧
    (storeOf fs₁).items p n = (storeOf fs).items p n) (fun fs₁ e fs₂ he hI hstep => ?_) ⟨h, hp, rfl⟩
  obtain ⟨hm, hd, hi⟩ := hI
  obtain ⟨hm', hs⟩ := hm.service hstep.1
  exact ⟨hm', hstep.2, (hs.items_kept (fun c code hc => hother c code (hc ▸ he)) hd hstep.2).trans
    hi⟩

/-- A run is answered by a run of the store, and what `read` returns in the end is what the store
    holds then. -/
theorem driver_refines_store (h : IsFresh fs₀) (hrun : Execution Service fs₀ es fs) :
    ∃ s, Execution FileStore.Step rootStore es s ∧ ∀ (rd : EXT2DriverRequest) (stack : Mem),
      rd.parentInode.toNat ≤ 896 → s.Answers rd (read rd (fs.withStack stack)) := by
  have hsim := h.mounted.simulates hrun
  rw [h.formatted.store] at hsim
  refine ⟨storeOf fs, hsim, fun rd stack h896 => ?_⟩
  rw [← storeOf_withStack fs stack]
  exact ((h.mounted.execution hrun).tree.withStack stack).answers h896

/-- A file that was written whole is read whole, after any calls under other names and any
    restarts, as long as its directory stays. -/
theorem read_survives (h : IsFresh fs₀) (hrun₀ : Execution Service fs₀ es fs)
    (hok : Careful (.write request) fs) (hfl : Flushes (.write request) fs)
    (hreg : isDirRequest request = false) (h0 : (write request fs).1 = 0)
    (hfits : ∀ i, firstFreeInode fs.disk = some i → FileFits request fs i) {es' : List Event}
    (hrun : Execution (fun fs e fs' => Service fs e fs' ∧
      IsDirectory fs'.disk request.parentInode.toNat) (write request fs).2 es' fs')
    (hother : ∀ c code, .call c code ∈ es' →
      (c.request.parentInode.toNat, requestName c.request) ≠
        (request.parentInode.toNat, requestName request))
    {rd : EXT2DriverRequest} (hpar : rd.parentInode = request.parentInode)
    (hname : requestName rd = requestName request) (hsize : request.bufferSize ≤ rd.bufferSize)
    (stack : Mem) :
    read rd (fs'.withStack stack) =
      (0, fun k => if k < request.bufferSize.toNat then request.buf k else rd.buf k) := by
  have hm := h.mounted.execution hrun₀
  have ht := hm.tree
  obtain ⟨k, -, hs, hfull⟩ := ht.write_file hok hreg h0
  rcases ht.sound.write_careful hok with ⟨hne, -⟩ | ⟨-, hp, i, ni, L, hnew, -⟩
  · exact absurd h0 hne
  obtain rfl := hfull i hnew.first (hfits i hnew.first)
  have hp' := (hnew.isDirectory_iff (hnew.ne_of_used hp.used)).mpr hp
  obtain ⟨hm', hd, hitems⟩ := (hm.call hok hfl).items_kept hrun hother hp'
  have htop : ∃ l, (storeOf fs').named rd =
      .file request.bufferSize.toNat (bytes request.buf 0 request.bufferSize.toNat) :: l := by
    refine ⟨(storeOf fs).items request.parentInode.toNat (requestName request), ?_⟩
    unfold FileStore.named
    rw [hpar, hname, hitems]
    refine (congrArg (fun s => Store.items s _ _) hs).trans ?_
    exact Store.push_items.trans (if_pos ⟨rfl, rfl⟩)
  obtain ⟨l, hl⟩ := htop
  have h896 : rd.parentInode.toNat ≤ 896 := by
    rw [hpar]
    exact hp.isInode.2
  have hans := (hm'.tree.withStack stack).answers h896
  rw [storeOf_withStack] at hans
  rw [← hpar] at hd
  have hle := UInt32.le_iff_toNat_le.mp hsize
  generalize read rd (fs'.withStack stack) = res at hans
  cases hans with
  | notDir hn => exact absurd hd hn
  | absent _ hn => rw [hl] at hn; cases hn
  | directory _ hn => rw [hl] at hn; cases hn
  | tooLarge _ hn hlt =>
    rw [hl] at hn
    cases hn
    omega
  | found _ hn =>
    rw [hl] at hn
    cases hn
    exact congrArg (Prod.mk 0) (funext fun k => getD_bytes ..)

/-! ## The first file of a fresh file system -/

theorem Formatted.flushes (h : Formatted fs) (hp : request.parentInode = 1) :
    Flushes (.write request) fs := by
  have hone : request.parentInode.toNat = 1 := by rw [hp]; rfl
  refine ⟨?_, fun request' hc _ _ _ => ?_⟩
  · show IsInode request.parentInode.toNat
    rw [hone]
    decide
  · obtain rfl : request = request' := Call.write.inj hc
    rw [hone]
    refine ⟨⟨22, ⟨by decide, by decide, ?_, ?_⟩, fun _ => by decide⟩, 2, ⟨by decide, ?_, ?_⟩⟩
    · rw [h.desc _ (by decide)]
      decide
    · rw [h.blocks 22 (by decide)]
      rfl
    · rw [h.desc _ (by decide)]
      decide
    · rw [h.inodes 2 (by decide)]
      rfl

/-- A file of one block fits. -/
theorem Formatted.fits (h : Formatted fs) (hp : request.parentInode = 1)
    (h1 : requestName request ≠ [46]) (h2 : requestName request ≠ [46, 46])
    (hone : blocksNeeded (exactBlocks request) ≤ 1) {i : Nat}
    (hi : LossOs.Ext2.firstFreeInode fs.disk = some i) : FileFits request fs i := by
  have hpar : request.parentInode.toNat = 1 := by rw [hp]; rfl
  have hroot : IsDirectory fs.disk request.parentInode.toNat := h.isDirectory_iff.mpr hpar
  have hscan : scanParent request fs ≠ none := by
    rw [ne_eq, scanParent_none_iff h.consistent hroot, hpar, (h.stop h1 h2).firstHit]
    exact nofun
  obtain ⟨q, hq⟩ := Option.ne_none_iff_exists'.mp hscan
  refine ⟨?_, fun hn => absurd hn hscan⟩
  unfold blocksLeft
  rw [parentBlock_of_scan hq, Finset.filter_true_of_mem fun _ _ => nofun]
  obtain rfl : 2 = i := Option.some.inj (h.firstFreeInode.symm.trans hi)
  exact hone.trans h.card_pos

/-- The driver after a restart: the disk as it was, and nothing in memory. -/
def Fs.restarted (fs : Fs) : Fs := { blankFs with disk := fs.disk }

/-- A file of three bytes. -/
def threeBytes : EXT2DriverRequest := rootRequest [97] [7, 8, 9] false

theorem Formatted.writes_three (h : Formatted fs) : Careful (.write threeBytes) fs ∧
    Flushes (.write threeBytes) fs ∧ (write threeBytes fs).1 = 0 :=
  ⟨h.careful rfl (by decide) (by decide), h.flushes rfl,
    (h.write_first threeBytes rfl (by decide) (by decide)).1⟩

end Runs

/-- A file is written, and the machine restarts. -/
theorem driver_refines_store_fresh : ∃ s, Execution FileStore.Step rootStore
    [.call (.write threeBytes) (write threeBytes (freshFs.withStack fun _ => 0)).1, .reboot] s ∧
      ∀ (rd : EXT2DriverRequest) (stack : Mem), rd.parentInode.toNat ≤ 896 →
        s.Answers rd (read rd ((initializeFilesystemExt2
          (write threeBytes (freshFs.withStack fun _ => 0)).2.restarted).withStack stack)) := by
  have h := isFresh_freshFs
  generalize freshFs = fs at h
  obtain ⟨hok, hfl, -⟩ := (h.formatted.withStack fun _ => 0).writes_three
  have hw : Service fs _ _ := .call (.write threeBytes) (fun _ => 0) hok hfl
  exact driver_refines_store h ((Execution.single hw).snoc (.reboot _ rfl))

/-- The request to read it. -/
def readThree : EXT2DriverRequest := rootRequest [97] [0, 0, 0, 0] false

/-- The file is read after a restart and the attempt to delete another one. -/
theorem read_survives_fresh : read readThree ((delete (rootRequest [98] [] false)
    ((initializeFilesystemExt2 (write threeBytes freshFs).2.restarted).withStack
      fun _ => 1)).2.withStack fun _ => 2) =
    (0, fun k =>
      if k < threeBytes.bufferSize.toNat then threeBytes.buf k else readThree.buf k) := by
  have h := isFresh_freshFs
  generalize freshFs = fs at h
  obtain ⟨hok, hfl, h0⟩ := h.formatted.writes_three
  have hm := h.mounted.call hok hfl
  generalize hfs₁ : initializeFilesystemExt2 (write threeBytes fs).2.restarted = fs₁
  have hboot : Service (write threeBytes fs).2 .reboot fs₁ := by
    rw [← hfs₁]
    exact .reboot _ rfl
  have hm₁ := (hm.service hboot).1
  have hdel : Service fs₁ _ _ := .call (.delete (rootRequest [98] [] false)) (fun _ => 1)
    (careful_file rfl (by decide)) ⟨by decide, fun _ hc => (nomatch hc)⟩
  have hm₂ := (hm₁.service hdel).1
  have hpar : readThree.parentInode = threeBytes.parentInode := rfl
  have hname : requestName readThree = requestName threeBytes := by decide
  refine read_survives h (.nil fs) hok hfl rfl h0
    (fun i hi => h.formatted.fits rfl (by decide) (by decide) (by decide) hi)
    (.cons ⟨hboot, hm₁.tree.sound.rooted.rootDir⟩
      (.single ⟨hdel, hm₂.tree.sound.rooted.rootDir⟩)) ?_ hpar hname (by decide) fun _ => 2
  intro c code hc
  rcases List.mem_cons.mp hc with hc | hc
  · cases hc
  · obtain ⟨rfl, -⟩ := Event.call.inj (List.mem_singleton.mp hc)
    decide

end LossOs.Ext2
