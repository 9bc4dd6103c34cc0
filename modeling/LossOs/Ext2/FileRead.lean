/-
  The copy loops of `read`.

  A copy loop runs over consecutive pointers up to the first 0, and once nothing is left to
  read it does nothing: it is a fold of `copyBlock` (`copyPtrs_eq`). On a node that holds a
  tree the three loops are one fold over the data blocks of the tree (`copyFile_eq`). What
  they copy depends only on the blocks that the pointers of the node reach
  (`copyFile_congr`).
-/
import LossOs.Ext2.FileAlloc

namespace LossOs.Ext2

open LossOs.Lib

/-- The blocks `L` copied one after the other. -/
def copyList (fs : Fs) (L : List Nat) (st : Copy) : Copy :=
  L.foldl (fun st b => copyBlock fs b st) st

theorem copyList_append (fs : Fs) (L M : List Nat) (st : Copy) :
    copyList fs (L ++ M) st = copyList fs M (copyList fs L st) := List.foldl_append ..

theorem copyBlock_done {fs : Fs} {b : Nat} {st : Copy} (h : st.toRead = 0) :
    copyBlock fs b st = st := by
  obtain ⟨n, c, out⟩ := st
  obtain rfl : n = 0 := h
  have : blit out c (fs.readBlocks b) 0 = out := by
    funext p
    exact blit_of_not_mem (by omega)
  show Copy.mk 0 c (blit out c (fs.readBlocks b) 0) = _
  rw [this]

theorem copyList_done {fs : Fs} {L : List Nat} {st : Copy} (h : st.toRead = 0) :
    copyList fs L st = st := by
  induction L with
  | nil => rfl
  | cons b L ih =>
    show copyList fs L (copyBlock fs b st) = st
    rw [copyBlock_done h, ih]

/-! ## The loops as folds -/

theorem copyPtrs_eq (fs : Fs) (ptrs : Nat → Nat) (k i : Nat) (st : Copy) :
    copyPtrs fs ptrs k i st =
      copyList fs (((List.range' i k).map ptrs).takeWhile (· ≠ 0)) st := by
  induction k generalizing i st with
  | zero => rfl
  | succ k ih =>
    rw [List.range'_succ, List.map_cons]
    unfold copyPtrs
    by_cases h : st.toRead > 0
    · rw [if_pos h]
      by_cases h0 : ptrs i = 0
      · rw [if_pos h0, List.takeWhile_cons_of_neg (by simpa using h0)]
        rfl
      · rw [if_neg h0, List.takeWhile_cons_of_pos (by simpa using h0), ih]
        rfl
    · rw [if_neg h, copyList_done (by omega)]

/-- Pointers that are a list of nonzero numbers, and zero behind it. -/
theorem takeWhile_ptrs {f : Nat → Nat} {es : List Nat} {n : Nat}
    (hf : ∀ j < n, f j = es.getD j 0) (hn : es.length ≤ n) (h0 : ∀ b ∈ es, b ≠ 0) :
    ((List.range' 0 n).map f).takeWhile (· ≠ 0) = es := by
  induction es generalizing f n with
  | nil =>
    cases n with
    | zero => rfl
    | succ n =>
      rw [List.range'_succ, List.map_cons, List.takeWhile_cons_of_neg]
      have := hf 0 (by omega)
      simpa using this
  | cons b es ih =>
    cases n with
    | zero => simp at hn
    | succ n =>
      have hb : f 0 = b := by simpa using hf 0 (by omega)
      have hb0 := h0 b (by simp)
      have hshift : (List.range' (0 + 1) n).map f = (List.range' 0 n).map fun j => f (j + 1) := by
        rw [Nat.zero_add, List.range'_eq_map_range, List.range'_eq_map_range, List.map_map,
          List.map_map]
        apply List.map_congr_left
        intro j _
        simp [Nat.add_comm]
      rw [List.range'_succ, List.map_cons, hb, List.takeWhile_cons_of_pos (by simpa using hb0),
        hshift, ih (fun j hj => by simpa using hf (j + 1) (by omega)) (by simpa using hn)
          fun c hc => h0 c (List.mem_cons_of_mem _ hc)]

theorem copyPtrs_block {fs : Fs} {b : Nat} {es : List Nat} {st : Copy} (h : PtrBlock fs.disk b es)
    (h0 : ∀ e ∈ es, e ≠ 0) : copyPtrs fs (ptr (fs.readBlocks b)) 128 0 st = copyList fs es st := by
  rw [copyPtrs_eq, takeWhile_ptrs (fun j hj => ?_) h.1 h0]
  rw [ptr_readBlocks fs b hj]
  exact h.2 j hj

/-- The outer loop over a double indirect block with the pointer blocks `ps`. -/
theorem copyDouble_eq {fs : Fs} {ps : List (Nat × List Nat)} {f : Nat → Nat} :
    ∀ {k i : Nat} {st : Copy}, ps.length ≤ k →
      (∀ j < k, f (i + j) = (ps.map fun p => p.1).getD j 0) →
      (∀ p ∈ ps, PtrBlock fs.disk p.1 p.2 ∧ p.1 ≠ 0 ∧ ∀ b ∈ p.2, b ≠ 0) →
      copyDouble fs f k i st = copyList fs (ps.flatMap fun p => p.2) st := by
  induction ps with
  | nil =>
    intro k i st _ hf _
    cases k with
    | zero => rfl
    | succ k =>
      have h0 : f i = 0 := hf 0 (by omega)
      unfold copyDouble
      rw [h0, if_pos rfl]
      split <;> rfl
  | cons p ps ih =>
    intro k i st hlen hf hall
    obtain ⟨hblk, hp0, hes⟩ := hall p (by simp)
    cases k with
    | zero => simp at hlen
    | succ k =>
      have h0 : f i = p.1 := by simpa using hf 0 (by omega)
      unfold copyDouble
      by_cases h : st.toRead > 0
      · rw [if_pos h, h0, if_neg hp0, copyPtrs_block hblk hes, List.flatMap_cons, copyList_append]
        refine ih (by simpa using hlen) (fun j hj => ?_)
          fun q hq => hall q (List.mem_cons_of_mem _ hq)
        rw [Nat.add_assoc, Nat.add_comm 1 j]
        simpa using hf (j + 1) (by omega)
      · rw [if_neg h, copyList_done (by omega)]

/-- On a node that holds a tree, `read` copies the data blocks of the tree in order. -/
theorem copyFile_eq {fs : Fs} {node : Mem} {t : FileTree} (h : t.Holds fs.disk node)
    (h0 : ∀ b ∈ t.blocks, b ≠ 0) (out : Mem) :
    copyFile fs node out = copyList fs t.data ⟨iSize node, 0, out⟩ := by
  have hdir : ∀ st, copyPtrs fs (iBlock node) 12 0 st = copyList fs t.direct st := by
    intro st
    rw [copyPtrs_eq, takeWhile_ptrs h.direct h.directLen]
    exact fun b hb => h0 b (by simp [FileTree.blocks, hb])
  have hsingle : ∀ st, (if st.toRead > 0 ∧ iBlock node 12 ≠ 0 then
      copyPtrs fs (ptr (fs.readBlocks (iBlock node 12))) 128 0 st else st) =
      copyList fs (t.single.elim [] fun p => p.2) st := by
    intro st
    cases hs : t.single with
    | none =>
      rw [h.single, hs, if_neg (by simp)]
      rfl
    | some p =>
      have hp := FileTree.mem_single hs
      have h12 : iBlock node 12 = p.1 := by rw [h.single, hs]; rfl
      rw [h12]
      by_cases hst : st.toRead > 0
      · rw [if_pos ⟨hst, h0 _ hp.1⟩,
          copyPtrs_block (h.singleBlock p hs) fun e he => h0 e (hp.2 e he)]
        rfl
      · rw [if_neg fun hc => hst hc.1, copyList_done (by omega)]
  have hdouble : ∀ st, (if st.toRead > 0 ∧ iBlock node 13 ≠ 0 then
      copyDouble fs (ptr (fs.readBlocks (iBlock node 13))) 128 0 st else st) =
      copyList fs (t.double.elim [] fun q => q.2.flatMap fun p => p.2) st := by
    intro st
    cases hs : t.double with
    | none =>
      rw [h.double, hs, if_neg (by simp)]
      rfl
    | some q =>
      have hq := FileTree.mem_double hs
      have hblk := h.doubleBlock q hs
      have h13 : iBlock node 13 = q.1 := by rw [h.double, hs]; rfl
      rw [h13]
      by_cases hst : st.toRead > 0
      · rw [if_pos ⟨hst, h0 _ hq.1⟩, copyDouble_eq (by simpa using hblk.1) (fun j hj => ?_)
          fun p hp => ⟨h.inner q hs p hp, h0 _ (hq.2 p hp).1,
            fun b hb => h0 b ((hq.2 p hp).2 b hb)⟩]
        · rfl
        · rw [Nat.zero_add, ptr_readBlocks fs _ hj]
          exact hblk.2 j hj
      · rw [if_neg fun hc => hst hc.1, copyList_done (by omega)]
  unfold copyFile
  dsimp only
  rw [hdir, hsingle, hdouble]
  unfold FileTree.data
  rw [copyList_append, copyList_append]

/-! ## What is copied -/

theorem copyList_out (fs : Fs) (L : List Nat) (st : Copy) (k : Nat) :
    (copyList fs L st).out k =
      if st.copied ≤ k ∧ k < st.copied + st.toRead ∧ k < st.copied + 512 * L.length then
        (fs.disk (L.getD ((k - st.copied) / 512) 0)).mem ((k - st.copied) % 512)
      else st.out k := by
  induction L generalizing st with
  | nil =>
    rw [if_neg]
    · rfl
    · simp only [List.length_nil]; omega
  | cons b L ih =>
    obtain ⟨n, c, out⟩ := st
    show (copyList fs L (copyBlock fs b ⟨n, c, out⟩)).out k = _
    rw [ih]
    unfold copyBlock
    dsimp only
    rw [List.length_cons]
    by_cases hn : n > 512
    · rw [if_pos hn]
      by_cases hk : c + 512 ≤ k ∧ k < c + n ∧ k < c + 512 * (L.length + 1)
      · rw [if_pos (by omega), if_pos (by omega),
          show (k - c) / 512 = (k - (c + 512)) / 512 + 1 by omega, List.getD_cons_succ,
          show (k - (c + 512)) % 512 = (k - c) % 512 by omega]
      · rw [if_neg (by omega)]
        by_cases hkc : c ≤ k ∧ k < c + 512
        · rw [if_pos (by omega), blit_of_mem hkc.1 hkc.2, readBlocks_of_lt _ _ (by omega),
            show (k - c) / 512 = 0 by omega, List.getD_cons_zero,
            show (k - c) % 512 = k - c by omega]
        · rw [if_neg (by omega), blit_of_not_mem (by omega)]
    · rw [if_neg hn, if_neg (by omega)]
      by_cases hkc : c ≤ k ∧ k < c + n
      · rw [if_pos (by omega), blit_of_mem hkc.1 hkc.2, readBlocks_of_lt _ _ (by omega),
          show (k - c) / 512 = 0 by omega, List.getD_cons_zero,
          show (k - c) % 512 = k - c by omega]
      · rw [if_neg (by omega), blit_of_not_mem (by omega)]

/-- A byte of a file that lies in block `a` comes from the request. -/
theorem chunk_apply {data node : Mem} {k : Nat} (hb : iBlocks node = (iSize node + 511) / 512)
    (hk : k < iSize node) : (chunk data node (k / 512)).mem (k % 512) = data k := by
  rw [Block.mem_of_lt _ (Nat.mod_lt _ (by decide))]
  unfold chunk
  have : k % 512 < chunkLen node (k / 512) := by
    unfold chunkLen
    dsimp only
    rw [hb]
    split <;> split <;> omega
  rw [if_pos this, Nat.div_add_mod']

/-! ## What the copy depends on -/

theorem copyBlock_congr {fs fs' : Fs} {b : Nat} (h : fs'.disk b = fs.disk b) (st : Copy) :
    copyBlock fs' b st = copyBlock fs b st := by
  have hout : ∀ n ≤ 512, blit st.out st.copied (fs'.readBlocks b) n =
      blit st.out st.copied (fs.readBlocks b) n := by
    intro n hn
    funext p
    by_cases hp : st.copied ≤ p ∧ p < st.copied + n
    · rw [blit_of_mem hp.1 hp.2, blit_of_mem hp.1 hp.2, readBlocks_of_lt _ _ (by omega),
        readBlocks_of_lt _ _ (by omega), h]
    · rw [blit_of_not_mem (by omega), blit_of_not_mem (by omega)]
  unfold copyBlock
  dsimp only
  rw [hout _ (by split <;> omega)]

theorem copyPtrs_congr {fs fs' : Fs} {f f' : Nat → Nat} :
    ∀ {k i : Nat} (_ : ∀ j, i ≤ j → j < i + k → f' j = f j ∧
      (f j ≠ 0 → fs'.disk (f j) = fs.disk (f j))) (st : Copy),
      copyPtrs fs' f' k i st = copyPtrs fs f k i st := by
  intro k
  induction k with
  | zero => intro i _ st; rfl
  | succ k ih =>
    intro i h st
    unfold copyPtrs
    obtain ⟨hf, hd⟩ := h i le_rfl (by omega)
    rw [hf]
    split
    · split
      · rfl
      · rename_i h0
        rw [copyBlock_congr (hd h0), ih fun j h1 h2 => h j (by omega) (by omega)]
    · rfl

/-- Equal pointer blocks give equal copies, when the blocks behind them are equal too. -/
theorem copyPtrs_block_congr {fs fs' : Fs} {b : Nat} (hb : fs'.disk b = fs.disk b)
    (h : ∀ c ∈ pointed fs.disk 128 b, fs'.disk c = fs.disk c) (st : Copy) :
    copyPtrs fs' (ptr (fs'.readBlocks b)) 128 0 st =
      copyPtrs fs (ptr (fs.readBlocks b)) 128 0 st := by
  refine copyPtrs_congr (fun j _ hj => ?_) st
  rw [ptr_readBlocks fs' b (by omega), ptr_readBlocks fs b (by omega), hb]
  refine ⟨rfl, fun h0 => h _ ?_⟩
  exact List.mem_append_left _ (mem_nonzero.mpr ⟨h0, j, by omega, rfl⟩)

theorem copyDouble_congr {fs fs' : Fs} {f f' : Nat → Nat} :
    ∀ {k i : Nat} (_ : ∀ j, i ≤ j → j < i + k → f' j = f j ∧
      (f j ≠ 0 → ∀ c ∈ pointed fs.disk 128 (f j), fs'.disk c = fs.disk c)) (st : Copy),
      copyDouble fs' f' k i st = copyDouble fs f k i st := by
  intro k
  induction k with
  | zero => intro i _ st; rfl
  | succ k ih =>
    intro i h st
    unfold copyDouble
    obtain ⟨hf, hd⟩ := h i le_rfl (by omega)
    rw [hf]
    split
    · split
      · rfl
      · rename_i h0
        rw [copyPtrs_block_congr (hd h0 _ (by simp [pointed])) (hd h0),
          ih fun j h1 h2 => h j (by omega) (by omega)]
    · rfl

/-- The copy of a file depends on its node and on the blocks its pointers reach. -/
theorem copyFile_congr {fs fs' : Fs} {node node' : Mem} (hn : ∀ o < 70, node' o = node o)
    (hd : ∀ b ∈ treeBlocks fs.disk node, fs'.disk b = fs.disk b) (out : Mem) :
    copyFile fs' node' out = copyFile fs node out := by
  have hib : ∀ j < 14, iBlock node' j = iBlock node j := fun j hj => iBlock_congr hn (by omega)
  unfold treeBlocks at hd
  have hdir : ∀ st, copyPtrs fs' (iBlock node') 12 0 st = copyPtrs fs (iBlock node) 12 0 st := by
    refine copyPtrs_congr fun j _ hj => ⟨hib j (by omega), fun h0 => hd _ ?_⟩
    refine List.mem_append_left _ (List.mem_append_left _ ?_)
    exact mem_nonzero.mpr ⟨h0, j, by omega, rfl⟩
  have hsingle : ∀ st : Copy, (if st.toRead > 0 ∧ iBlock node 12 ≠ 0 then
      copyPtrs fs' (ptr (fs'.readBlocks (iBlock node 12))) 128 0 st else st) =
      if st.toRead > 0 ∧ iBlock node 12 ≠ 0 then
        copyPtrs fs (ptr (fs.readBlocks (iBlock node 12))) 128 0 st else st := by
    intro st
    split
    · rename_i h0
      have hin : ∀ c ∈ pointed fs.disk 128 (iBlock node 12), fs'.disk c = fs.disk c := by
        intro c hc
        refine hd c (List.mem_append_left _ (List.mem_append_right _ ?_))
        rw [if_pos h0.2]; exact hc
      exact copyPtrs_block_congr (hin _ (by simp [pointed])) hin st
    · rfl
  have hdouble : ∀ st : Copy, (if st.toRead > 0 ∧ iBlock node 13 ≠ 0 then
      copyDouble fs' (ptr (fs'.readBlocks (iBlock node 13))) 128 0 st else st) =
      if st.toRead > 0 ∧ iBlock node 13 ≠ 0 then
        copyDouble fs (ptr (fs.readBlocks (iBlock node 13))) 128 0 st else st := by
    intro st
    split
    · rename_i h0
      have hin : ∀ c ∈ (nonzero (ptr (fs.disk (iBlock node 13)).mem) 128).flatMap
          (pointed fs.disk 128) ++ [iBlock node 13], fs'.disk c = fs.disk c := by
        intro c hc
        refine hd c (List.mem_append_right _ ?_)
        rw [if_pos h0.2]; exact hc
      refine copyDouble_congr (fun j _ hj => ?_) st
      rw [ptr_readBlocks fs' _ (by omega), ptr_readBlocks fs _ (by omega), hin _ (by simp)]
      refine ⟨rfl, fun hj0 c hc => hin c (List.mem_append_left _ ?_)⟩
      exact List.mem_flatMap.mpr ⟨_, mem_nonzero.mpr ⟨hj0, j, by omega, rfl⟩, hc⟩
    · rfl
  unfold copyFile
  dsimp only
  rw [iSize_congr hn, hib 12 (by decide), hib 13 (by decide), hdir, hsingle, hdouble]

end LossOs.Ext2
