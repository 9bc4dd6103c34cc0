/-
  Pointer trees: the blocks that belong to a file.

  `treeBlocks` collects every block that the pointers of a node reach, `fileBlocks` those
  that `deallocate_node` visits, in its order; the second list is part of the first
  (`fileBlocks_sublist`). A `FileTree` is the shape that `allocate_node_blocks` builds:
  data blocks, and the pointer blocks over them. On a node that holds a tree of the shape
  for `n` blocks the two lists agree (`treeBlocks_eq`, `fileBlocks_eq`), and a tree is full
  exactly when it has `blocksNeeded n` blocks (`FileTree.Shape.length_blocks`).
-/
import LossOs.Ext2.Alloc

namespace LossOs.Ext2

open LossOs.Lib

/-! ## Fields of a node under `allocate_node_blocks` -/

theorem iBlock_setIBlock (node : Mem) (i j v : Nat) :
    iBlock (setIBlock node i v) j = if j = i then v % 4294967296 else iBlock node j := by
  unfold iBlock setIBlock
  by_cases h : j = i
  · rw [h, if_pos rfl, rd32_wr32]
  · rw [if_neg h, rd32_wr32_of_ne (by omega)]

theorem setIBlock_of_lt {node : Mem} {i v o : Nat} (h : o < 10) : setIBlock node i v o = node o :=
  wr32_of_not_mem (by omega)

theorem iBlocks_congr_low {m m' : Mem} (h : ∀ o < 10, m o = m' o) : iBlocks m = iBlocks m' :=
  rd32_congr fun o _ ho => h o (by omega)

theorem iSize_congr_low {m m' : Mem} (h : ∀ o < 10, m o = m' o) : iSize m = iSize m' :=
  rd32_congr fun o _ ho => h o (by omega)

theorem iMode_congr_low {m m' : Mem} (h : ∀ o < 10, m o = m' o) : iMode m = iMode m' :=
  rd16_congr fun o _ ho => h o (by omega)

theorem ptr_wr32 (m : Mem) (i j v : Nat) :
    ptr (wr32 m (i * 4) v) j = if j = i then v % 4294967296 else ptr m j := by
  unfold ptr
  by_cases h : j = i
  · rw [h, if_pos rfl, Nat.mul_comm, rd32_wr32]
  · rw [if_neg h, rd32_wr32_of_ne (by omega)]

theorem ptr_congr {m m' : Mem} {j : Nat} (h : ∀ o < 512, m o = m' o) (hj : j < 128) :
    ptr m j = ptr m' j :=
  rd32_congr fun o _ ho => h o (by omega)

theorem ptr_readBlocks (fs : Fs) (b : Nat) {j : Nat} (hj : j < 128) :
    ptr (fs.readBlocks b) j = ptr (fs.disk b).mem j :=
  ptr_congr (fun _ ho => readBlocks_of_lt fs b ho) hj

/-! ## Pointers that are not 0 -/

/-- The nonzero ones among the first `n` pointers. -/
def nonzero (ptrs : Nat → Nat) (n : Nat) : List Nat := ((List.range n).map ptrs).filter (· ≠ 0)

theorem mem_nonzero {f : Nat → Nat} {n b : Nat} :
    b ∈ nonzero f n ↔ b ≠ 0 ∧ ∃ j < n, f j = b := by
  simp [nonzero, and_comm]

theorem nonzero_congr {f g : Nat → Nat} {n : Nat} (h : ∀ j < n, f j = g j) :
    nonzero f n = nonzero g n := by
  unfold nonzero
  rw [List.map_congr_left fun j hj => h j (List.mem_range.mp hj)]

theorem nonzero_sublist (f : Nat → Nat) {m n : Nat} (h : m ≤ n) :
    (nonzero f m).Sublist (nonzero f n) :=
  ((List.range_sublist.mpr h).map f).filter _

/-- Pointers that are a list of nonzero numbers, and zero behind it. -/
theorem nonzero_eq {f : Nat → Nat} (es : List Nat) {n : Nat} (hf : ∀ j < n, f j = es.getD j 0)
    (hn : es.length ≤ n) (h0 : ∀ b ∈ es, b ≠ 0) : nonzero f n = es := by
  have hmap : (List.range n).map f = es ++ List.replicate (n - es.length) 0 := by
    apply List.ext_getElem (by simp; omega)
    intro j h1 h2
    simp only [List.length_map, List.length_range] at h1
    rw [List.getElem_map, List.getElem_range, hf j h1]
    by_cases hj : j < es.length
    · simp [hj]
    · rw [List.getElem_append_right (by omega), List.getElem_replicate, List.getD_eq_default]
      omega
  unfold nonzero
  rw [hmap, List.filter_append, List.filter_eq_self.mpr (by simpa using h0)]
  simp

theorem nonzero_zero {f : Nat → Nat} {n : Nat} (h : ∀ j < n, f j = 0) : nonzero f n = [] :=
  nonzero_eq [] (fun j hj => by rw [h j hj]; rfl) (Nat.zero_le _) (by simp)

/-! ## The blocks of a node -/

/-- A pointer block behind the first `n` blocks it points to. -/
def pointed (d : Disk) (n b : Nat) : List Nat := nonzero (ptr (d b).mem) n ++ [b]

/-- Every block that the pointers of a node reach. -/
def treeBlocks (d : Disk) (node : Mem) : List Nat :=
  nonzero (iBlock node) 12 ++
  (if iBlock node 12 ≠ 0 then pointed d 128 (iBlock node 12) else []) ++
  (if iBlock node 13 ≠ 0 then
    (nonzero (ptr (d (iBlock node 13)).mem) 128).flatMap (pointed d 128) ++ [iBlock node 13]
    else [])

/-- The blocks that the loop over the double indirect pointers frees. -/
def doubleBlocks (d : Disk) (dblPtrs : Nat → Nat) : (k i total : Nat) → List Nat
  | 0, _, _ => []
  | k + 1, i, total =>
      if total > 0 then
        if dblPtrs i ≠ 0 then
          pointed d (min total 128) (dblPtrs i) ++
            doubleBlocks d dblPtrs k (i + 1) (total - min total 128)
        else doubleBlocks d dblPtrs k (i + 1) total
      else []

/-- What the single indirect part leaves of `remain`. -/
def singleRest (node : Mem) (remain : Nat) : Nat :=
  if remain > 0 ∧ iBlock node 12 ≠ 0 then remain - min remain 128 else remain

/-- The blocks that `deallocate_node` frees, in its order. -/
def fileBlocks (d : Disk) (node : Mem) : List Nat :=
  let remain := iBlocks node - min 12 (iBlocks node)
  nonzero (iBlock node) (min 12 (iBlocks node)) ++
  (if remain > 0 ∧ iBlock node 12 ≠ 0 then pointed d (min remain 128) (iBlock node 12) else []) ++
  (if singleRest node remain > 0 ∧ iBlock node 13 ≠ 0 then
    doubleBlocks d (ptr (d (iBlock node 13)).mem) 128 0 (singleRest node remain) ++
      [iBlock node 13] else [])

theorem pointed_sublist (d : Disk) (b : Nat) {m n : Nat} (h : m ≤ n) :
    (pointed d m b).Sublist (pointed d n b) :=
  (nonzero_sublist _ h).append (List.Sublist.refl _)

theorem pointed_congr {d d' : Disk} {n b : Nat} (h : d' b = d b) :
    pointed d' n b = pointed d n b := by
  unfold pointed; rw [h]

theorem doubleBlocks_sublist (d : Disk) (f : Nat → Nat) (k i total : Nat) :
    (doubleBlocks d f k i total).Sublist
      ((((List.range' i k).map f).filter (· ≠ 0)).flatMap (pointed d 128)) := by
  induction k generalizing i total with
  | zero => exact List.Sublist.refl _
  | succ k ih =>
    unfold doubleBlocks
    rw [List.range'_succ, List.map_cons]
    split
    · by_cases h0 : f i = 0
      · rw [if_neg (by simpa using h0), List.filter_cons_of_neg (by simpa using h0)]
        exact ih (i + 1) total
      · rw [if_pos h0, List.filter_cons_of_pos (by simpa using h0), List.flatMap_cons]
        exact (pointed_sublist d _ (Nat.min_le_right _ _)).append (ih _ _)
    · exact List.nil_sublist _

/-- `deallocate_node` visits only blocks that the pointers reach, each as often. -/
theorem fileBlocks_sublist (d : Disk) (node : Mem) :
    (fileBlocks d node).Sublist (treeBlocks d node) := by
  unfold fileBlocks treeBlocks
  refine ((nonzero_sublist _ (Nat.min_le_left _ _)).append ?_).append ?_
  · split
    · rename_i h
      rw [if_pos h.2]
      exact pointed_sublist d _ (Nat.min_le_right _ _)
    · exact List.nil_sublist _
  · split
    · rename_i h
      rw [if_pos h.2]
      have := doubleBlocks_sublist d (ptr (d (iBlock node 13)).mem) 128 0
        (singleRest node (iBlocks node - min 12 (iBlocks node)))
      rw [← List.range_eq_range'] at this
      exact this.append (List.Sublist.refl _)
    · exact List.nil_sublist _

/-- The tree of a node depends on its pointers and on the blocks of the tree. -/
theorem treeBlocks_congr {d d' : Disk} {node node' : Mem}
    (hn : ∀ j < 14, iBlock node' j = iBlock node j)
    (hd : ∀ b ∈ treeBlocks d node, d' b = d b) : treeBlocks d' node' = treeBlocks d node := by
  have h12 := hn 12 (by decide)
  have h13 := hn 13 (by decide)
  unfold treeBlocks
  rw [nonzero_congr fun j hj => hn j (by omega), h12, h13]
  congr 1
  · congr 1
    split
    · rename_i h
      refine pointed_congr (hd _ ?_)
      unfold treeBlocks
      simp [h, pointed]
    · rfl
  · split
    · rename_i h
      have e : d' (iBlock node 13) = d (iBlock node 13) := by
        apply hd _
        unfold treeBlocks
        simp [h]
      rw [e]
      congr 1
      refine List.flatMap_congr fun b hb => pointed_congr (hd b ?_)
      unfold treeBlocks
      rw [if_pos (show iBlock node 13 ≠ 0 from h)]
      refine List.mem_append_right _ (List.mem_append_left _ ?_)
      exact List.mem_flatMap.mpr ⟨b, hb, by simp [pointed]⟩
    · rfl

/-- A node without pointers has no blocks. -/
theorem treeBlocks_zero {d : Disk} {node : Mem} (h : ∀ j < 14, iBlock node j = 0) :
    treeBlocks d node = [] := by
  unfold treeBlocks
  rw [nonzero_zero fun j hj => h j (by omega), h 12 (by decide), h 13 (by decide)]
  rfl

/-- The blocks of a node with at most 12 blocks are its direct ones. -/
theorem fileBlocks_of_le {d : Disk} {node : Mem} (h : iBlocks node ≤ 12) :
    fileBlocks d node = nonzero (iBlock node) (iBlocks node) := by
  have e : singleRest node (iBlocks node - min 12 (iBlocks node)) = 0 := by
    unfold singleRest; split <;> omega
  unfold fileBlocks
  dsimp only
  rw [e, if_neg (by omega), if_neg (by omega), List.append_nil, List.append_nil,
    Nat.min_eq_right h]

/-! ## Trees -/

/-- A file: its data blocks, and the pointer blocks over those from number 12 on. -/
structure FileTree where
  direct : List Nat
  single : Option (Nat × List Nat)
  double : Option (Nat × List (Nat × List Nat))

/-- The data blocks in file order. -/
def FileTree.data (t : FileTree) : List Nat :=
  t.direct ++ t.single.elim [] (fun p => p.2) ++
    t.double.elim [] (fun q => q.2.flatMap fun p => p.2)

/-- All blocks, in the order of `deallocate_node`. -/
def FileTree.blocks (t : FileTree) : List Nat :=
  t.direct ++ t.single.elim [] (fun p => p.2 ++ [p.1]) ++
    t.double.elim [] (fun q => q.2.flatMap (fun p => p.2 ++ [p.1]) ++ [q.1])

/-- Block `b` of the disk is a pointer block with the pointers `es`, zero behind them. -/
def PtrBlock (d : Disk) (b : Nat) (es : List Nat) : Prop :=
  es.length ≤ 128 ∧ ∀ j < 128, ptr (d b).mem j = es.getD j 0

/-- The pointers of `node` are the tree `t`. -/
structure FileTree.Holds (t : FileTree) (d : Disk) (node : Mem) : Prop where
  directLen : t.direct.length ≤ 12
  direct : ∀ j < 12, iBlock node j = t.direct.getD j 0
  single : iBlock node 12 = t.single.elim 0 (fun p => p.1)
  singleBlock : ∀ p, t.single = some p → PtrBlock d p.1 p.2
  double : iBlock node 13 = t.double.elim 0 (fun q => q.1)
  doubleBlock : ∀ q, t.double = some q → PtrBlock d q.1 (q.2.map fun p => p.1)
  inner : ∀ q, t.double = some q → ∀ p ∈ q.2, PtrBlock d p.1 p.2

/-- The pointer blocks under a double indirect block, for `r` data blocks: all but the last
    one are full. -/
def Fits : (r : Nat) → List (Nat × List Nat) → Prop
  | _, [] => True
  | r, p :: ps => 0 < r ∧ p.2.length ≤ min r 128 ∧ (ps ≠ [] → p.2.length = min r 128) ∧
      Fits (r - 128) ps

/-- The shapes that an allocation of `n` data blocks goes through: each level starts when
    the one before it is full. -/
structure FileTree.Shape (n : Nat) (t : FileTree) : Prop where
  direct : t.direct.length ≤ min 12 n
  single : ∀ p, t.single = some p →
    12 < n ∧ t.direct.length = 12 ∧ p.2.length ≤ min 128 (n - 12)
  double : ∀ q, t.double = some q → 140 < n ∧ q.2.length ≤ 128 ∧ Fits (n - 140) q.2 ∧
    ∃ p, t.single = some p ∧ p.2.length = 128

/-- Data and pointer blocks of a file with `n` data blocks. -/
def blocksNeeded (n : Nat) : Nat :=
  if n ≤ 12 then n else if n ≤ 140 then n + 1 else n + 2 + (n - 140 + 127) / 128

theorem le_blocksNeeded (n : Nat) : n ≤ blocksNeeded n := by
  unfold blocksNeeded
  split
  · omega
  · split <;> omega

theorem nonzero_ptrBlock {d : Disk} {b n : Nat} {es : List Nat} (h : PtrBlock d b es)
    (hn : es.length ≤ n) (hn' : n ≤ 128) (h0 : ∀ e ∈ es, e ≠ 0) :
    nonzero (ptr (d b).mem) n = es :=
  nonzero_eq _ (fun j hj => h.2 j (by omega)) hn h0

section Trees

variable {t : FileTree} {d d' : Disk} {node node' : Mem} {n : Nat}

theorem FileTree.data_subset : ∀ b ∈ t.data, b ∈ t.blocks := by
  intro b hb
  unfold FileTree.data at hb
  unfold FileTree.blocks
  rcases List.mem_append.mp hb with hb | hb
  · apply List.mem_append_left _
    rcases List.mem_append.mp hb with hb | hb
    · exact List.mem_append_left _ hb
    · apply List.mem_append_right _
      cases hs : t.single with
      | none => rw [hs] at hb; cases hb
      | some p => rw [hs] at hb; exact List.mem_append_left _ hb
  · apply List.mem_append_right _
    cases hs : t.double with
    | none => rw [hs] at hb; cases hb
    | some q =>
      rw [hs] at hb
      obtain ⟨p, hp, hbp⟩ := List.mem_flatMap.mp hb
      exact List.mem_append_left _ (List.mem_flatMap.mpr ⟨p, hp, List.mem_append_left _ hbp⟩)

theorem FileTree.mem_single {p : Nat × List Nat} (h : t.single = some p) :
    p.1 ∈ t.blocks ∧ ∀ b ∈ p.2, b ∈ t.blocks := by
  unfold FileTree.blocks
  rw [h]
  constructor
  · simp
  · intro b hb; simp [hb]

theorem FileTree.mem_double {q : Nat × List (Nat × List Nat)} (h : t.double = some q) :
    q.1 ∈ t.blocks ∧ ∀ p ∈ q.2, p.1 ∈ t.blocks ∧ ∀ b ∈ p.2, b ∈ t.blocks := by
  have hin : ∀ p ∈ q.2, ∀ b ∈ p.2 ++ [p.1], b ∈ t.blocks := by
    intro p hp b hb
    unfold FileTree.blocks
    rw [h]
    exact List.mem_append_right _ (List.mem_append_left _ (List.mem_flatMap.mpr ⟨p, hp, hb⟩))
  refine ⟨by unfold FileTree.blocks; rw [h]; simp, fun p hp => ⟨hin p hp _ (by simp), ?_⟩⟩
  intro b hb
  exact hin p hp b (List.mem_append_left _ hb)

/-- The tree lies in the blocks of the tree. -/
theorem FileTree.Holds.congr (h : t.Holds d node) (hn : ∀ j < 14, iBlock node' j = iBlock node j)
    (hd : ∀ b ∈ t.blocks, d' b = d b) : t.Holds d' node' where
  directLen := h.directLen
  direct := fun j hj => by rw [hn j (by omega)]; exact h.direct j hj
  single := by rw [hn 12 (by decide)]; exact h.single
  singleBlock := fun p hp => by
    have := h.singleBlock p hp
    unfold PtrBlock at this ⊢
    rw [hd _ (FileTree.mem_single hp).1]; exact this
  double := by rw [hn 13 (by decide)]; exact h.double
  doubleBlock := fun q hq => by
    have := h.doubleBlock q hq
    unfold PtrBlock at this ⊢
    rw [hd _ (FileTree.mem_double hq).1]; exact this
  inner := fun q hq p hp => by
    have := h.inner q hq p hp
    unfold PtrBlock at this ⊢
    rw [hd _ ((FileTree.mem_double hq).2 p hp).1]; exact this

/-- Everything that the pointers of a tree reach is in the tree. -/
theorem treeBlocks_eq (h : t.Holds d node) (h0 : ∀ b ∈ t.blocks, b ≠ 0) :
    treeBlocks d node = t.blocks := by
  have hdir : nonzero (iBlock node) 12 = t.direct :=
    nonzero_eq _ h.direct h.directLen fun b hb => h0 b (by simp [FileTree.blocks, hb])
  unfold treeBlocks FileTree.blocks
  rw [hdir]
  congr 1
  · congr 1
    cases hs : t.single with
    | none => rw [h.single, hs]; simp
    | some p =>
      have hp := FileTree.mem_single hs
      have hblk := h.singleBlock p hs
      have h12 : iBlock node 12 = p.1 := by rw [h.single, hs]; rfl
      simp only [Option.elim_some]
      rw [h12, if_pos (h0 _ hp.1), pointed,
        nonzero_ptrBlock hblk hblk.1 le_rfl fun e he => h0 e (hp.2 e he)]
  · cases hq : t.double with
    | none => rw [h.double, hq]; simp
    | some q =>
      have hp := FileTree.mem_double hq
      have hblk := h.doubleBlock q hq
      have h13 : iBlock node 13 = q.1 := by rw [h.double, hq]; rfl
      simp only [Option.elim_some]
      rw [h13, if_pos (h0 _ hp.1), nonzero_ptrBlock hblk hblk.1 le_rfl, List.flatMap_map]
      · congr 1
        apply List.flatMap_congr
        intro p hpq
        have hi := h.inner q hq p hpq
        rw [pointed, nonzero_ptrBlock hi hi.1 le_rfl fun e he => h0 e ((hp.2 p hpq).2 e he)]
      · intro e he
        obtain ⟨p, hpq, rfl⟩ := List.mem_map.mp he
        exact h0 _ (hp.2 p hpq).1

theorem doubleBlocks_zero {f : Nat → Nat} {k i r : Nat} (h : ∀ j < k, f (i + j) = 0) :
    doubleBlocks d f k i r = [] := by
  induction k generalizing i with
  | zero => rfl
  | succ k ih =>
    unfold doubleBlocks
    have h0 : f i = 0 := h 0 (by omega)
    rw [h0, ih fun j hj => by rw [Nat.add_assoc, Nat.add_comm 1 j]; exact h (j + 1) (by omega)]
    simp

/-- The walk of `deallocate_node` under a double indirect block of the right shape. -/
theorem doubleBlocks_eq {ps : List (Nat × List Nat)} {f : Nat → Nat} :
    ∀ {k i r : Nat}, Fits r ps → ps.length ≤ k →
      (∀ j < k, f (i + j) = (ps.map fun p => p.1).getD j 0) →
      (∀ p ∈ ps, PtrBlock d p.1 p.2 ∧ p.1 ≠ 0 ∧ ∀ b ∈ p.2, b ≠ 0) →
      doubleBlocks d f k i r = ps.flatMap fun p => p.2 ++ [p.1] := by
  induction ps with
  | nil =>
    intro k i r _ _ hf _
    exact doubleBlocks_zero fun j hj => by rw [hf j hj]; rfl
  | cons p ps ih =>
    intro k i r hfit hlen hf hall
    obtain ⟨hr, hle, hfull, hrest⟩ := hfit
    obtain ⟨hblk, hp0, hes⟩ := hall p (by simp)
    cases k with
    | zero => simp at hlen
    | succ k =>
      have h0 : f i = p.1 := by simpa using hf 0 (by omega)
      unfold doubleBlocks
      rw [if_pos hr, h0, if_pos hp0, List.flatMap_cons, pointed,
        nonzero_ptrBlock hblk hle (Nat.min_le_right _ _) hes]
      congr 1
      have := ih (k := k) (i := i + 1) (r := r - 128) hrest (by simpa using hlen)
        (fun j hj => by
          have := hf (j + 1) (by omega)
          rw [Nat.add_assoc, Nat.add_comm 1 j]; simpa using this)
        fun q hq => hall q (List.mem_cons_of_mem _ hq)
      rw [show r - min r 128 = r - 128 by omega]
      exact this

/-- `deallocate_node` visits exactly the tree. -/
theorem fileBlocks_eq (h : t.Holds d node) (hs : t.Shape (iBlocks node))
    (h0 : ∀ b ∈ t.blocks, b ≠ 0) : fileBlocks d node = t.blocks := by
  have hdir : nonzero (iBlock node) (min 12 (iBlocks node)) = t.direct :=
    nonzero_eq _ (fun j hj => h.direct j (by omega)) hs.direct
      fun b hb => h0 b (by simp [FileTree.blocks, hb])
  unfold fileBlocks FileTree.blocks
  dsimp only
  rw [hdir]
  congr 1
  · congr 1
    cases hsg : t.single with
    | none => rw [h.single, hsg]; simp
    | some p =>
      obtain ⟨hlt, -, hle⟩ := hs.single p hsg
      have hp := FileTree.mem_single hsg
      have h12 : iBlock node 12 = p.1 := by rw [h.single, hsg]; rfl
      simp only [Option.elim_some]
      rw [h12, if_pos ⟨by omega, h0 _ hp.1⟩, pointed,
        nonzero_ptrBlock (h.singleBlock p hsg) (by omega) (by omega) fun e he => h0 e (hp.2 e he)]
  · cases hq : t.double with
    | none => rw [h.double, hq]; simp
    | some q =>
      obtain ⟨hlt, hlen, hfit, p, hsg, -⟩ := hs.double q hq
      have hp := FileTree.mem_double hq
      have h13 : iBlock node 13 = q.1 := by rw [h.double, hq]; rfl
      have h12 : iBlock node 12 ≠ 0 := by
        rw [h.single, hsg]; exact h0 _ (FileTree.mem_single hsg).1
      have hrest : singleRest node (iBlocks node - min 12 (iBlocks node)) = iBlocks node - 140 := by
        unfold singleRest
        rw [if_pos ⟨by omega, h12⟩]; omega
      simp only [Option.elim_some]
      rw [hrest, h13, if_pos ⟨by omega, h0 _ hp.1⟩]
      apply congrArg (· ++ [q.1])
      refine doubleBlocks_eq hfit hlen (fun j hj => ?_) fun p hpq =>
        ⟨h.inner q hq p hpq, h0 _ (hp.2 p hpq).1, fun b hb => h0 b ((hp.2 p hpq).2 b hb)⟩
      rw [Nat.zero_add]
      exact (h.doubleBlock q hq).2 j hj

/-- The blocks under a double indirect block, counted. -/
theorem Fits.length {r : Nat} {ps : List (Nat × List Nat)} (h : Fits r ps) :
    (ps.flatMap fun p => p.2).length ≤ r ∧
      ((ps.flatMap fun p => p.2).length = r → ps.length = (r + 127) / 128) ∧
      ((ps.flatMap fun p => p.2).length < r →
        ps.length + (ps.flatMap fun p => p.2).length < r + (r + 127) / 128) := by
  induction ps generalizing r with
  | nil =>
    refine ⟨Nat.zero_le _, fun h0 => ?_, fun h0 => ?_⟩
    · simp only [List.flatMap_nil, List.length_nil] at h0 ⊢; omega
    · simp only [List.flatMap_nil, List.length_nil] at h0 ⊢; omega
  | cons p ps ih =>
    obtain ⟨hr, hle, hfull, hrest⟩ := h
    obtain ⟨i1, i2, i3⟩ := ih hrest
    rw [List.flatMap_cons, List.length_append, List.length_cons]
    by_cases hps : ps = []
    · subst hps
      simp only [List.flatMap_nil, List.length_nil]
      refine ⟨by omega, fun h => by omega, fun h => by omega⟩
    · have hl := hfull hps
      have hpos : 0 < ps.length := List.length_pos_iff.mpr hps
      have hr' : 0 < r - 128 := by
        cases ps with
        | nil => exact absurd rfl hps
        | cons p' ps' => exact hrest.1
      refine ⟨by omega, fun h => ?_, fun h => ?_⟩
      · have := i2 (by omega); omega
      · have := i3 (by omega); omega

theorem length_flatMap_pointed (ps : List (Nat × List Nat)) :
    (ps.flatMap fun p => p.2 ++ [p.1]).length = ps.length + (ps.flatMap fun p => p.2).length := by
  induction ps with
  | nil => rfl
  | cons p ps ih =>
    simp only [List.flatMap_cons, List.length_append, List.length_cons, List.length_nil, ih]
    omega

/-- A tree of the shape for `n` has at most `n` data blocks; with all of them it has
    `blocksNeeded n` blocks, and otherwise fewer. -/
theorem FileTree.Shape.length_blocks (h : t.Shape n) :
    t.data.length ≤ n ∧ (t.data.length = n → t.blocks.length = blocksNeeded n) ∧
      (t.data.length < n → t.blocks.length < blocksNeeded n) := by
  have hd := h.direct
  unfold FileTree.data FileTree.blocks blocksNeeded
  simp only [List.length_append]
  cases hq : t.double with
  | some q =>
    obtain ⟨hn, -, hfit, p, hsg, hp⟩ := h.double q hq
    obtain ⟨h12, hdir, -⟩ := h.single p hsg
    obtain ⟨i1, i2, i3⟩ := hfit.length
    rw [hsg]
    simp only [Option.elim_some, List.length_append, List.length_singleton,
      length_flatMap_pointed]
    rw [if_neg (by omega), if_neg (by omega)]
    refine ⟨by omega, fun h => ?_, fun h => ?_⟩
    · have := i2 (by omega); omega
    · have := i3 (by omega); omega
  | none =>
    cases hsg : t.single with
    | some p =>
      obtain ⟨h12, hdir, hle⟩ := h.single p hsg
      simp only [Option.elim_some, Option.elim_none, List.length_append, List.length_singleton,
        List.length_nil]
      rw [if_neg (by omega)]
      refine ⟨by omega, fun h => ?_, fun h => ?_⟩
      · rw [if_pos (by omega)]; omega
      · split <;> omega
    | none =>
      simp only [Option.elim_none, List.length_nil]
      refine ⟨by omega, fun h => ?_, fun h => ?_⟩
      · rw [if_pos (by omega)]; omega
      · split
        · omega
        · split <;> omega

end Trees

end LossOs.Ext2
