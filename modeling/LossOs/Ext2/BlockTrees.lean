/-
  `deallocate_block`: when it frees the trees of its locations.

  With depth 0 it always does. With depth 1 or 2 there has to be one location, and what the loops
  take of its tree has to be all of it (`InReach`); then, and only then, the bits of all its blocks
  are cleared, the counters are right and the location is zero (`deallocateBlock_frees`).
-/
import Mathlib.Data.List.Flatten
import LossOs.Ext2.BlockLost

namespace LossOs.Ext2

open LossOs.Lib

/-! ## Trees -/

/-- The blocks of the tree with depth `depth` below block `b`, itself the last one. -/
def spanned (d : Disk) : (depth b : Nat) → List Nat
  | 0, b => [b]
  | depth + 1, b => (nonzero (ptr (d b).mem) 128).flatMap (spanned d depth) ++ [b]

/-- Its pointer blocks list their pointers first, and are zero behind them. -/
def Listed (d : Disk) : (depth b : Nat) → Prop
  | 0, _ => True
  | depth + 1, b => ∃ es, PtrBlock d b es ∧ ∀ e ∈ es, e ≠ 0 ∧ Listed d depth e

/-- The blocks of the trees of `n` locations. -/
def locationBlocks (d : Disk) (depth : Nat) (locations : Mem) (n : Nat) : List Nat :=
  (nonzero (ptr locations) n).flatMap (spanned d depth)

/-- The trees are made of different blocks in use, in a file system whose metadata are in use. -/
structure LocationTrees (fs : Fs) (locations : Mem) (n depth : Nat) : Prop where
  layout : Layout fs
  metaUsed : ∀ b, IsMeta b → blockUsed fs.disk b = true
  listed : ∀ b ∈ nonzero (ptr locations) n, Listed fs.disk depth b
  used : ∀ b ∈ locationBlocks fs.disk depth locations n, IsData b ∧ blockUsed fs.disk b = true
  nodup : (locationBlocks fs.disk depth locations n).Nodup

/-- The bits of the blocks `L` have been cleared and no others, they have been counted, and the
    locations are zero. -/
structure TreesFreed (fs : Fs) (L : List Nat) (n : Nat) (s : FreeState) : Prop where
  release : Release fs s.fs L
  groups : ∀ g, (s.fs.bgdtCache g).bgFreeBlocksCount =
    (fs.bgdtCache g).bgFreeBlocksCount + UInt16.ofNat (L.countP fun b => b / 256 = g)
  zeroed : ∀ i < n, ptr (s.mem 3) i = 0

/-- With pointers, there is one location, which is the first one. With depth 1 its block has no more
    pointers than there are places for locations. With depth 2 each block of pointers has one at
    most, and the count of the places is no multiple of 128 at which the inner loop ends before the
    last of them. -/
structure InReach (d : Disk) (locations : Mem) (n depth : Nat) : Prop where
  one : depth ≠ 0 → ∀ i, 1 ≤ i → i < n → ptr locations i = 0
  single : depth = 1 → 0 < n → ptr locations 0 ≠ 0 →
    (nonzero (ptr (d (ptr locations 0)).mem) 128).length ≤ n
  double : depth = 2 → 0 < n → ptr locations 0 ≠ 0 →
    (∀ e ∈ nonzero (ptr (d (ptr locations 0)).mem) 128, (nonzero (ptr (d e).mem) 128).length ≤ 1) ∧
      ∀ j < (nonzero (ptr (d (ptr locations 0)).mem) 128).length, n ≠ j * 128

section Trees

variable {d : Disk} {depth a b e n m : Nat} {es : List Nat} {p : Nat → Nat}

theorem mem_spanned_self (d : Disk) (depth b : Nat) : b ∈ spanned d depth b := by
  cases depth with
  | zero => exact List.mem_singleton_self b
  | succ depth => exact List.mem_append_right _ (List.mem_singleton_self b)

theorem spanned_ne_nil (d : Disk) (depth b : Nat) : spanned d depth b ≠ [] :=
  List.ne_nil_of_mem (mem_spanned_self d depth b)

/-- The tree of a pointer is a part of the tree. -/
theorem spanned_subset (he : e ∈ nonzero (ptr (d b).mem) 128) :
    ∀ x ∈ spanned d depth e, x ∈ spanned d (depth + 1) b :=
  fun _ hx => List.mem_append_left _ (List.mem_flatMap.mpr ⟨e, he, hx⟩)

theorem spanned_one (d : Disk) (b : Nat) : spanned d 1 b = pointed d 128 b := by
  show (nonzero (ptr (d b).mem) 128).flatMap (fun e => [e]) ++ [b] = _
  rw [List.flatMap_singleton']
  rfl

theorem spanned_two (d : Disk) (b : Nat) :
    spanned d 2 b = (nonzero (ptr (d b).mem) 128).flatMap (pointed d 128) ++ [b] := by
  show (nonzero (ptr (d b).mem) 128).flatMap (spanned d 1) ++ [b] = _
  rw [show spanned d 1 = pointed d 128 from funext (spanned_one d)]

/-- The pointers of a block of the tree are those of blocks of the disk. -/
theorem ptr_lt_of_spanned (h : ∀ x ∈ spanned d (depth + 1) b, IsData x) {j : Nat} (hj : j < 128) :
    ptr (d b).mem j < 2048 := by
  by_cases h0 : ptr (d b).mem j = 0
  · rw [h0]
    decide
  · have hmem : ptr (d b).mem j ∈ nonzero (ptr (d b).mem) 128 := mem_nonzero.mpr ⟨h0, j, hj, rfl⟩
    exact (h _ (spanned_subset hmem _ (mem_spanned_self d depth _))).1

/-- The first pointers of a block that lists them first. -/
theorem nonzero_take (h : PtrBlock d b es) (h0 : ∀ e ∈ es, e ≠ 0) (hn : n ≤ 128) :
    nonzero (ptr (d b).mem) n = es.take n := by
  apply nonzero_eq
  · intro j hj
    rw [h.2 j (by omega), List.getD_eq_getElem?_getD, List.getD_eq_getElem?_getD,
      List.getElem?_take_of_lt hj]
  · exact List.length_take_le n es
  · exact fun e he => h0 e (List.mem_of_mem_take he)

theorem nonzero_all (h : PtrBlock d b es) (h0 : ∀ e ∈ es, e ≠ 0) :
    nonzero (ptr (d b).mem) 128 = es := by
  rw [nonzero_take h h0 (Nat.le_refl _), List.take_of_length_le h.1]

theorem nonzero_cons (h0 : p 0 ≠ 0) (n : Nat) :
    nonzero p (n + 1) = p 0 :: nonzero (fun i => p (i + 1)) n := by
  unfold nonzero
  rw [List.range_succ_eq_map, List.map_cons, List.filter_cons_of_pos (by simpa using h0),
    List.map_map]
  rfl

theorem nonzero_eq_nil : nonzero p n = [] ↔ ∀ i < n, p i = 0 := by
  constructor
  · intro h i hi
    by_contra hne
    have hmem : p i ∈ nonzero p n := mem_nonzero.mpr ⟨hne, i, hi, rfl⟩
    rw [h] at hmem
    exact List.not_mem_nil hmem
  · exact nonzero_zero

end Trees

/-! ## What has been freed -/

section Freed

variable {fs : Fs} {locations : Mem} {blocks : UInt32} {n depth : Nat} {L R : List Nat}
  {s' : FreeState}

/-- Where a part `R` of the blocks `L` has been freed, it is all of them. -/
theorem treesFreed_iff (hl : Layout fs) (hL : ∀ b ∈ L, b < 2048 ∧ blockUsed fs.disk b = true)
    (hnodup : L.Nodup) (hR : R.Sublist L) (hfs : s'.fs = R.foldl freeBlock fs) :
    TreesFreed fs L n s' ↔ R = L ∧ ∀ i < n, ptr (s'.mem 3) i = 0 := by
  have hrel : Release fs s'.fs R := by
    rw [hfs]
    exact freeBlocks_release hl fun b hb => (hL b (hR.subset hb)).1
  constructor
  · rintro ⟨hfreed, -, hzero⟩
    refine ⟨hR.eq_of_length_le ?_, hzero⟩
    apply List.Subperm.length_le
    apply hnodup.subperm
    intro b hb
    obtain ⟨hlt, hused⟩ := hL b hb
    have h1 := hfreed.used b hlt
    rw [hrel.used b hlt, hused, Bool.true_and, Bool.true_and, decide_eq_true hb] at h1
    by_contra hne
    rw [decide_eq_false hne] at h1
    exact Bool.false_ne_true h1.symm
  · rintro ⟨rfl, hzero⟩
    refine ⟨hrel, fun g => ?_, hzero⟩
    rw [hfs]
    exact foldl_freeBlock_group R fs g

theorem LocationTrees.tree_used (h : LocationTrees fs locations n depth) {b : Nat}
    (hb : b ∈ nonzero (ptr locations) n) :
    ∀ x ∈ spanned fs.disk depth b, IsData x ∧ blockUsed fs.disk x = true :=
  fun x hx => h.used x (List.mem_flatMap.mpr ⟨b, hb, hx⟩)

/-- The trees of the first location and of the others. -/
theorem locationBlocks_cons (d : Disk) (depth : Nat) (hpos : 0 < n) (h0 : ptr locations 0 ≠ 0) :
    locationBlocks d depth locations n = spanned d depth (ptr locations 0) ++
      (nonzero (fun i => ptr locations (i + 1)) (n - 1)).flatMap (spanned d depth) := by
  obtain ⟨k, rfl⟩ : ∃ k, n = k + 1 := ⟨n - 1, by omega⟩
  unfold locationBlocks
  rw [nonzero_cons h0, List.flatMap_cons]
  rfl

/-- The others have no blocks when there are no others. -/
theorem others_eq_nil (d : Disk) (depth : Nat) :
    (nonzero (fun i => ptr locations (i + 1)) (n - 1)).flatMap (spanned d depth) = [] ↔
      ∀ i, 1 ≤ i → i < n → ptr locations i = 0 := by
  rw [List.flatMap_eq_nil_iff]
  constructor
  · intro h i hi hn
    by_contra hne
    have hmem : ptr locations i ∈ nonzero (fun i => ptr locations (i + 1)) (n - 1) :=
      mem_nonzero.mpr ⟨hne, i - 1, by omega, by rw [Nat.sub_add_cancel hi]⟩
    exact spanned_ne_nil d depth _ (h _ hmem)
  · intro h b hb
    obtain ⟨hne, j, hj, rfl⟩ := mem_nonzero.mp hb
    exact absurd (h (j + 1) (by omega) (by omega)) hne

/-- With the first location alone: what is freed of its tree is all, and it is the only one. -/
theorem LocationTrees.single_iff (h : LocationTrees fs locations n depth) (hpos : 0 < n)
    (h0 : ptr locations 0 ≠ 0)
    (hR : R.Sublist (spanned fs.disk depth (ptr locations 0)))
    (hfs : s'.fs = R.foldl freeBlock fs) (hmem : s'.mem 3 = wr32 locations (0 * 4) 0) :
    TreesFreed fs (locationBlocks fs.disk depth locations n) n s' ↔
      R = spanned fs.disk depth (ptr locations 0) ∧
        ∀ i, 1 ≤ i → i < n → ptr locations i = 0 := by
  have hcons := locationBlocks_cons fs.disk depth hpos h0
  rw [treesFreed_iff h.layout (fun b hb => ⟨(h.used b hb).1.1, (h.used b hb).2⟩) h.nodup
    (by rw [hcons]; exact hR.trans (List.sublist_append_left _ _)) hfs, hcons]
  constructor
  · rintro ⟨heq, -⟩
    have hlen := hR.length_le
    rw [heq, List.length_append] at hlen
    have hnil := List.eq_nil_of_length_eq_zero (by omega : ((nonzero
      (fun i => ptr locations (i + 1)) (n - 1)).flatMap
        (spanned fs.disk depth)).length = 0)
    rw [hnil, List.append_nil] at heq
    exact ⟨heq, (others_eq_nil _ _).mp hnil⟩
  · rintro ⟨rfl, hone⟩
    refine ⟨?_, fun i hi => ?_⟩
    · rw [(others_eq_nil _ _).mpr hone, List.append_nil]
    · rw [hmem, ptr_zeroed]
      by_cases hi0 : i = 0
      · rw [if_pos hi0]
      · rw [if_neg hi0]
        exact hone i (by omega) hi

/-- Without a first location nothing is done. -/
theorem LocationTrees.none_iff (h : LocationTrees fs locations n depth) (hdepth : depth ≠ 0)
    (hnone : n = 0 ∨ ptr locations 0 = 0) (hfs : s'.fs = fs) (hmem : s'.mem 3 = locations) :
    TreesFreed fs (locationBlocks fs.disk depth locations n) n s' ↔
      InReach fs.disk locations n depth := by
  rw [treesFreed_iff h.layout (fun b hb => ⟨(h.used b hb).1.1, (h.used b hb).2⟩) h.nodup
    (List.nil_sublist _) hfs, hmem]
  constructor
  · rintro ⟨-, hzero⟩
    exact ⟨fun _ i _ hi => hzero i hi, fun _ hpos hne => absurd (hzero 0 hpos) hne,
      fun _ hpos hne => absurd (hzero 0 hpos) hne⟩
  · intro hreach
    have hzero : ∀ i < n, ptr locations i = 0 := fun i hi => by
      by_cases hi0 : i = 0
      · rw [hi0]
        exact hnone.resolve_left (by omega)
      · exact hreach.one hdepth i (by omega) hi
    refine ⟨?_, hzero⟩
    unfold locationBlocks
    rw [nonzero_eq_nil.mpr hzero]
    rfl

end Freed

/-! ## What the loops take of a tree -/

/-- Pieces that are together the pieces they are parts of are these one by one. -/
theorem eq_of_flatMap_eq {α β : Type} {l : List α} {f g : α → List β}
    (h : ∀ a ∈ l, (f a).Sublist (g a)) (heq : l.flatMap f = l.flatMap g) : ∀ a ∈ l, f a = g a := by
  induction l with
  | nil => exact fun a ha => absurd ha List.not_mem_nil
  | cons b l ih =>
    have hb := h b List.mem_cons_self
    have hl : ∀ a ∈ l, (f a).Sublist (g a) := fun a ha => h a (List.mem_cons_of_mem b ha)
    have hrest := (List.Sublist.flatMap_right l hl).length_le
    rw [List.flatMap_cons, List.flatMap_cons] at heq
    have hlen := congrArg List.length heq
    rw [List.length_append, List.length_append] at hlen
    have hfirst : f b = g b := hb.eq_of_length_le (by omega)
    rw [hfirst, List.append_cancel_left_eq] at heq
    intro a ha
    rcases List.mem_cons.mp ha with rfl | ha
    · exact hfirst
    · exact ih hl heq a ha

section Taken

variable {d : Disk} {a m n : Nat} {es : List Nat} {blocks : UInt32}

/-- The first `n` pointers are all of them. -/
theorem pointed_eq_iff (hblock : PtrBlock d a es) (h0 : ∀ e ∈ es, e ≠ 0) :
    pointed d (min n 128) a = pointed d 128 a ↔ es.length ≤ n := by
  have hlen := hblock.1
  unfold pointed
  rw [nonzero_take hblock h0 (Nat.min_le_right _ _), nonzero_all hblock h0,
    List.append_left_inj, List.take_eq_self_iff]
  omega

/-- A list of which some of the first are taken. -/
theorem take_flatMap_eq_iff (hlisted : ∀ e ∈ es, Listed d 1 e)
    (hm : TakenPtrs blocks es.length m) :
    (es.take m).flatMap (pointed d 1) = es.flatMap (pointed d 128) ↔
      (∀ e ∈ es, (nonzero (ptr (d e).mem) 128).length ≤ 1) ∧
        ∀ j < es.length, blocks.toNat ≠ j * 128 := by
  obtain ⟨hle, hgoing, hend⟩ := hm
  have hshort : ∀ e, (pointed d 1 e).Sublist (pointed d 128 e) := fun e =>
    pointed_sublist d e (by decide)
  constructor
  · intro heq
    have hsplit : es.flatMap (pointed d 128) =
        (es.take m).flatMap (pointed d 128) ++ (es.drop m).flatMap (pointed d 128) := by
      rw [← List.flatMap_append, List.take_append_drop]
    have hlen := congrArg List.length heq
    rw [hsplit, List.length_append] at hlen
    have hsum := (List.Sublist.flatMap_right (es.take m) fun e _ => hshort e).length_le
    have hdrop : es.drop m = [] := by
      have hnil := List.flatMap_eq_nil_iff.mp (List.eq_nil_of_length_eq_zero
        (by omega : ((es.drop m).flatMap (pointed d 128)).length = 0))
      by_contra hne
      obtain ⟨e, he⟩ := List.exists_mem_of_ne_nil _ hne
      have hlast : e ∈ pointed d 128 e := List.mem_append_right _ (List.mem_singleton_self e)
      rw [hnil e he] at hlast
      exact List.not_mem_nil hlast
    have hall : m = es.length := Nat.le_antisymm hle (List.drop_eq_nil_iff.mp hdrop)
    rw [hall, List.take_length] at heq
    refine ⟨fun e he => ?_, hall ▸ hgoing⟩
    obtain ⟨fs, hblock, hfs⟩ := hlisted e he
    rw [nonzero_all hblock fun x hx => (hfs x hx).1]
    exact (pointed_eq_iff (n := 1) hblock fun x hx => (hfs x hx).1).mp
      (eq_of_flatMap_eq (fun e _ => hshort e) heq e he)
  · rintro ⟨hone, hcount⟩
    have hall : m = es.length := by
      rcases hend with hend | hend
      · exact hend
      · by_contra hne
        exact hcount m (by omega) hend
    rw [hall, List.take_length]
    apply List.flatMap_congr
    intro e he
    obtain ⟨fs, hblock, hfs⟩ := hlisted e he
    have hlen := hone e he
    rw [nonzero_all hblock fun x hx => (hfs x hx).1] at hlen
    exact (pointed_eq_iff (n := 1) hblock fun x hx => (hfs x hx).1).mpr hlen

end Taken

/-! ## The cases -/

section Cases

variable {fs : Fs} {locations : Mem} {n depth a g k : Nat} {L : List Nat} {blocks : UInt32}
  {s s' t : FreeState}

/-- After the first location, the bitmap of its group is in the buffer. -/
theorem Single.doomed (ht : Single depth 3 k a L s t) (hl : Layout s.fs)
    (hL : ∀ b ∈ L ++ [a], b < 2048) : Doomed (a / 256) s.fs.disk t := by
  have hrel := freeBlocks_release hl hL
  rw [← ht.fs] at hrel
  have hflushed := flushed_some ht.bitmap
  have hlay := hrel.layout hl
  rw [hflushed] at hlay
  have hlayout : Layout t.fs := ⟨hlay.blockBitmap, hlay.inodeBitmap, hlay.inodeTable⟩
  refine ⟨hlayout, fun m hm => ?_, Or.inr ht.lastBgd⟩
  have ha : a < 2048 := hL a (List.mem_append_right L (List.mem_singleton_self a))
  have hsame := hrel.data_eq hm
  rw [hflushed, writeBlocks_disk, hlayout.blockBitmap _ (by rw [ht.lastBgd]; omega),
    Function.update_of_ne (hm.ne_blockBitmapAt _)] at hsame
  exact hsame

/-- A block of metadata is no longer in use. -/
theorem LocationTrees.not_freed (h : LocationTrees fs locations n depth) (hg : g < 8)
    (hlost : bit (s'.fs.disk (blockBitmapAt g)).mem 11 = false) :
    ¬ TreesFreed fs (locationBlocks fs.disk depth locations n) n s' := by
  intro hfreed
  have hmeta : IsMeta (256 * g + 11) := by
    unfold IsMeta
    omega
  have hdata : 256 * g + 11 ∉ locationBlocks fs.disk depth locations n := fun hmem => by
    have := (h.used _ hmem).1
    unfold IsData at this
    unfold IsMeta at hmeta
    omega
  have hused := hfreed.release.used _ hmeta.1
  rw [h.metaUsed _ hmeta, decide_eq_false hdata] at hused
  unfold blockUsed at hused
  rw [show (256 * g + 11) / 256 = g from by omega, show (256 * g + 11) % 256 = 11 from by omega,
    hlost] at hused
  exact Bool.false_ne_true hused

/-- No locations, or a zero in front. -/
theorem withRounds_none {f : Nat → FreeState → Option FreeState} (hs : s.bitmap = none)
    (h : blocks.toNat = 0 ∨ ptr (s.mem 3) 0 = 0) :
    withRounds blocks (loopWhile (isLocation 3 0) f blocks.toNat 0) s = some s := by
  unfold withRounds
  by_cases h0 : blocks = 0
  · rw [if_pos h0]
  · have hzero : ptr (s.mem 3) 0 = 0 := by
      refine h.resolve_left fun hn => h0 ?_
      rw [← UInt32.toNat_inj, hn]
      rfl
    have hstop : isLocation 3 0 0 s = false := decide_eq_false (not_not.mpr hzero)
    rw [if_neg h0, loopWhile_stop hstop, Option.bind_some]
    unfold flush
    rw [if_pos (Or.inl hs), flushed_none hs]

theorem exists_run_iff {run : Option FreeState} {P : FreeState → Prop} (h : run = some s) :
    (∃ s', run = some s' ∧ P s') ↔ P s := by
  rw [h]
  constructor
  · rintro ⟨s', heq, hP⟩
    rwa [Option.some.inj heq]
  · exact fun hP => ⟨s, rfl, hP⟩

/-- The locations are blocks of data, and so are the first pointers in them. -/
theorem LocationTrees.location (h : LocationTrees fs locations n (depth + 1)) {i : Nat} (hi : i < n)
    (h0 : ptr locations i ≠ 0) :
    IsData (ptr locations i) ∧ ∀ j < 128, ptr (fs.disk (ptr locations i)).mem j < 2048 := by
  have htree := h.tree_used (mem_nonzero.mpr ⟨h0, i, hi, rfl⟩)
  exact ⟨(htree _ (mem_spanned_self _ _ _)).1,
    fun j hj => ptr_lt_of_spanned (fun x hx => (htree x hx).1) hj⟩

/-- The block of a location with depth 2. -/
theorem LocationTrees.pointers (h : LocationTrees fs locations n 2) {i : Nat} (hi : i < n)
    (h0 : ptr locations i ≠ 0) : ∃ es, PtrBlock fs.disk (ptr locations i) es ∧
      Pointers fs.disk es ∧ (∀ e ∈ es, Listed fs.disk 1 e) ∧
      nonzero (ptr (fs.disk (ptr locations i)).mem) 128 = es := by
  have hmem : ptr locations i ∈ nonzero (ptr locations) n := mem_nonzero.mpr ⟨h0, i, hi, rfl⟩
  have htree := h.tree_used hmem
  obtain ⟨es, hblock, hes⟩ := h.listed _ hmem
  have hall := nonzero_all hblock fun e he => (hes e he).1
  have hsub : ∀ e ∈ es, ∀ x ∈ spanned fs.disk 1 e, IsData x := fun e he x hx =>
    (htree x (spanned_subset (by rwa [hall]) x hx)).1
  exact ⟨es, hblock, ⟨hblock.1, fun e he => hsub e he e (mem_spanned_self _ _ _),
    fun e he j hj => ptr_lt_of_spanned (hsub e he) hj⟩, fun e he => (hes e he).2, hall⟩

/-- With a second location, the bit of the first one's group is lost after the first round. -/
theorem LocationTrees.second_lost (h : LocationTrees fs locations blocks.toNat (depth + 1))
    (hfs : s.fs = fs) (hmem : s.mem 3 = locations) (h0 : ptr locations 0 ≠ 0)
    (htwo : 1 < blocks.toNat ∧ ptr locations 1 ≠ 0) {f : Nat → FreeState → Option FreeState}
    (hspoils : ∀ g, RoundSpoils g s.fs.disk (depth + 1) f) (hround : f 0 s = some t)
    (ht : Single (depth + 1) 3 0 (ptr locations 0) L s t)
    (hL : ∀ b ∈ L, b < 2048) :
    ¬ ∃ s', withRounds blocks (loopWhile (isLocation 3 0) f blocks.toNat 0) s = some s' ∧
      TreesFreed fs (locationBlocks fs.disk (depth + 1) locations blocks.toNat) blocks.toNat
        s' := by
  have hdata := (h.location (i := 0) (by omega) h0).1
  have hlayout : Layout s.fs := by
    rw [hfs]
    exact h.layout
  have hd := ht.doomed hlayout fun b hb => by
    rcases List.mem_append.mp hb with hb | hb
    · exact hL b hb
    · rw [List.mem_singleton.mp hb]
      exact hdata.1
  rintro ⟨s', hrun, hfreed⟩
  refine h.not_freed (by have := hdata.1; omega) (withRounds_lost (hspoils _)
    (fun i => by rw [hmem]) (fun i hi hne => ?_) htwo.1 h0 htwo.2 hround ht hd hrun) hfreed
  obtain ⟨hi', hptrs⟩ := h.location hi hne
  exact ⟨hi', by rw [hfs]; exact hptrs 0 (by decide)⟩

end Cases

/-! ## Result -/

section Result

variable {fs : Fs} {locations : Mem} {blocks : UInt32} {depth : Nat}

/-- With depth 0. -/
theorem LocationTrees.depth0 (h : LocationTrees fs locations blocks.toNat 0) {s : FreeState}
    (hs : s.bitmap = none) (hfs : s.fs = fs) (hmem : s.mem 3 = locations) :
    ∃ s', deallocate0 3 0 blocks s = some s' ∧
      TreesFreed fs (locationBlocks fs.disk 0 locations blocks.toNat) blocks.toNat s' := by
  have hblocks : locationBlocks fs.disk 0 locations blocks.toNat =
      nonzero (ptr locations) blocks.toNat := List.flatMap_singleton' _
  have hptr : ∀ j, ptr (s.mem 3) (0 + j) = ptr locations j := fun j => by rw [hmem, Nat.zero_add]
  obtain ⟨s', hrun, hfs', hzero, -⟩ := deallocate0_clean 0 blocks hs
    (by decide : 3 ≠ 0) fun j hj => by
      rw [hptr]
      by_cases h0 : ptr locations j = 0
      · rw [h0]
        decide
      · exact (h.used _ (by rw [hblocks]; exact mem_nonzero.mpr ⟨h0, j, hj, rfl⟩)).1.1
  refine ⟨s', hrun, (treesFreed_iff h.layout (fun b hb => ⟨(h.used b hb).1.1, (h.used b hb).2⟩)
    h.nodup (List.Sublist.refl _) ?_).mpr ⟨rfl, fun i hi => ?_⟩⟩
  · rw [hfs', hfs, hblocks, nonzero_congr fun j _ => hptr j]
  · rw [← Nat.zero_add i]
    exact hzero i hi

/-- With depth 1. -/
theorem LocationTrees.depth1 (h : LocationTrees fs locations blocks.toNat 1) {s : FreeState}
    (hs : s.bitmap = none) (hfs : s.fs = fs) (hmem : s.mem 3 = locations) :
    (∃ s', deallocate1 3 0 blocks s = some s' ∧
      TreesFreed fs (locationBlocks fs.disk 1 locations blocks.toNat) blocks.toNat s') ↔
      InReach fs.disk locations blocks.toNat 1 := by
  by_cases hnone : blocks.toNat = 0 ∨ ptr locations 0 = 0
  · have hrun : deallocate1 3 0 blocks s = some s := withRounds_none hs (by rwa [hmem])
    rw [exists_run_iff hrun]
    exact h.none_iff (by decide) hnone hfs hmem
  rw [not_or] at hnone
  obtain ⟨hpos, h0⟩ := hnone
  replace hpos := Nat.pos_of_ne_zero hpos
  obtain ⟨hdata, hptrs⟩ := h.location hpos h0
  have ha : ptr (s.mem 3) (0 + 0) = ptr locations 0 := by rw [hmem]
  by_cases htwo : 1 < blocks.toNat ∧ ptr locations 1 ≠ 0
  · obtain ⟨t, hround, ht⟩ := round1_clean blocks hs (by decide) ha hdata.1
      (by rw [hfs]; exact hptrs)
    have hspoils : ∀ g, RoundSpoils g s.fs.disk 1 (round1 3 0 blocks) := fun g =>
      round1_spoils (blocks_ne_zero hpos)
    refine iff_of_false (h.second_lost hfs hmem h0 htwo hspoils hround ht fun b hb => ?_)
      fun hreach => htwo.2 (hreach.one (by decide) 1 (Nat.le_refl 1) htwo.1)
    obtain ⟨-, j, hj, rfl⟩ := mem_nonzero.mp hb
    rw [hfs]
    exact hptrs j (by omega)
  · obtain ⟨es, hblock, hes⟩ := h.listed _ (mem_nonzero.mpr ⟨h0, 0, hpos, rfl⟩)
    have hes0 : ∀ e ∈ es, e ≠ 0 := fun e he => (hes e he).1
    have hnext : blocks.toNat = 1 ∨ ptr (s.mem 3) (0 + 1) = 0 := by
      rw [hmem, Nat.zero_add]
      omega
    obtain ⟨s', hrun, hfs', hmem', -⟩ := deallocate1_single blocks hs (by decide) ha h0 hdata.1
      (by rw [hfs]; exact hptrs) hpos hnext
    rw [hfs] at hfs'
    rw [hmem] at hmem'
    rw [exists_run_iff hrun, h.single_iff hpos h0 (by
      rw [spanned_one]
      exact pointed_sublist _ _ (Nat.min_le_right _ _)) hfs' hmem', spanned_one,
      pointed_eq_iff hblock hes0]
    have hall := nonzero_all hblock hes0
    constructor
    · rintro ⟨hle, hone⟩
      exact ⟨fun _ => hone, fun _ _ _ => by rwa [hall], fun h2 => absurd h2 (by decide)⟩
    · intro hreach
      have hle := hreach.single rfl hpos h0
      rw [hall] at hle
      exact ⟨hle, hreach.one (by decide)⟩

/-- With depth 2. -/
theorem LocationTrees.depth2 (h : LocationTrees fs locations blocks.toNat 2) {s : FreeState}
    (hs : s.bitmap = none) (hfs : s.fs = fs) (hmem : s.mem 3 = locations) :
    (∃ s', deallocate2 3 0 blocks s = some s' ∧
      TreesFreed fs (locationBlocks fs.disk 2 locations blocks.toNat) blocks.toNat s') ↔
      InReach fs.disk locations blocks.toNat 2 := by
  by_cases hnone : blocks.toNat = 0 ∨ ptr locations 0 = 0
  · have hrun : deallocate2 3 0 blocks s = some s := withRounds_none hs (by rwa [hmem])
    rw [exists_run_iff hrun]
    exact h.none_iff (by decide) hnone hfs hmem
  rw [not_or] at hnone
  obtain ⟨hpos, h0⟩ := hnone
  replace hpos := Nat.pos_of_ne_zero hpos
  obtain ⟨hdata, -⟩ := h.location hpos h0
  obtain ⟨es, hblock, hes, hlisted, hall⟩ := h.pointers hpos h0
  have ha : ptr (s.mem 3) (0 + 0) = ptr locations 0 := by rw [hmem]
  have hblock' : PtrBlock s.fs.disk (ptr locations 0) es := by rwa [hfs]
  have hes' : Pointers s.fs.disk es := by rwa [hfs]
  have hlayout : Layout s.fs := by
    rw [hfs]
    exact h.layout
  by_cases htwo : 1 < blocks.toNat ∧ ptr locations 1 ≠ 0
  · obtain ⟨m, t, -, hround, ht⟩ := round2_clean blocks hlayout hs (by decide) ha hdata.1
      hblock' hes'
    refine iff_of_false (h.second_lost hfs hmem h0 htwo (fun g => round2_spoils) hround ht
      fun b hb => ?_) fun hreach => htwo.2 (hreach.one (by decide) 1 (Nat.le_refl 1) htwo.1)
    exact hes'.pointed_lt (by decide) (fun _ he => List.mem_of_mem_take he) hb
  · have hnext : blocks.toNat = 1 ∨ ptr (s.mem 3) (0 + 1) = 0 := by
      rw [hmem, Nat.zero_add]
      omega
    obtain ⟨m, s', htaken, hrun, hfs', hmem'⟩ := deallocate2_single blocks hlayout hs (by decide)
      ha h0 hdata.1 hblock' hes' hpos hnext
    rw [hfs] at hfs'
    rw [hmem] at hmem'
    have hspanned : spanned fs.disk 2 (ptr locations 0) =
        es.flatMap (pointed fs.disk 128) ++ [ptr locations 0] := by
      rw [spanned_two, hall]
    have hsub : ((es.take m).flatMap (pointed fs.disk 1)).Sublist
        (es.flatMap (pointed fs.disk 128)) :=
      (List.Sublist.flatMap_right _ fun e _ => pointed_sublist fs.disk e (by decide)).trans
        ((List.take_sublist m es).flatMap _)
    rw [exists_run_iff hrun, h.single_iff hpos h0 (by
      rw [hspanned]
      exact hsub.append (List.Sublist.refl _)) hfs' hmem', hspanned, List.append_left_inj,
      take_flatMap_eq_iff hlisted htaken]
    constructor
    · rintro ⟨hdouble, hone⟩
      exact ⟨fun _ => hone, fun h1 => absurd h1 (by decide), fun _ _ _ => by rwa [hall]⟩
    · intro hreach
      have hdouble := hreach.double rfl hpos h0
      rw [hall] at hdouble
      exact ⟨hdouble, hreach.one (by decide)⟩

/-- For all trees with depth 0, 1 or 2, and whatever `*last_bgd` and the buffers are:
    `deallocate_block` frees them exactly when they are in its reach. -/
theorem deallocateBlock_frees (hdepth : depth ≤ 2)
    (h : LocationTrees fs locations blocks.toNat depth) (lastBgd : Nat) (bufs : Nat → Mem) :
    (∃ s', deallocateBlock locations blocks depth lastBgd bufs fs = some s' ∧
      TreesFreed fs (locationBlocks fs.disk depth locations blocks.toNat) blocks.toNat s') ↔
      InReach fs.disk locations blocks.toNat depth := by
  have hmem : Function.update bufs 3 locations 3 = locations := Function.update_self ..
  unfold deallocateBlock
  match depth, hdepth with
  | 0, _ =>
    exact iff_of_true (h.depth0 rfl rfl hmem) ⟨fun hne => absurd rfl hne,
      fun h1 => absurd h1 (by decide), fun h2 => absurd h2 (by decide)⟩
  | 1, _ => exact h.depth1 rfl rfl hmem
  | 2, _ => exact h.depth2 rfl rfl hmem

end Result

/-- All blocks are in use. Block 100 has the pointers 101 and 102, and each of the blocks 110 and
    120 has one. -/
def pointerFs : Fs where
  disk := fun b o =>
    if b = 100 then [101, 0, 0, 0, 102].getD o 0
    else if b = 110 then [111].getD o 0
    else if b = 120 then [121].getD o 0
    else 0xFF
  superBlock := blankFs.superBlock
  bgdtCache := newDescriptor
  stack := fun _ => 0

/-- One location, and two. -/
def oneLocation : Mem := fun o => [100].getD o 0

def twoLocations : Mem := fun o => [110, 0, 0, 0, 120].getD o 0

theorem pointerFs_layout : Layout pointerFs := by
  constructor <;> decide

theorem pointerFs_used (b : Nat) (hb : b < 2048) : blockUsed pointerFs.disk b = true := by
  have hbyte : ∀ g < 8, ∀ o < 32, (pointerFs.disk (blockBitmapAt g)).mem o = 0xFF := by decide
  have hbit : ∀ i < 8, (0xFF : UInt8).toNat.testBit i = true := by decide
  unfold blockUsed bit
  rw [hbyte _ (by omega) _ (by omega)]
  exact hbit _ (by omega)

theorem pointerFs_listed : ∀ b ∈ [100, 110, 120], Listed pointerFs.disk 1 b := by
  have h100 : PtrBlock pointerFs.disk 100 [101, 102] := ⟨by decide, by decide +kernel⟩
  have h110 : PtrBlock pointerFs.disk 110 [111] := ⟨by decide, by decide +kernel⟩
  have h120 : PtrBlock pointerFs.disk 120 [121] := ⟨by decide, by decide +kernel⟩
  intro b hb
  simp only [List.mem_cons, List.not_mem_nil, or_false] at hb
  rcases hb with rfl | rfl | rfl
  · exact ⟨_, h100, by simp [Listed]⟩
  · exact ⟨_, h110, by simp [Listed]⟩
  · exact ⟨_, h120, by simp [Listed]⟩

/-- The trees of locations in it. -/
theorem pointerFs_trees {locations : Mem} {n : Nat} {L : List Nat}
    (hlisted : ∀ b ∈ nonzero (ptr locations) n, b ∈ [100, 110, 120])
    (hblocks : locationBlocks pointerFs.disk 1 locations n = L) (hdata : ∀ b ∈ L, IsData b)
    (hnodup : L.Nodup) : LocationTrees pointerFs locations n 1 where
  layout := pointerFs_layout
  metaUsed := fun b hb => pointerFs_used b hb.1
  listed := fun b hb => pointerFs_listed b (hlisted b hb)
  used := fun b hb => by
    rw [hblocks] at hb
    exact ⟨hdata b hb, pointerFs_used b (hdata b hb).1⟩
  nodup := by rwa [hblocks]

theorem oneLocation_trees {n : Nat} (hn : n = 1 ∨ n = 2) :
    LocationTrees pointerFs oneLocation n 1 := by
  rcases hn with rfl | rfl
  · exact pointerFs_trees (L := [101, 102, 100]) (by decide +kernel) (by decide +kernel) (by decide)
      (by decide)
  · exact pointerFs_trees (L := [101, 102, 100]) (by decide +kernel) (by decide +kernel) (by decide)
      (by decide)

theorem twoLocations_trees : LocationTrees pointerFs twoLocations 2 1 :=
  pointerFs_trees (L := [111, 110, 121, 120]) (by decide +kernel) (by decide +kernel) (by decide)
    (by decide)

/-- Two places are enough for the two pointers of the only location. -/
theorem deallocateBlock_frees_one :
    ∃ s', deallocateBlock oneLocation 2 1 0 (fun _ _ => 0) pointerFs = some s' ∧
      TreesFreed pointerFs (locationBlocks pointerFs.disk 1 oneLocation 2) 2 s' :=
  (deallocateBlock_frees (by decide) (oneLocation_trees (Or.inr rfl)) 0 fun _ _ => 0).mpr
    ⟨fun _ => by decide, fun _ _ _ => by decide +kernel, fun h => absurd h (by decide)⟩

/-- With one place the second pointer is left out, and with two locations the bit of the first one
    is lost. -/
theorem deallocateBlock_leaks :
    (LocationTrees pointerFs oneLocation 1 1 ∧
      ¬ ∃ s', deallocateBlock oneLocation 1 1 0 (fun _ _ => 0) pointerFs = some s' ∧
        TreesFreed pointerFs (locationBlocks pointerFs.disk 1 oneLocation 1) 1 s') ∧
    LocationTrees pointerFs twoLocations 2 1 ∧
      ¬ ∃ s', deallocateBlock twoLocations 2 1 0 (fun _ _ => 0) pointerFs = some s' ∧
        TreesFreed pointerFs (locationBlocks pointerFs.disk 1 twoLocations 2) 2 s' := by
  have hone : LocationTrees pointerFs oneLocation (1 : UInt32).toNat 1 :=
    oneLocation_trees (Or.inl rfl)
  have htwo : LocationTrees pointerFs twoLocations (2 : UInt32).toNat 1 := twoLocations_trees
  refine ⟨⟨hone, fun h => ?_⟩, htwo, fun h => ?_⟩
  · have hreach := (hone.depth1 rfl rfl rfl).mp h
    exact absurd (hreach.single rfl (by decide) (by decide)) (by decide +kernel)
  · have hreach := (htwo.depth1 rfl rfl rfl).mp h
    exact absurd (hreach.one (by decide) 1 (by decide) (by decide)) (by decide)

end LossOs.Ext2
