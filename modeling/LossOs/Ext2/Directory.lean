/-
  Directories as lists of entries.

  A directory is read through its block pointers: `dirBlocks` lists them, `dirRecords` the
  records of those blocks in order, and `entries` the live ones as (name, inode, type). On
  well-formed blocks the block loops of `write`, `read` and `delete` are searches in these
  lists (`scanDir_eq`, `lookupDir_eq`, `findDir_cases`).
-/
import LossOs.Ext2.FileTree
import LossOs.Ext2.Records
import Mathlib.Data.List.TakeWhile

namespace LossOs.Ext2

open LossOs.Lib

/-! ## Views -/

/-- The pointers of a directory, as far as `i_blocks` goes. -/
def dirPtrs (node : Mem) : List Nat := (List.range (iBlocks node)).map (iBlock node)

/-- The blocks of a directory. -/
def dirBlocks (node : Mem) : List Nat := nonzero (iBlock node) (iBlocks node)

/-- The records of the blocks `bs`, in order, each with its block. -/
def dirRecords (d : Disk) (bs : List Nat) : List (Nat × Rec) :=
  bs.flatMap fun b => (blockRecords (d b)).map fun r => (b, r)

/-- The live entries of the blocks `bs`. -/
def blockEntries (d : Disk) (bs : List Nat) : List Entry :=
  bs.flatMap fun b => live (blockRecords (d b))

/-- The entries of directory `p`, block by block and in record order. -/
def entries (d : Disk) (p : Nat) : List Entry := blockEntries d (dirBlocks (slot d p))

/-- A directory block is tiled by records. -/
def IsDirBlock (b : Block) : Prop := ∃ rs, Tiles b.mem 0 rs 512

theorem dirBlocks_eq (node : Mem) : dirBlocks node = (dirPtrs node).filter (· ≠ 0) := rfl

theorem dirBlocks_of_full {node : Mem} (h : ∀ b ∈ dirPtrs node, b ≠ 0) :
    dirBlocks node = dirPtrs node := by
  rw [dirBlocks_eq]
  exact List.filter_eq_self.mpr (by simpa only [decide_eq_true_eq] using h)

theorem IsDirBlock.tiles {b : Block} (h : IsDirBlock b) : Tiles b.mem 0 (blockRecords b) 512 := by
  obtain ⟨rs, h⟩ := h
  rw [h.blockRecords_eq]; exact h

theorem IsDirBlock.tiles_read {fs : Fs} {n : Nat} (h : IsDirBlock (fs.disk n)) :
    Tiles (fs.readBlocks n) 0 (blockRecords (fs.disk n)) 512 :=
  h.tiles.congr fun _ _ hp => readBlocks_of_lt fs n hp

theorem dirRecords_append (d : Disk) (bs cs : List Nat) :
    dirRecords d (bs ++ cs) = dirRecords d bs ++ dirRecords d cs := List.flatMap_append ..

theorem blockEntries_append (d : Disk) (bs cs : List Nat) :
    blockEntries d (bs ++ cs) = blockEntries d bs ++ blockEntries d cs := List.flatMap_append ..

theorem blockEntries_cons (d : Disk) (b : Nat) (bs : List Nat) :
    blockEntries d (b :: bs) = live (blockRecords (d b)) ++ blockEntries d bs :=
  List.flatMap_cons ..

theorem blockEntries_congr {d d' : Disk} {bs : List Nat} (h : ∀ b ∈ bs, d' b = d b) :
    blockEntries d' bs = blockEntries d bs :=
  List.flatMap_congr fun b hb => by rw [h b hb]

theorem mem_dirRecords {d : Disk} {bs : List Nat} {q : Nat × Rec} :
    q ∈ dirRecords d bs ↔ q.1 ∈ bs ∧ q.2 ∈ blockRecords (d q.1) := by
  obtain ⟨b, r⟩ := q
  unfold dirRecords
  rw [List.mem_flatMap]
  constructor
  · rintro ⟨c, hc, hq⟩
    obtain ⟨r', hr', he⟩ := List.mem_map.mp hq
    simp only [Prod.mk.injEq] at he
    obtain ⟨rfl, rfl⟩ := he
    exact ⟨hc, hr'⟩
  · rintro ⟨hb, hr⟩
    exact ⟨b, hb, List.mem_map.mpr ⟨r, hr, rfl⟩⟩

theorem mem_blockEntries {d : Disk} {bs : List Nat} {e : Entry} :
    e ∈ blockEntries d bs ↔ ∃ b ∈ bs, ∃ r ∈ blockRecords (d b), r.inode ≠ 0 ∧ r.entry = e := by
  unfold blockEntries
  simp only [List.mem_flatMap, mem_live]

/-- A record of a directory, with the blocks and the records before and behind it. -/
theorem dirRecords_split {d : Disk} {bs : List Nat} {as cs : List (Nat × Rec)} {b : Nat} {r : Rec}
    (h : dirRecords d bs = as ++ (b, r) :: cs) :
    ∃ pre post xs ys, bs = pre ++ b :: post ∧ blockRecords (d b) = xs ++ r :: ys ∧
      as = dirRecords d pre ++ xs.map (fun r => (b, r)) := by
  induction bs generalizing as with
  | nil => simp [dirRecords] at h
  | cons c bs ih =>
    have hcons : dirRecords d (c :: bs) =
        (blockRecords (d c)).map (fun r => (c, r)) ++ dirRecords d bs := List.flatMap_cons ..
    rw [hcons] at h
    rcases List.append_eq_append_iff.mp h with ⟨as', rfl, h'⟩ | ⟨c', h1, h2⟩
    · obtain ⟨pre, post, xs, ys, rfl, hb, rfl⟩ := ih h'
      refine ⟨c :: pre, post, xs, ys, rfl, hb, ?_⟩
      rw [← List.append_assoc]
      rfl
    · cases c' with
      | nil =>
        obtain ⟨pre, post, xs, ys, rfl, hb, has⟩ := @ih [] h2.symm
        obtain ⟨hp, hx⟩ := List.append_eq_nil_iff.mp has.symm
        refine ⟨c :: pre, post, xs, ys, rfl, hb, ?_⟩
        rw [List.append_nil] at h1
        rw [hx, ← h1, List.append_nil]
        show _ = dirRecords d (c :: pre)
        rw [show dirRecords d (c :: pre) = (blockRecords (d c)).map (fun r => (c, r)) ++
          dirRecords d pre from List.flatMap_cons .., hp, List.append_nil]
      | cons q c' =>
        rw [List.cons_append, List.cons.injEq] at h2
        obtain ⟨rfl, h2⟩ := h2
        obtain ⟨xs, ys, hrec, hxs, hys⟩ := List.map_eq_append_iff.mp h1
        cases ys with
        | nil => simp at hys
        | cons y ys =>
          rw [List.map_cons, List.cons.injEq, Prod.mk.injEq] at hys
          obtain ⟨⟨rfl, rfl⟩, -⟩ := hys
          exact ⟨[], bs, xs, ys, rfl, hrec, hxs.symm⟩

/-! ## The block loops -/

theorem findSome?_skip_zero {α : Type} (L : List Nat) (g : Nat → Option α) :
    (L.findSome? fun b => if b = 0 then none else g b) = (L.filter (· ≠ 0)).findSome? g := by
  induction L with
  | nil => rfl
  | cons b L ih =>
    rw [List.findSome?_cons, ih]
    by_cases h : b = 0
    · rw [if_pos h, List.filter_cons_of_neg (by simpa using h)]
    · rw [if_neg h, List.filter_cons_of_pos (by simpa using h), List.findSome?_cons]

theorem findSome?_congr {α β : Type} {L : List α} {f g : α → Option β}
    (h : ∀ a ∈ L, f a = g a) : L.findSome? f = L.findSome? g := by
  induction L with
  | nil => rfl
  | cons a L ih =>
    rw [List.findSome?_cons, List.findSome?_cons, h a (by simp),
      ih fun b hb => h b (List.mem_cons_of_mem _ hb)]

section Loops

variable {request : EXT2DriverRequest} {fs : Fs} {parent node : Mem}

/-- The pass of `write` over a directory stops at the first record, in the order of the
    blocks, that has the name or room behind it. -/
theorem scanDir_eq (hp : dirPtrs parent = dirPtrs node)
    (h : ∀ b ∈ dirBlocks node, IsDirBlock (fs.disk b)) :
    scanDir request parent fs = ((dirRecords fs.disk (dirBlocks node)).find?
      fun q => q.2.named request || q.2.roomy request).map fun q => (q.1, hitOf request q.2) := by
  unfold scanDir
  rw [show (List.range (iBlocks parent)).map (iBlock parent) = dirPtrs node from hp,
    findSome?_skip_zero, ← dirBlocks_eq, dirRecords, List.find?_flatMap, List.map_findSome?]
  refine findSome?_congr fun b hb => ?_
  dsimp only [Function.comp_apply]
  rw [scanBlock_eq (h b hb).tiles_read, List.find?_map]
  simp only [Function.comp_def]
  cases hf : (blockRecords (fs.disk b)).find? fun r => r.named request || r.roomy request with
  | none => rfl
  | some r =>
    unfold hitOf
    by_cases hn : r.named request = true <;> simp [hn]

/-- The live record of a name, among the records and among the entries. -/
theorem find?_entry (request : EXT2DriverRequest) (rs : List Rec) :
    (rs.find? (Rec.named request)).map Rec.entry =
      (live rs).find? fun e => e.name == requestName request := by
  unfold live
  rw [List.find?_map, List.find?_filter]
  congr 1
  apply congrArg (fun p => List.find? p rs)
  funext r
  rw [Bool.eq_iff_iff, named_iff]
  simp [Rec.entry]

/-- Live records of a name are entries of that name. -/
theorem find?_named (rs : List Rec) :
    ((rs.find? (Rec.named request)).map fun r => (r.inode, r.fileType)) =
      ((live rs).find? fun e => e.name == requestName request).map
        fun e => (e.inode, e.fileType) := by
  rw [← find?_entry, Option.map_map]
  rfl

/-- `read` looks a name up among the entries. -/
theorem lookupDir_eq (node : Mem) (hp : dirPtrs parent = dirPtrs node)
    (hfull : ∀ b ∈ dirPtrs node, b ≠ 0)
    (h : ∀ b ∈ dirBlocks node, IsDirBlock (fs.disk b)) :
    lookupDir request parent fs = ((blockEntries fs.disk (dirBlocks node)).find?
      fun e => e.name == requestName request).map fun e => (e.inode, e.fileType) := by
  have hall : (dirPtrs node).takeWhile (· ≠ 0) = dirBlocks node := by
    rw [dirBlocks_eq, List.takeWhile_eq_self_iff.mpr (by simpa using hfull),
      List.filter_eq_self.mpr (by simpa using hfull)]
  unfold lookupDir
  rw [show (List.range (iBlocks parent)).map (iBlock parent) = dirPtrs node from hp, hall,
    blockEntries, List.find?_flatMap, List.map_findSome?]
  refine findSome?_congr fun b hb => ?_
  rw [lookupBlock_eq (h b hb).tiles_read, find?_named]
  rfl

/-- The search of `delete`: no live record of the name, or the first one, with what lies
    around it. -/
theorem findDir_cases (request : EXT2DriverRequest) (hp : dirPtrs parent = dirPtrs node)
    (h : ∀ b ∈ dirBlocks node, IsDirBlock (fs.disk b)) :
    (findDir request parent fs = none ∧
      ∀ q ∈ dirRecords fs.disk (dirBlocks node), q.2.named request = false) ∨
    ∃ pre b post xs r ys, dirBlocks node = pre ++ b :: post ∧
      blockRecords (fs.disk b) = xs ++ r :: ys ∧ r.named request = true ∧
      (∀ q ∈ dirRecords fs.disk pre, q.2.named request = false) ∧
      (∀ q ∈ xs, q.named request = false) ∧
      findDir request parent fs = some (b, r.off, xs.getLast?.map Rec.off) := by
  have heq : findDir request parent fs = (dirBlocks node).findSome? fun b =>
      (findEntry request (fs.readBlocks b) none 0).map fun r => (b, r) := by
    unfold findDir
    rw [show (List.range (iBlocks parent)).map (iBlock parent) = dirPtrs node from hp,
      findSome?_skip_zero, ← dirBlocks_eq]
  have hmiss : ∀ b ∈ dirBlocks node, findEntry request (fs.readBlocks b) none 0 = none →
      ∀ r ∈ blockRecords (fs.disk b), r.named request = false := by
    intro b hb hn
    rcases findEntry_eq request none (h b hb).tiles_read with
      ⟨-, hall⟩ | ⟨xs, r, ys, -, -, -, he⟩
    · exact hall
    · rw [hn] at he; cases he
  rw [heq]
  cases hf : (dirBlocks node).findSome? fun b =>
      (findEntry request (fs.readBlocks b) none 0).map fun r => (b, r) with
  | none =>
    left
    refine ⟨rfl, fun q hq => ?_⟩
    obtain ⟨hb, hr⟩ := mem_dirRecords.mp hq
    exact hmiss _ hb (by simpa using List.findSome?_eq_none_iff.mp hf _ hb) _ hr
  | some q =>
    right
    obtain ⟨pre, b, post, hbs, hb, hpre⟩ := List.findSome?_eq_some_iff.mp hf
    have hmem : ∀ c ∈ pre, c ∈ dirBlocks node := fun c hc => by rw [hbs]; simp [hc]
    have hbm : b ∈ dirBlocks node := by rw [hbs]; simp
    rcases findEntry_eq request none (h b hbm).tiles_read with
      ⟨he, -⟩ | ⟨xs, r, ys, hrs, hn, hxs, he⟩
    · rw [he] at hb; cases hb
    · refine ⟨pre, b, post, xs, r, ys, hbs, hrs, hn, fun q hq => ?_, hxs, ?_⟩
      · obtain ⟨hc, hr⟩ := mem_dirRecords.mp hq
        exact hmiss _ (hmem _ hc) (by simpa using hpre _ hc) _ hr
      · rw [he] at hb
        rw [← hb]
        simp

end Loops

-- entry lists are compared by their lemmas, not by their blocks
attribute [irreducible] entries

end LossOs.Ext2
