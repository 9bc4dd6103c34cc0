/-
  Giving a page back.

  `paging_free_user_page_frame` takes the frame number out of `lower_address`, which has ten bits,
  and shifts it by 22: the index is -1 for every entry (`freedIndex_eq`), and the map and the
  counter stay as they are. So it never undoes an allocation (`free_not_undoes`).
-/
import LossOs.Kernel.Process

namespace LossOs.Kernel

open LossOs.Lib

/-- The indices into `page_frame_map` that freeing the page of `virtualAddr` stores to. -/
def freedIndices (pageDir : PageDirPtr) (virtualAddr : UInt32) (pg : Paging) : List UInt32 :=
  let e := pg.directory pageDir (pageIndex virtualAddr)
  if e.flag.presentBit then [freedIndex e] else []

/-- The state after an allocation for a page, and after its release. -/
def allocated (pageDir : PageDirPtr) (virtualAddr : UInt32) (pg : Paging) : Paging :=
  (pagingAllocateUserPageFrame pageDir virtualAddr pg).2

def released (pageDir : PageDirPtr) (virtualAddr : UInt32) (pg : Paging) : Paging :=
  (pagingFreeUserPageFrame pageDir virtualAddr (allocated pageDir virtualAddr pg)).2

/-- Both calls succeed and leave the frames, their counter and the page as they were, within the
    map. -/
structure Undone (pageDir : PageDirPtr) (virtualAddr : UInt32) (pg : Paging) : Prop where
  allocates : (pagingAllocateUserPageFrame pageDir virtualAddr pg).1 = true
  frees : (pagingFreeUserPageFrame pageDir virtualAddr (allocated pageDir virtualAddr pg)).1 = true
  frames : (released pageDir virtualAddr pg).pageFrameMap = pg.pageFrameMap
  count : (released pageDir virtualAddr pg).freePageFrameCount = pg.freePageFrameCount
  absent : ((released pageDir virtualAddr pg).directory pageDir
    (pageIndex virtualAddr)).flag.presentBit = false
  inside : ∀ i ∈ freedIndices pageDir virtualAddr (allocated pageDir virtualAddr pg), i.toNat < 32

section Free

variable {p : PageDirPtr} {va : UInt32} {pg : Paging}

/-- Ten bits shifted by 22 are 0, and 1 less is the last index of all. -/
theorem freedIndex_eq (e : PageDirectoryEntry) : freedIndex e = 0xFFFFFFFF := by
  have hlt := e.lowerAddress.isLt
  unfold freedIndex
  rw [Nat.shiftRight_eq_div_pow, Nat.div_eq_of_lt (by omega)]
  rfl

theorem clearFrame_freed (e : PageDirectoryEntry) : pg.clearFrame (freedIndex e) = pg := by
  rw [freedIndex_eq]
  exact dif_neg (by decide)

/-- Freeing a page closes its entry and nothing else. -/
theorem freePage_eq (h : (pg.directory p (pageIndex va)).flag.presentBit = true) :
    pagingFreeUserPageFrame p va pg = (true, { pg with
      directory := Function.update pg.directory p (Function.update (pg.directory p) (pageIndex va)
        { pg.directory p (pageIndex va) with flag := .zero }) }) := by
  unfold pagingFreeUserPageFrame
  rw [if_pos h, clearFrame_freed]

theorem freePage_absent (h : (pg.directory p (pageIndex va)).flag.presentBit = false) :
    pagingFreeUserPageFrame p va pg = (false, pg) :=
  if_neg (by rw [h]; exact Bool.false_ne_true)

theorem give_entry (i : Fin 32) :
    (pg.give i p (pageIndex va)).directory p (pageIndex va) = ⟨userFlag, BitVec.ofNat 10 i⟩ := by
  unfold Paging.give
  dsimp only
  rw [Function.update_self, Function.update_self]

/-- A frame that was given stays reserved, and the counter stays low. -/
theorem released_given {i : Fin 32}
    (h : pagingAllocateUserPageFrame p va pg = (true, pg.give i p (pageIndex va))) :
    (released p va pg).pageFrameMap i = true ∧
      (released p va pg).freePageFrameCount = pg.freePageFrameCount - 1 ∧
      freedIndices p va (allocated p va pg) = [0xFFFFFFFF] := by
  have hp : ((pg.give i p (pageIndex va)).directory p (pageIndex va)).flag.presentBit = true := by
    rw [give_entry]
    rfl
  unfold released freedIndices allocated
  rw [h]
  dsimp only
  rw [freePage_eq hp, if_pos hp, freedIndex_eq]
  exact ⟨Function.update_self .., rfl, rfl⟩

end Free

/-- With a frame free, and the page not mapped, freeing the page never undoes its allocation. -/
theorem free_not_undoes {pageDir : PageDirPtr} {virtualAddr : UInt32} {pg : Paging}
    (hcount : pg.freePageFrameCount.toNat = count false pg.pageFrameMap)
    (hfree : ∃ i, pg.pageFrameMap i = false)
    (habsent : (pg.directory pageDir (pageIndex virtualAddr)).flag.presentBit = false) :
    ¬ Undone pageDir virtualAddr pg := by
  intro h
  rcases allocate_cases pageDir virtualAddr pg with ⟨h0, -⟩ | ⟨-, -, he⟩ | ⟨i, -, -, hi, he⟩
  · -- the counter says that a frame is free
    obtain ⟨i, hi⟩ := hfree
    have hpos := count_pos hi
    rw [← hcount, h0] at hpos
    exact absurd hpos (by decide)
  · -- only frame 0 is free, which is never given: nothing was mapped
    have hfrees := h.frees
    unfold allocated at hfrees
    rw [he, freePage_absent habsent] at hfrees
    cases hfrees
  · have hmap := (released_given he).1
    rw [h.frames, hi] at hmap
    cases hmap

/-- The first allocation for a page directory after boot. -/
theorem free_not_undoes_boot : ¬ Undone (.list 0) 0 (boot emptyMemory).paging :=
  free_not_undoes (by decide) ⟨2, by decide⟩ (by decide)

/-- It gives frame 2, and the release stores to the index -1 and leaves the frame reserved. -/
theorem free_leaves_frame : (boot emptyMemory).paging.pageFrameMap 2 = false ∧
    (released (.list 0) 0 (boot emptyMemory).paging).pageFrameMap 2 = true ∧
    freedIndices (.list 0) 0 (allocated (.list 0) 0 (boot emptyMemory).paging) = [0xFFFFFFFF] ∧
    ¬ Undone (.list 0) 0 (boot emptyMemory).paging := by
  have hbefore : (boot emptyMemory).paging.pageFrameMap 2 = false := by decide
  have hafter : (released (.list 0) 0 (boot emptyMemory).paging).pageFrameMap 2 = true := by decide
  refine ⟨hbefore, hafter, by decide, fun h => ?_⟩
  rw [h.frames, hbefore] at hafter
  cases hafter

end LossOs.Kernel
