/-
  The functions of `memory/paging.c`, in the order of the source.

  Frames are handed out by `paging_allocate_user_page_frame`, page directories by
  `paging_create_new_page_directory`. Each function comes with one lemma that says what it
  does; nothing after this module unfolds it.
-/
import LossOs.Lib.Slots
import LossOs.Kernel.Types

namespace LossOs.Kernel

open LossOs.Lib

/-- `(uint32_t) virtual_addr >> 22`, ten bits of it. -/
def pageIndex (virtualAddr : UInt32) : Fin 1024 :=
  ⟨(virtualAddr >>> 22).toNat % 1024, Nat.mod_lt _ (by decide)⟩

/-- `update_page_directory_entry`. -/
def updatePageDirectoryEntry (pageDir : PageDirPtr) (physicalAddr virtualAddr : UInt32)
    (flag : PageDirectoryEntryFlag) (pg : Paging) : Paging :=
  { pg with
    directory := Function.update pg.directory pageDir
      (Function.update (pg.directory pageDir) (pageIndex virtualAddr)
        ⟨flag, BitVec.ofNat 10 (physicalAddr >>> 22).toNat⟩) }

/-- `paging_allocate_check`. -/
def pagingAllocateCheck (amount : UInt32) (pg : Paging) : Bool :=
  decide ((amount + 4194304 - 1) / 4194304 ≤ pg.freePageFrameCount)

/-- The flags of a user page. -/
def userFlag : PageDirectoryEntryFlag := ⟨true, true, true, false, false, false, false, true⟩

/-- `paging_allocate_user_page_frame`. -/
def pagingAllocateUserPageFrame (pageDir : PageDirPtr) (virtualAddr : UInt32) (pg : Paging) :
    Bool × Paging :=
  if pg.freePageFrameCount = 0 then (false, pg)
  else match firstFree 1 pg.pageFrameMap with
    | none => (true, pg)
    | some i =>
      let pg := { pg with pageFrameMap := Function.update pg.pageFrameMap i true }
      let pg := updatePageDirectoryEntry pageDir (4194304 * UInt32.ofNat i) virtualAddr userFlag pg
      (true, { pg with freePageFrameCount := pg.freePageFrameCount - 1 })

/-- The index `paging_free_user_page_frame` computes of the frame in entry `e`. The shift by 22
    stands there although `lower_address` holds the frame number itself. -/
def freedIndex (e : PageDirectoryEntry) : UInt32 :=
  UInt32.ofNat (e.lowerAddress.toNat >>> 22) - 1

/-- `page_frame_map[i] = false`. An index behind the map leads to memory outside the state. -/
def Paging.clearFrame (pg : Paging) (i : UInt32) : Paging :=
  if h : i.toNat < 32 then
    { pg with pageFrameMap := Function.update pg.pageFrameMap ⟨i.toNat, h⟩ false }
  else pg

/-- `paging_free_user_page_frame`. -/
def pagingFreeUserPageFrame (pageDir : PageDirPtr) (virtualAddr : UInt32) (pg : Paging) :
    Bool × Paging :=
  let e := pg.directory pageDir (pageIndex virtualAddr)
  if e.flag.presentBit then
    let pg := pg.clearFrame (freedIndex e)
    (true, { pg with
      directory := Function.update pg.directory pageDir
        (Function.update (pg.directory pageDir) (pageIndex virtualAddr) { e with flag := .zero }) })
  else (false, pg)

/-- The entry of the kernel in a new page directory. -/
def kernelEntry : PageDirectoryEntry := ⟨⟨true, true, false, false, false, false, false, true⟩, 0⟩

/-- `paging_create_new_page_directory`. -/
def pagingCreateNewPageDirectory (pg : Paging) : PageDirPtr × Paging :=
  match firstFree 0 pg.pageDirectoryUsed with
  | none => (.null, pg)
  | some i => (.list i,
      { pg with
        pageDirectoryUsed := Function.update pg.pageDirectoryUsed i true
        directory := Function.update pg.directory (.list i)
          (Function.update (pg.directory (.list i)) 0x300 kernelEntry) })

/-- What `paging_free_page_directory` leaves of an entry: three flags are cleared. -/
def PageDirectoryEntry.clear (e : PageDirectoryEntry) : PageDirectoryEntry :=
  { e with flag := { e.flag with presentBit := false, writeBit := false, usePagesize4Mb := false } }

/-- `paging_free_page_directory`. -/
def pagingFreePageDirectory (pageDir : PageDirPtr) (pg : Paging) : Bool × Paging :=
  match pageDir with
  | .list i => (true,
      { pg with
        pageDirectoryUsed := Function.update pg.pageDirectoryUsed i false
        directory := Function.update pg.directory (.list i)
          fun j => (pg.directory (.list i) j).clear })
  | _ => (false, pg)

/-- `paging_get_current_page_directory_addr`. -/
def pagingGetCurrentPageDirectoryAddr (pg : Paging) : PageDirPtr :=
  match pg.cr3 with
  | .addr a => .addr (a + 0xC0000000)
  | p => p

/-- `paging_use_page_directory`. The directories lie above `KERNEL_VIRTUAL_ADDRESS_BASE`. -/
def pagingUsePageDirectory (pageDir : PageDirPtr) (pg : Paging) : Paging :=
  { pg with
    cr3 := match pageDir with
      | .addr a => .addr (if 0xC0000000 < a then a - 0xC0000000 else a)
      | p => p }

/-! ## What they do -/

section Use

variable (p : PageDirPtr) (pg : Paging)

@[simp] theorem use_pageFrameMap :
    (pagingUsePageDirectory p pg).pageFrameMap = pg.pageFrameMap := rfl

@[simp] theorem use_freePageFrameCount :
    (pagingUsePageDirectory p pg).freePageFrameCount = pg.freePageFrameCount := rfl

@[simp] theorem use_directory : (pagingUsePageDirectory p pg).directory = pg.directory := rfl

@[simp] theorem use_pageDirectoryUsed :
    (pagingUsePageDirectory p pg).pageDirectoryUsed = pg.pageDirectoryUsed := rfl

end Use

/-- Frame `i` becomes the page `j` of the directory at `p`. -/
def Paging.give (pg : Paging) (i : Fin 32) (p : PageDirPtr) (j : Fin 1024) : Paging :=
  { pg with
    pageFrameMap := Function.update pg.pageFrameMap i true
    freePageFrameCount := pg.freePageFrameCount - 1
    directory := Function.update pg.directory p
      (Function.update (pg.directory p) j ⟨userFlag, BitVec.ofNat 10 i⟩) }

/-- Directory `i` is taken and maps the kernel. -/
def Paging.openDirectory (pg : Paging) (i : Fin 32) : Paging :=
  { pg with
    pageDirectoryUsed := Function.update pg.pageDirectoryUsed i true
    directory := Function.update pg.directory (.list i)
      (Function.update (pg.directory (.list i)) 0x300 kernelEntry) }

/-- Directory `i` is given back. -/
def Paging.closeDirectory (pg : Paging) (i : Fin 32) : Paging :=
  { pg with
    pageDirectoryUsed := Function.update pg.pageDirectoryUsed i false
    directory := Function.update pg.directory (.list i) fun j => (pg.directory (.list i) j).clear }

theorem pageIndex_lt {va : UInt32} (h : ¬ 0xC0000000 ≤ va) : (pageIndex va).val < 0x300 := by
  have hva : va.toNat < 0xC0000000 := UInt32.lt_iff_toNat_lt.mp (UInt32.not_le.mp h)
  show (va >>> 22).toNat % 1024 < 0x300
  rw [UInt32.toNat_shiftRight, show (22 : UInt32).toNat % 32 = 22 from rfl,
    Nat.shiftRight_eq_div_pow]
  omega

theorem frame_address : ∀ i : Fin 32,
    (((4194304 : UInt32) * UInt32.ofNat i.val) >>> 22).toNat = i.val := by decide

/-- An allocation finds no frame free, or gives the first free one from 1 on. -/
theorem allocate_cases (p : PageDirPtr) (va : UInt32) (pg : Paging) :
    (pg.freePageFrameCount = 0 ∧ pagingAllocateUserPageFrame p va pg = (false, pg)) ∨
    (pg.freePageFrameCount ≠ 0 ∧ (∀ i : Fin 32, 1 ≤ i.val → pg.pageFrameMap i = true) ∧
      pagingAllocateUserPageFrame p va pg = (true, pg)) ∨
    ∃ i : Fin 32, pg.freePageFrameCount ≠ 0 ∧ 1 ≤ i.val ∧ pg.pageFrameMap i = false ∧
      pagingAllocateUserPageFrame p va pg = (true, pg.give i p (pageIndex va)) := by
  unfold pagingAllocateUserPageFrame
  by_cases h0 : pg.freePageFrameCount = 0
  · exact Or.inl ⟨h0, if_pos h0⟩
  · rw [if_neg h0]
    cases hf : firstFree 1 pg.pageFrameMap with
    | none => exact Or.inr (Or.inl ⟨h0, firstFree_eq_none.mp hf, rfl⟩)
    | some i =>
      obtain ⟨h1, hi, -⟩ := firstFree_eq_some hf
      refine Or.inr (Or.inr ⟨i, h0, h1, hi, ?_⟩)
      unfold updatePageDirectoryEntry Paging.give
      dsimp only
      rw [frame_address]

theorem allocate_used (p : PageDirPtr) (va : UInt32) (pg : Paging) :
    (pagingAllocateUserPageFrame p va pg).2.pageDirectoryUsed = pg.pageDirectoryUsed := by
  rcases allocate_cases p va pg with ⟨-, he⟩ | ⟨-, -, he⟩ | ⟨i, -, -, -, he⟩ <;> rw [he]
  rfl

theorem allocate_cr3 (p : PageDirPtr) (va : UInt32) (pg : Paging) :
    (pagingAllocateUserPageFrame p va pg).2.cr3 = pg.cr3 := by
  rcases allocate_cases p va pg with ⟨-, he⟩ | ⟨-, -, he⟩ | ⟨i, -, -, -, he⟩ <;> rw [he]
  rfl

/-- An allocation writes one entry at most. -/
theorem allocate_directory {p q : PageDirPtr} {j : Fin 1024} (va : UInt32) (pg : Paging)
    (h : q ≠ p ∨ j ≠ pageIndex va) :
    (pagingAllocateUserPageFrame p va pg).2.directory q j = pg.directory q j := by
  rcases allocate_cases p va pg with ⟨-, he⟩ | ⟨-, -, he⟩ | ⟨i, -, -, -, he⟩ <;> rw [he]
  unfold Paging.give
  dsimp only
  by_cases hq : q = p
  · subst hq
    rw [Function.update_self, Function.update_of_ne (h.resolve_left fun hc => hc rfl)]
  · rw [Function.update_of_ne hq]

/-- An allocation gives no frame back. -/
theorem allocate_keeps {pg : Paging} {f : Fin 32} (p : PageDirPtr) (va : UInt32)
    (h : pg.pageFrameMap f = true) :
    (pagingAllocateUserPageFrame p va pg).2.pageFrameMap f = true := by
  rcases allocate_cases p va pg with ⟨-, he⟩ | ⟨-, -, he⟩ | ⟨i, -, -, -, he⟩ <;> rw [he]
  · exact h
  · exact h
  · unfold Paging.give
    dsimp only
    by_cases hf : f = i
    · rw [hf, Function.update_self]
    · rw [Function.update_of_ne hf]
      exact h

/-- Without a frame to give an allocation changes nothing. -/
theorem allocate_of_none {pg : Paging} (p : PageDirPtr) (va : UInt32)
    (h : pg.freePageFrameCount = 0 ∨ ∀ i : Fin 32, 1 ≤ i.val → pg.pageFrameMap i = true) :
    (pagingAllocateUserPageFrame p va pg).2 = pg := by
  rcases allocate_cases p va pg with ⟨-, he⟩ | ⟨-, -, he⟩ | ⟨i, h0, h1, hi, -⟩
  · rw [he]
  · rw [he]
  · rcases h with h | h
    · exact absurd h h0
    · rw [h i h1] at hi
      cases hi

/-- A creation finds all directories in use, or opens the first that is not. -/
theorem create_cases (pg : Paging) :
    ((∀ i, pg.pageDirectoryUsed i = true) ∧ pagingCreateNewPageDirectory pg = (.null, pg)) ∨
    ∃ i, pg.pageDirectoryUsed i = false ∧
      pagingCreateNewPageDirectory pg = (.list i, pg.openDirectory i) := by
  unfold pagingCreateNewPageDirectory
  cases hf : firstFree 0 pg.pageDirectoryUsed with
  | none => exact Or.inl ⟨fun i => firstFree_eq_none.mp hf i (Nat.zero_le _), rfl⟩
  | some i => exact Or.inr ⟨i, (firstFree_eq_some hf).2.1, rfl⟩

/-- A release closes a directory of the pool and leaves any other alone. -/
theorem free_cases (p : PageDirPtr) (pg : Paging) :
    (∃ i, p = .list i ∧ pagingFreePageDirectory p pg = (true, pg.closeDirectory i)) ∨
    ((∀ i, p ≠ .list i) ∧ pagingFreePageDirectory p pg = (false, pg)) := by
  cases p with
  | list i => exact Or.inl ⟨i, rfl, rfl⟩
  | kernel => exact Or.inr ⟨fun _ => PageDirPtr.noConfusion, rfl⟩
  | addr a => exact Or.inr ⟨fun _ => PageDirPtr.noConfusion, rfl⟩

end LossOs.Kernel
