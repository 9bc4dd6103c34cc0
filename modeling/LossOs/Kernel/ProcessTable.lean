/-
  The process table: flags, counter and PCBs.

  `Coherent` says that the counter counts the flags and that a PCB knows no process number but
  one of the table. Every event keeps it as long as the numbers it brings are in the table
  (`Coherent.event`), and then `process_destroy` and the search for a free slot stay inside
  (`process_table_coherent`). The number 16 makes a flag of the counter.

  A creation that is refused by one of the checks leaves no trace; one that fails in `read()`
  keeps the slot, the directory, the frames and the address space (`create_failed_iff`).
-/
import LossOs.Kernel.AddressSpaces

namespace LossOs.Kernel

open LossOs.Lib

variable {k k' : KernelState} {e : Event} {pid : UInt32} {request : ProcessRequest} {code : Int}

/-- The counter counts the flags, and every PCB holds a number of the table. -/
structure Coherent (k : KernelState) : Prop where
  counted : k.manager.activeProcessCount.toNat = count true k.manager.isProcessActive
  pid : ∀ i : Fin 16, (k.processList i).pid.toNat < 16

/-! ## Slots -/

theorem toNat_slot (i : Fin 16) : (UInt32.ofNat i.val).toNat = i.val := by
  rw [UInt32.toNat_ofNat']
  omega

theorem isActive_slot (k : KernelState) (i : Fin 16) :
    k.isActive (UInt32.ofNat i.val) = k.manager.isProcessActive i := by
  unfold KernelState.isActive
  rw [dif_pos (by rw [toNat_slot]; exact i.isLt)]
  congr 1
  exact Fin.ext (toNat_slot i)

theorem isActive_of_lt (h : pid.toNat < 16) :
    k.isActive pid = k.manager.isProcessActive ⟨pid.toNat, h⟩ := dif_pos h

theorem setActive_of_lt (h : pid.toNat < 16) (b : Bool) : k.setActive pid b =
    { k with manager := { k.manager with
        isProcessActive := Function.update k.manager.isProcessActive ⟨pid.toNat, h⟩ b } } :=
  dif_pos h

/-- A refused request aside, there is a slot for it. -/
theorem Coherent.exists_slot (h : Coherent k) (hr : ¬ Refused request k) :
    ∃ i, firstFree 0 k.manager.isProcessActive = some i := by
  have hlt : k.manager.activeProcessCount.toNat < 16 := by
    have hlow : ¬ 16 ≤ k.manager.activeProcessCount := fun hc => hr (Or.inl hc)
    rw [UInt32.le_iff_toNat_le] at hlow
    exact not_le.mp hlow
  have hsum := count_add k.manager.isProcessActive
  rw [← h.counted] at hsum
  obtain ⟨i, hi⟩ := exists_of_count_pos (b := false) (f := k.manager.isProcessActive) (by omega)
  exact firstFree_isSome (Nat.zero_le _) hi

/-- The slot that is found is marked and counted. -/
theorem inactiveIndex_eq {i : Fin 16} (h : firstFree 0 k.manager.isProcessActive = some i) :
    processListGetInactiveIndex k = (UInt32.ofNat i.val,
      { k with manager := { k.manager with
          isProcessActive := Function.update k.manager.isProcessActive i true
          activeProcessCount := k.manager.activeProcessCount + 1 } }) := by
  unfold processListGetInactiveIndex
  rw [h]
  dsimp only [Option.elim]
  rw [setActive_of_lt (by rw [toNat_slot]; exact i.isLt)]
  have hi : (⟨(UInt32.ofNat i.val).toNat, by rw [toNat_slot]; exact i.isLt⟩ : Fin 16) = i :=
    Fin.ext (toNat_slot i)
  rw [hi]
  rfl

theorem loading_manager (request : ProcessRequest) (k : KernelState) :
    (loading request k).manager = (processListGetInactiveIndex k).2.manager := rfl

theorem created_manager (request : ProcessRequest) (k : KernelState) :
    (created request k).manager = (processListGetInactiveIndex k).2.manager := rfl

/-- A creation touches the PCB of its slot only. -/
theorem loading_pcb (request : ProcessRequest) {i : Fin 16}
    (h : firstFree 0 k.manager.isProcessActive = some i) :
    ∃ used, (loading request k).processList = Function.update k.processList i
      { k.processList i with virtualAddrUsed := used } := by
  unfold loading reserveProcess
  rw [inactiveIndex_eq h]
  simp only [toNat_slot, usePageDirectory_processList, setPcb_processList]
  exact ⟨_, rfl⟩

theorem reserveProcess_index (request : ProcessRequest) {i : Fin 16}
    (h : firstFree 0 k.manager.isProcessActive = some i) :
    (reserveProcess request k).1 = UInt32.ofNat i.val := by
  unfold reserveProcess
  rw [inactiveIndex_eq h]

theorem created_pcb (request : ProcessRequest) {i : Fin 16}
    (h : firstFree 0 k.manager.isProcessActive = some i) :
    ∃ pcb, (created request k).processList = Function.update k.processList i pcb ∧
      pcb.pid = UInt32.ofNat i.val ∧ pcb.processState = .ready ∧
      pcb.context.pageDirectoryVirtualAddr = (openSpace request.buf k.paging).1 := by
  obtain ⟨used, hl⟩ := loading_pcb request h
  unfold created startProcess
  have hdir : (reserveProcess request k).2.1 = (openSpace request.buf k.paging).1 := by
    unfold reserveProcess
    rw [inactiveIndex_eq h]
  rw [reserveProcess_index request h, hdir]
  simp only [toNat_slot, usePageDirectory_processList, setPcb_processList, hl,
    Function.update_idem]
  exact ⟨_, rfl, rfl, rfl, rfl⟩

theorem releaseSlot_manager (h : pid.toNat < 16) : (releaseSlot pid k).manager =
    { k.manager with
      isProcessActive := Function.update k.manager.isProcessActive ⟨pid.toNat, h⟩ false
      activeProcessCount := k.manager.activeProcessCount - 1 } := by
  unfold releaseSlot
  rw [setActive_of_lt h]
  rfl

/-! ## Steps -/

/-- Flags and counter, with a PCB table that differs in one place at most. -/
theorem Coherent.update (h : Coherent k) {i : Fin 16} {pcb : ProcessControlBlock}
    (hlist : k'.processList = Function.update k.processList i pcb) (hpid : pcb.pid.toNat < 16)
    (hcount : k'.manager.activeProcessCount.toNat = count true k'.manager.isProcessActive) :
    Coherent k' := by
  refine ⟨hcount, fun j => ?_⟩
  rw [hlist]
  by_cases hj : (j : Int) = i
  · rw [hj, Function.update_self]
    exact hpid
  · rw [Function.update_of_ne hj]
    exact h.pid j

theorem Coherent.gained (h : Coherent k) {i : Fin 16}
    (hi : firstFree 0 k.manager.isProcessActive = some i) (hr : ¬ Refused request k) :
    (processListGetInactiveIndex k).2.manager.activeProcessCount.toNat =
      count true (processListGetInactiveIndex k).2.manager.isProcessActive := by
  have hfree : k.manager.isProcessActive i = false := (firstFree_eq_some hi).2.1
  have hlow : ¬ 16 ≤ k.manager.activeProcessCount := fun hc => hr (Or.inl hc)
  rw [UInt32.le_iff_toNat_le] at hlow
  rw [inactiveIndex_eq hi]
  dsimp only
  rw [count_update_gain (by rw [hfree]; decide), ← h.counted, UInt32.toNat_add]
  have : k.manager.activeProcessCount.toNat < 16 := not_le.mp hlow
  exact Nat.mod_eq_of_lt (by rw [UInt32.toNat_one]; omega)

theorem Coherent.created (h : Coherent k) (request : ProcessRequest) (code : Int) :
    Coherent (processCreateUserProcess request code k).2 := by
  rcases processCreate_cases request code k with ⟨-, c, -, he⟩ | ⟨hr, -, he⟩ |
    ⟨hr, -, he⟩ <;> rw [he]
  · exact h
  · obtain ⟨i, hi⟩ := h.exists_slot hr
    obtain ⟨used, hl⟩ := loading_pcb request hi
    exact h.update hl (h.pid i) (h.gained hi hr)
  · obtain ⟨i, hi⟩ := h.exists_slot hr
    obtain ⟨pcb, hl, hpid, -, -⟩ := created_pcb request hi
    exact h.update hl (by rw [hpid, toNat_slot]; exact i.isLt) (h.gained hi hr)

theorem Coherent.destroyed (h : Coherent k) (hpid : pid.toNat < 16) :
    Coherent (processDestroy pid k).2 := by
  rcases processDestroy_cases pid k with ⟨-, he⟩ | ⟨ha, he⟩ <;> rw [he]
  · exact h
  · rw [isActive_of_lt hpid] at ha
    refine h.update (i := ⟨pid.toNat, hpid⟩) (destroyed_processList pid k) (by decide) ?_
    rw [setPcb_manager, releaseSpace_manager, releaseSlot_manager hpid]
    dsimp only
    have hloss := count_update_loss ha
    have hpos : (1 : UInt32) ≤ k.manager.activeProcessCount := by
      rw [UInt32.le_iff_toNat_le, h.counted]
      exact count_pos ha
    rw [UInt32.toNat_sub_of_le _ _ hpos, h.counted, ← hloss]
    rfl

theorem Coherent.switched (h : Coherent k)
    (he : (schedulerSwitchToNextProcess k).map Prod.snd = some k') : Coherent k' := by
  obtain ⟨r, hr, rfl⟩ := Option.map_eq_some_iff.mp he
  obtain ⟨next, -, -, hr'⟩ := switch_cases hr
  rw [hr']
  refine ⟨by simpa using h.counted, fun i => ?_⟩
  obtain ⟨st, hst⟩ := selectProcess_pcb k next i
  rw [usePageDirectory_processList, hst]
  exact h.pid i

theorem Coherent.saved (h : Coherent k) (ctx : Context) : Coherent (schedulerSaveContext ctx k) :=
  ⟨by simpa using h.counted, fun i => by rw [(schedulerSaveContext_pcb k ctx i).1]; exact h.pid i⟩

theorem Coherent.event (h : Coherent k) (hok : e.InTable) (he : e.run k = some k') :
    Coherent k' := by
  cases e with
  | create request code =>
    cases he
    exact h.created request code
  | destroy pid =>
    cases he
    exact h.destroyed hok
  | exit =>
    obtain ⟨i, -, he⟩ := Option.bind_eq_some_iff.mp he
    exact (h.destroyed (h.pid i)).switched he
  | tick ctx => exact (h.saved ctx).switched he
  | switch => exact h.switched he

theorem coherent_boot (m : Surroundings) : Coherent (boot m) := by
  have h0 : (0 : UInt32).toNat = count true fun _ : Fin 16 => false := by decide
  refine ⟨h0, fun i => ?_⟩
  have hi : (0 : Int) ≤ i.val ∧ (i.val : Int) < 16 := by omega
  show (if (0 : Int) ≤ i.val ∧ (i.val : Int) < 16 then ProcessControlBlock.zero
    else m.processList i).pid.toNat < 16
  rw [if_pos hi]
  decide

/-! ## Runs -/

/-- The counter counts the flags, and the numbers that `process_create_user_process` and
    `process_destroy` use as an index stay in the table. -/
structure TableOk (k : KernelState) : Prop where
  counted : k.manager.activeProcessCount.toNat = count true k.manager.isProcessActive
  slot : ∀ request, ¬ Refused request k → (processListGetInactiveIndex k).1.toNat < 16
  destroyed : ∀ pid, (Event.destroy pid).InTable → ((processDestroy pid k).1 = true ↔
    ∃ h : pid.toNat < 16, k.manager.isProcessActive ⟨pid.toNat, h⟩ = true)
  unchanged : ∀ pid, (processDestroy pid k).1 = false → (processDestroy pid k).2 = k

theorem Coherent.tableOk (h : Coherent k) : TableOk k := by
  refine ⟨h.counted, fun request hr => ?_, fun pid hpid => ?_, fun pid hd => ?_⟩
  · obtain ⟨i, hi⟩ := h.exists_slot hr
    rw [inactiveIndex_eq hi, toNat_slot]
    exact i.isLt
  · have hlt : pid.toNat < 16 := hpid
    rcases processDestroy_cases pid k with ⟨ha, he⟩ | ⟨ha, he⟩ <;> rw [he] <;>
      rw [isActive_of_lt hlt] at ha
    · exact ⟨fun hc => (Bool.false_ne_true hc).elim, fun ⟨_, hc⟩ => by rw [ha] at hc; exact hc⟩
    · exact ⟨fun _ => ⟨hlt, ha⟩, fun _ => rfl⟩
  · rcases processDestroy_cases pid k with ⟨-, he⟩ | ⟨-, he⟩ <;> rw [he] at hd ⊢
    cases hd

/-- As long as the numbers of the processes to destroy are in the table, the table stays
    coherent. -/
theorem process_table_coherent {m : Surroundings}
    (h : Runs Event.run (fun e _ => e.InTable) (boot m) k) : TableOk k :=
  (h.invariant (fun _ _ _ hI hok he => hI.event hok he) (coherent_boot m)).tableOk

/-- A program at address 0 that fills no page. -/
def smallProgram : ProcessRequest := ⟨0, fun _ => 0, 0⟩

theorem process_table_coherent_boot :
    TableOk (processCreateUserProcess smallProgram 0 (boot emptyMemory)).2 :=
  process_table_coherent ((Runs.refl (boot emptyMemory)).tail (e := .create smallProgram 0)
    trivial rfl)

/-- The flag of process 16 is the low byte of the counter: with one process active it can be
    destroyed, and then 2^32 - 1 are counted while one is active. -/
theorem process_table_not_coherent :
    (Event.destroy 16).run (processCreateUserProcess smallProgram 0 (boot emptyMemory)).2 =
        some (processDestroy 16 (processCreateUserProcess smallProgram 0 (boot emptyMemory)).2).2 ∧
      (processDestroy 16 (processCreateUserProcess smallProgram 0 (boot emptyMemory)).2).1 = true ∧
      ¬ TableOk (processDestroy 16
        (processCreateUserProcess smallProgram 0 (boot emptyMemory)).2).2 := by
  refine ⟨rfl, by decide, fun h => absurd h.counted (by decide)⟩

/-! ## Failed creations -/

/-- Flags and counter, frames, directories in use and CR3 are the same. -/
structure NoTrace (k k' : KernelState) : Prop where
  isProcessActive : k'.manager.isProcessActive = k.manager.isProcessActive
  activeProcessCount : k'.manager.activeProcessCount = k.manager.activeProcessCount
  pageFrameMap : k'.paging.pageFrameMap = k.paging.pageFrameMap
  freePageFrameCount : k'.paging.freePageFrameCount = k.paging.freePageFrameCount
  pageDirectoryUsed : k'.paging.pageDirectoryUsed = k.paging.pageDirectoryUsed
  cr3 : k'.paging.cr3 = k.paging.cr3

/-- Nothing is left to be taken, and the marks a creation sets are there already: every flag is
    set although only two processes are counted, every directory is in use, CR3 is null, and no
    frame is given. No run with process numbers of the table comes to such a state. -/
structure Drained (k : KernelState) : Prop where
  flags : ∀ i, k.manager.isProcessActive i = true
  counter : k.manager.activeProcessCount = 2
  directories : ∀ d, k.paging.pageDirectoryUsed d = true
  cr3 : k.paging.cr3 = .null
  frames : k.paging.freePageFrameCount = 0 ∨ ∀ i : Fin 32, 1 ≤ i.val →
    k.paging.pageFrameMap i = true

/-- Without a free slot the search ends behind the flags, on the low byte of the counter. -/
theorem inactiveIndex_none (h : firstFree 0 k.manager.isProcessActive = none)
    (hlow : k.manager.activeProcessCount.toNat < 16) :
    (processListGetInactiveIndex k).2.manager.isProcessActive = k.manager.isProcessActive ∧
      (processListGetInactiveIndex k).2.manager.activeProcessCount = 2 := by
  have hbyte : setFlagByte k.manager.activeProcessCount 0 true = 1 := by
    unfold setFlagByte
    rw [show k.manager.activeProcessCount.toNat - k.manager.activeProcessCount.toNat / 256 ^ 0 %
      256 * 256 ^ 0 + true.toNat * 256 ^ 0 = 1 by
        rw [Nat.pow_zero, Nat.div_one, Nat.mul_one, Nat.mod_eq_of_lt (by omega)]
        simp]
    rfl
  unfold processListGetInactiveIndex
  rw [h]
  dsimp only [Option.elim]
  unfold KernelState.setActive
  rw [dif_neg (by decide), if_pos (by decide)]
  exact ⟨rfl, by rw [show (16 : UInt32).toNat - 16 = 0 from rfl, hbyte]; rfl⟩

theorem openSpace_eq (buf : UInt32) (pg : Paging) :
    openSpace buf pg = ((pagingCreateNewPageDirectory pg).1,
      (pagingAllocateUserPageFrame (pagingCreateNewPageDirectory pg).1 buf
        (pagingCreateNewPageDirectory pg).2).1,
      (pagingAllocateUserPageFrame (pagingCreateNewPageDirectory pg).1 0xBFFFFFFC
        (pagingAllocateUserPageFrame (pagingCreateNewPageDirectory pg).1 buf
          (pagingCreateNewPageDirectory pg).2).2)) := rfl

theorem openSpace_drained (buf : UInt32) {pg : Paging} (hd : ∀ d, pg.pageDirectoryUsed d = true)
    (hf : pg.freePageFrameCount = 0 ∨ ∀ i : Fin 32, 1 ≤ i.val → pg.pageFrameMap i = true) :
    (openSpace buf pg).1 = .null ∧ (openSpace buf pg).2.2.2 = pg := by
  rw [openSpace_eq]
  rcases create_cases pg with ⟨-, he⟩ | ⟨i, hi, -⟩
  · rw [he]
    dsimp only
    rw [allocate_of_none .null buf hf, allocate_of_none .null _ hf]
    exact ⟨rfl, rfl⟩
  · rw [hd i] at hi
    cases hi

/-- Opening an address space takes nothing only when there is nothing to take. -/
theorem openSpace_same {buf : UInt32} {pg : Paging}
    (hused : (openSpace buf pg).2.2.2.pageDirectoryUsed = pg.pageDirectoryUsed)
    (hmap : (openSpace buf pg).2.2.2.pageFrameMap = pg.pageFrameMap) :
    (∀ d, pg.pageDirectoryUsed d = true) ∧ (openSpace buf pg).1 = .null ∧
      (pg.freePageFrameCount = 0 ∨ ∀ i : Fin 32, 1 ≤ i.val → pg.pageFrameMap i = true) := by
  rw [openSpace_eq] at hused hmap ⊢
  rcases create_cases pg with ⟨hall, he⟩ | ⟨i, hi, he⟩ <;> rw [he] at hused hmap ⊢
  · refine ⟨hall, rfl, ?_⟩
    dsimp only at hmap
    rcases allocate_cases .null buf pg with ⟨h0, -⟩ | ⟨-, hf, -⟩ | ⟨i, -, -, hi, ha⟩
    · exact Or.inl h0
    · exact Or.inr hf
    · have hnew : (pg.give i .null (pageIndex buf)).pageFrameMap i = true :=
        Function.update_self ..
      rw [ha] at hmap
      have := allocate_keeps .null 0xBFFFFFFC hnew
      rw [hmap, hi] at this
      cases this
  · dsimp only at hused
    rw [allocate_used, allocate_used] at hused
    have := congrFun hused i
    rw [hi, show (pg.openDirectory i).pageDirectoryUsed i = true from
      Function.update_self ..] at this
    cases this

/-- A creation that fails leaves no trace exactly if a check refuses it or `read()` succeeds:
    what comes after the checks is never undone. -/
theorem create_failed_iff (request : ProcessRequest) (code : Int) (k : KernelState) :
    ((processCreateUserProcess request code k).1 ≠ 0 →
      NoTrace k (processCreateUserProcess request code k).2) ↔
      Refused request k ∨ code = 0 ∨ Drained k := by
  rcases processCreate_cases request code k with
    ⟨hr, c, hc, he⟩ | ⟨hr, hcode, he⟩ | ⟨hr, hcode, he⟩ <;> rw [he]
  · exact ⟨fun _ => Or.inl hr, fun _ _ => ⟨rfl, rfl, rfl, rfl, rfl, rfl⟩⟩
  · have hlow : k.manager.activeProcessCount.toNat < 16 := by
      have hlow : ¬ 16 ≤ k.manager.activeProcessCount := fun hc => hr (Or.inl hc)
      rw [UInt32.le_iff_toNat_le] at hlow
      exact not_le.mp hlow
    refine ⟨fun h => Or.inr (Or.inr ?_), fun h _ => ?_⟩
    · have h := h (show (4 : Int) ≠ 0 by decide)
      cases hf : firstFree 0 k.manager.isProcessActive with
      | some j =>
        have hsame := congrFun h.isProcessActive j
        rw [loading_manager, inactiveIndex_eq hf] at hsame
        dsimp only at hsame
        rw [Function.update_self, (firstFree_eq_some hf).2.1] at hsame
        cases hsame
      | none =>
        have hused := h.pageDirectoryUsed
        have hmap := h.pageFrameMap
        have hcr3 := h.cr3
        rw [loading_paging] at hused hmap hcr3
        rw [use_pageDirectoryUsed] at hused
        rw [use_pageFrameMap] at hmap
        obtain ⟨hd, hnull, hframes⟩ := openSpace_same hused hmap
        rw [hnull] at hcr3
        exact ⟨fun i => firstFree_eq_none.mp hf i (Nat.zero_le _),
          h.activeProcessCount.symm.trans (inactiveIndex_none hf hlow).2, hd, hcr3.symm, hframes⟩
    · rcases h with h | h | h
      · exact absurd h hr
      · exact absurd h hcode
      · obtain ⟨hnull, hsame⟩ := openSpace_drained request.buf h.directories h.frames
        obtain ⟨hflags, hcount⟩ := inactiveIndex_none
          (firstFree_eq_none.mpr fun i _ => h.flags i) hlow
        refine ⟨hflags, hcount.trans h.counter.symm, ?_, ?_, ?_, ?_⟩ <;> rw [loading_paging, hsame]
        · rfl
        · rfl
        · rfl
        · rw [hnull]
          exact h.cr3.symm
  · exact ⟨fun _ => Or.inr (Or.inl hcode), fun _ h => absurd rfl h⟩

/-- A program that does not exist, on a kernel that has just been booted: slot 0, two frames and
    directory 0 stay taken, and CR3 holds the new directory. -/
theorem create_failed_keeps :
    (processCreateUserProcess smallProgram (-1) (boot emptyMemory)).1 ≠ 0 ∧
      ¬ NoTrace (boot emptyMemory)
        (processCreateUserProcess smallProgram (-1) (boot emptyMemory)).2 :=
  ⟨by decide, fun h => absurd h.activeProcessCount (by decide)⟩

end LossOs.Kernel
