/-
  The functions of `process/process.c` and `process/scheduler.c`, and what `cpu/interrupt.c`
  and `kernel.c` do with them.

  What `read()` returned is an argument of `process_create_user_process`: any file system may be
  below, and reading a program changes none of the tables here. The three stages of a creation
  and of a destruction are functions of their own, for the states between them count too.
  Drawing on the screen and the sleep counter `pit_ticks` are left out.
-/
import LossOs.Kernel.Paging

namespace LossOs.Kernel

open LossOs.Lib

/-! ## The flags, by address -/

/-- The byte of `x` at offset `o`, as a truth value. -/
def flagByte (x : UInt32) (o : Nat) : Bool := x.toNat / 256 ^ o % 256 != 0

/-- `x` with a truth value stored in the byte at offset `o`. -/
def setFlagByte (x : UInt32) (o : Nat) (b : Bool) : UInt32 :=
  UInt32.ofNat (x.toNat - x.toNat / 256 ^ o % 256 * 256 ^ o + b.toNat * 256 ^ o)

/-- `process_manager_state.is_process_active[pid]`: behind the sixteen flags come the four
    bytes of `active_process_count` and the four of `current_running_pid`. -/
def KernelState.isActive (k : KernelState) (pid : UInt32) : Bool :=
  if h : pid.toNat < 16 then k.manager.isProcessActive ⟨pid.toNat, h⟩
  else if pid.toNat < 20 then flagByte k.manager.activeProcessCount (pid.toNat - 16)
  else if pid.toNat < 24 then flagByte k.manager.currentRunningPid (pid.toNat - 20)
  else k.behind pid

/-- `process_manager_state.is_process_active[pid] = b`. -/
def KernelState.setActive (k : KernelState) (pid : UInt32) (b : Bool) : KernelState :=
  if h : pid.toNat < 16 then
    { k with manager := { k.manager with
        isProcessActive := Function.update k.manager.isProcessActive ⟨pid.toNat, h⟩ b } }
  else if pid.toNat < 20 then
    { k with manager := { k.manager with
        activeProcessCount := setFlagByte k.manager.activeProcessCount (pid.toNat - 16) b } }
  else if pid.toNat < 24 then
    { k with manager := { k.manager with
        currentRunningPid := setFlagByte k.manager.currentRunningPid (pid.toNat - 20) b } }
  else { k with behind := Function.update k.behind pid b }

def KernelState.setPcb (k : KernelState) (i : Int) (pcb : ProcessControlBlock) : KernelState :=
  { k with processList := Function.update k.processList i pcb }

def KernelState.setCount (k : KernelState) (n : UInt32) : KernelState :=
  { k with manager := { k.manager with activeProcessCount := n } }

def KernelState.usePageDirectory (k : KernelState) (p : PageDirPtr) : KernelState :=
  { k with paging := pagingUsePageDirectory p k.paging }

/-! ## `process.c` -/

/-- `process_list_get_inactive_index`: 16 when every flag is set. -/
def processListGetInactiveIndex (k : KernelState) : UInt32 × KernelState :=
  let ret := (firstFree 0 k.manager.isProcessActive).elim 16 fun i => UInt32.ofNat i
  let k := k.setActive ret true
  (ret, k.setCount (k.manager.activeProcessCount + 1))

/-- The index of the PCB that `process_get_current_running_pcb_pointer` returns. -/
def currentRunning (k : KernelState) : Option (Fin 16) :=
  (List.finRange 16).find? fun i =>
    k.manager.isProcessActive i && decide ((k.processList i).processState = .running)

/-- `ceil_div`. -/
def ceilDiv (numerator denominator : UInt32) : UInt32 :=
  (numerator + denominator - 1) / denominator

/-- `page_frame_count_needed`. -/
def framesNeeded (request : ProcessRequest) : UInt32 :=
  ceilDiv (request.bufferSize + 4194304) 4194304

/-- A new page directory with a frame for the program and one for the stack. -/
def openSpace (buf : UInt32) (pg : Paging) : PageDirPtr × Bool × Bool × Paging :=
  let (pdNew, pg) := pagingCreateNewPageDirectory pg
  let (b₀, pg) := pagingAllocateUserPageFrame pdNew buf pg
  let (b₁, pg) := pagingAllocateUserPageFrame pdNew 0xBFFFFFFC pg
  (pdNew, b₀, b₁, pg)

/-- Process creation up to the switch to the new address space: slot, page directory, frames. -/
def reserveProcess (request : ProcessRequest) (k : KernelState) :
    UInt32 × PageDirPtr × KernelState :=
  let (pIndex, k) := processListGetInactiveIndex k
  let (pdNew, b₀, b₁, pg) := openSpace request.buf k.paging
  let pcb := k.processList pIndex.toNat
  let used := Function.update (Function.update pcb.virtualAddrUsed
    0 (0xC0000000 + b₀.toUInt32)) 1 (0xC0000000 + b₁.toUInt32)
  (pIndex, pdNew, { k with paging := pg }.setPcb pIndex.toNat { pcb with virtualAddrUsed := used })

/-- Process creation from the switch back on: the PCB of the new process. -/
def startProcess (request : ProcessRequest) (pIndex : UInt32) (pdNew : PageDirPtr)
    (k : KernelState) : KernelState :=
  let pcb := k.processList pIndex.toNat
  let cpu := { pcb.context.cpu with
    ds := 0x3 ||| 0x20
    es := 0x3 ||| 0x20
    fs := 0x3 ||| 0x20
    gs := 0x3 ||| 0x20
    ebp := 0xBFFFFFFC
    esp := 0xBFFFFFFC }
  k.setPcb pIndex.toNat
    { pcb with
      context := ⟨cpu, request.buf, pcb.context.eflags ||| (0x2 ||| 0x200), pdNew⟩
      processState := .ready
      pid := pIndex
      name := fun o => if o.val < 8 then request.name o else 0 }

/-- `process_create_user_process`, when `read()` of the program returns `code`. -/
def processCreateUserProcess (request : ProcessRequest) (code : Int) (k : KernelState) :
    Int × KernelState :=
  if 16 ≤ k.manager.activeProcessCount then (1, k)
  else if 0xC0000000 ≤ request.buf then (2, k)
  else if !pagingAllocateCheck (framesNeeded request) k.paging ∨
    8 < framesNeeded request then (3, k)
  else
    let pdOld := pagingGetCurrentPageDirectoryAddr k.paging
    let (pIndex, pdNew, k) := reserveProcess request k
    let k := k.usePageDirectory pdNew
    if code ≠ 0 then (4, k)
    else (0, startProcess request pIndex pdNew (k.usePageDirectory pdOld))

/-- `process_destroy` up to the release of the page directory. -/
def releaseSlot (pid : UInt32) (k : KernelState) : KernelState :=
  let k := k.setActive pid false
  k.setCount (k.manager.activeProcessCount - 1)

/-- `process_destroy`: the release of the page directory. -/
def releaseSpace (pid : UInt32) (k : KernelState) : KernelState :=
  { k with paging :=
      (pagingFreePageDirectory (k.processList pid.toNat).context.pageDirectoryVirtualAddr
        k.paging).2 }

/-- `process_destroy`. -/
def processDestroy (pid : UInt32) (k : KernelState) : Bool × KernelState :=
  if !k.isActive pid then (false, k)
  else (true, (releaseSpace pid (releaseSlot pid k)).setPcb pid.toNat .zero)

/-! ## `scheduler.c` -/

/-- `scheduler_save_context_to_current_running_pcb`. -/
def schedulerSaveContext (ctx : Context) (k : KernelState) : KernelState :=
  match currentRunning k with
  | none => k
  | some i =>
    let pcb := k.processList i
    k.setPcb i
      { pcb with
        processState := .ready
        context := { pcb.context with cpu := ctx.cpu, eip := ctx.eip, eflags := ctx.eflags } }

/-- The search loop of `scheduler_switch_to_next_process`, for so many turns. -/
def nextActive (k : KernelState) : Nat → Int → Option Int
  | 0, _ => none
  | n + 1, pid =>
      let next := (pid + 1).tmod 16
      if k.isActive (UInt32.ofInt next) then some next else nextActive k n next

/-- `int current_pid = process_manager_state.current_running_pid`. -/
def currentPid (k : KernelState) : Int := k.manager.currentRunningPid.toInt32.toInt

/-- The states the two processes are left in, and the new `current_running_pid`. -/
def selectProcess (next : Int) (k : KernelState) : KernelState :=
  let current := currentPid k
  let k := k.setPcb next { k.processList next with processState := .running }
  let k := if next ≠ current then
      k.setPcb current { k.processList current with processState := .ready }
    else k
  { k with manager := { k.manager with currentRunningPid := UInt32.ofInt next } }

/-- `scheduler_switch_to_next_process`: the context it jumps to, and the state it leaves.
    Sixteen turns of the loop see all flags; without an active process it does not end. -/
def schedulerSwitchToNextProcess (k : KernelState) : Option (Context × KernelState) :=
  (nextActive k 16 (currentPid k)).map fun next =>
    let ctx := (k.processList next).context
    (ctx, (selectProcess next k).usePageDirectory ctx.pageDirectoryVirtualAddr)

/-! ## Events -/

/-- What enters the kernel: the timer with the interrupted context, and the system calls. -/
inductive Event where
  | create (request : ProcessRequest) (code : Int)
  | destroy (pid : UInt32)
  | exit
  | tick (ctx : Context)
  | switch

/-- The state in which the kernel is left; `none` when it does not come back. -/
def Event.run : Event → KernelState → Option KernelState
  | .create request code, k => some (processCreateUserProcess request code k).2
  | .destroy pid, k => some (processDestroy pid k).2
  | .exit, k => do
      let i ← currentRunning k
      let k := (processDestroy (k.processList i).pid k).2
      (schedulerSwitchToNextProcess k).map Prod.snd
  | .tick ctx, k => (schedulerSwitchToNextProcess (schedulerSaveContext ctx k)).map Prod.snd
  | .switch, k => (schedulerSwitchToNextProcess k).map Prod.snd

/-! ## Boot -/

/-- What lies where the kernel should not look: memory that is no page directory, and the
    surroundings of the process table and of its flags. -/
structure Surroundings where
  directory : UInt32 → PageDirectory
  processList : Int → ProcessControlBlock
  behind : UInt32 → Bool

/-- Nothing but zeros. -/
def emptyMemory : Surroundings := ⟨fun _ _ => .zero, fun _ => .zero, fun _ => false⟩

/-- The page tables as they are linked. -/
def linkedPaging (m : Surroundings) : Paging where
  pageFrameMap i := decide (i.val = 0)
  freePageFrameCount := 31
  directory
    | .kernel => fun j => if j.val = 0 ∨ j.val = 0x300 then kernelEntry else .zero
    | .list _ => fun _ => .zero
    | .addr a => m.directory a
  pageDirectoryUsed _ := false
  cr3 := .kernel

/-- The state when `kernel_setup` has mapped the first 4 MiB into the kernel's directory. -/
def boot (m : Surroundings) : KernelState where
  paging := (pagingAllocateUserPageFrame .kernel 0 (linkedPaging m)).2
  manager := ⟨fun _ => false, 0, 0xFFFFFFFF⟩
  processList i := if 0 ≤ i ∧ i < 16 then .zero else m.processList i
  behind := m.behind

/-! ## What they leave alone -/

section Projections

variable (k : KernelState) (pid n : UInt32) (i : Int) (b : Bool) (pcb : ProcessControlBlock)
  (p : PageDirPtr)

@[simp] theorem setActive_paging : (k.setActive pid b).paging = k.paging := by
  unfold KernelState.setActive
  split_ifs <;> rfl

@[simp] theorem setActive_processList : (k.setActive pid b).processList = k.processList := by
  unfold KernelState.setActive
  split_ifs <;> rfl

@[simp] theorem setPcb_paging : (k.setPcb i pcb).paging = k.paging := rfl

@[simp] theorem setPcb_manager : (k.setPcb i pcb).manager = k.manager := rfl

@[simp] theorem setPcb_processList :
    (k.setPcb i pcb).processList = Function.update k.processList i pcb := rfl

@[simp] theorem setCount_paging : (k.setCount n).paging = k.paging := rfl

@[simp] theorem setCount_processList : (k.setCount n).processList = k.processList := rfl

@[simp] theorem usePageDirectory_paging :
    (k.usePageDirectory p).paging = pagingUsePageDirectory p k.paging := rfl

@[simp] theorem usePageDirectory_manager : (k.usePageDirectory p).manager = k.manager := rfl

@[simp] theorem usePageDirectory_processList :
    (k.usePageDirectory p).processList = k.processList := rfl

@[simp] theorem releaseSlot_paging : (releaseSlot pid k).paging = k.paging := by
  unfold releaseSlot
  simp

@[simp] theorem releaseSlot_processList : (releaseSlot pid k).processList = k.processList := by
  unfold releaseSlot
  simp

@[simp] theorem releaseSpace_manager : (releaseSpace pid k).manager = k.manager := rfl

@[simp] theorem releaseSpace_processList : (releaseSpace pid k).processList = k.processList := rfl

@[simp] theorem schedulerSaveContext_paging (ctx : Context) :
    (schedulerSaveContext ctx k).paging = k.paging := by
  unfold schedulerSaveContext
  cases currentRunning k <;> rfl

@[simp] theorem schedulerSaveContext_manager (ctx : Context) :
    (schedulerSaveContext ctx k).manager = k.manager := by
  unfold schedulerSaveContext
  cases currentRunning k <;> rfl

@[simp] theorem selectProcess_paging : (selectProcess i k).paging = k.paging := by
  unfold selectProcess
  dsimp only
  split_ifs <;> rfl

@[simp] theorem selectProcess_isProcessActive :
    (selectProcess i k).manager.isProcessActive = k.manager.isProcessActive := by
  unfold selectProcess
  dsimp only
  split_ifs <;> rfl

@[simp] theorem selectProcess_activeProcessCount :
    (selectProcess i k).manager.activeProcessCount = k.manager.activeProcessCount := by
  unfold selectProcess
  dsimp only
  split_ifs <;> rfl

/-- Selecting a process changes the states of PCBs and nothing else of them. -/
theorem selectProcess_pcb (j : Int) :
    ∃ st, (selectProcess i k).processList j = { k.processList j with processState := st } := by
  have hset : ∀ (k' : KernelState) (a : Int) (st : ProcessState), ∃ st',
      (k'.setPcb a { k'.processList a with processState := st }).processList j =
        { k'.processList j with processState := st' } := by
    intro k' a st
    rw [setPcb_processList]
    by_cases hj : j = a
    · subst hj
      exact ⟨st, Function.update_self ..⟩
    · exact ⟨(k'.processList j).processState, Function.update_of_ne hj ..⟩
  obtain ⟨st₁, h₁⟩ := hset k i .running
  unfold selectProcess
  dsimp only
  split_ifs
  · obtain ⟨st₂, h₂⟩ := hset (k.setPcb i { k.processList i with processState := .running })
      (currentPid k) .ready
    exact ⟨st₂, h₂.trans (by rw [h₁])⟩
  · exact ⟨st₁, h₁⟩

/-- Saving a context keeps the number and the page directory of every PCB. -/
theorem schedulerSaveContext_pcb (ctx : Context) (j : Int) :
    ((schedulerSaveContext ctx k).processList j).pid = (k.processList j).pid ∧
      ((schedulerSaveContext ctx k).processList j).context.pageDirectoryVirtualAddr =
        (k.processList j).context.pageDirectoryVirtualAddr := by
  unfold schedulerSaveContext
  cases currentRunning k with
  | none => exact ⟨rfl, rfl⟩
  | some a =>
    dsimp only
    rw [setPcb_processList]
    by_cases hj : j = a
    · subst hj
      rw [Function.update_self]
      exact ⟨rfl, rfl⟩
    · rw [Function.update_of_ne hj]
      exact ⟨rfl, rfl⟩

end Projections

/-! ## What they do -/

variable {request : ProcessRequest} {code : Int} {k k' : KernelState} {pid : UInt32}

/-- One of the checks at the start of process creation fails. -/
def Refused (request : ProcessRequest) (k : KernelState) : Prop :=
  16 ≤ k.manager.activeProcessCount ∨ 0xC0000000 ≤ request.buf ∨
    pagingAllocateCheck (framesNeeded request) k.paging = false ∨ 8 < framesNeeded request

/-- The state in which process creation calls `read()`. -/
def loading (request : ProcessRequest) (k : KernelState) : KernelState :=
  (reserveProcess request k).2.2.usePageDirectory (reserveProcess request k).2.1

/-- The state in which a successful process creation returns. -/
def created (request : ProcessRequest) (k : KernelState) : KernelState :=
  startProcess request (reserveProcess request k).1 (reserveProcess request k).2.1
    ((loading request k).usePageDirectory (pagingGetCurrentPageDirectoryAddr k.paging))

theorem processCreate_cases (request : ProcessRequest) (code : Int) (k : KernelState) :
    (Refused request k ∧ ∃ c, c ≠ 0 ∧ processCreateUserProcess request code k = (c, k)) ∨
    (¬ Refused request k ∧ code ≠ 0 ∧
      processCreateUserProcess request code k = (4, loading request k)) ∨
    (¬ Refused request k ∧ code = 0 ∧
      processCreateUserProcess request code k = (0, created request k)) := by
  unfold processCreateUserProcess Refused
  by_cases h1 : 16 ≤ k.manager.activeProcessCount
  · exact Or.inl ⟨Or.inl h1, 1, by decide, if_pos h1⟩
  by_cases h2 : 0xC0000000 ≤ request.buf
  · exact Or.inl ⟨Or.inr (Or.inl h2), 2, by decide, by rw [if_neg h1, if_pos h2]⟩
  rw [if_neg h1, if_neg h2]
  by_cases h3 : (!pagingAllocateCheck (framesNeeded request) k.paging) = true ∨
      8 < framesNeeded request
  · refine Or.inl ⟨Or.inr (Or.inr (h3.imp_left fun h => by simpa using h)), 3, by decide, ?_⟩
    rw [if_pos h3]
  · have hnot : ¬ (16 ≤ k.manager.activeProcessCount ∨ 0xC0000000 ≤ request.buf ∨
        pagingAllocateCheck (framesNeeded request) k.paging = false ∨
          8 < framesNeeded request) := by
      rintro (h | h | h | h)
      · exact h1 h
      · exact h2 h
      · exact h3 (Or.inl (by simpa using h))
      · exact h3 (Or.inr h)
    rw [if_neg h3]
    by_cases hc : code ≠ 0
    · exact Or.inr (Or.inl ⟨hnot, hc, if_pos hc⟩)
    · exact Or.inr (Or.inr ⟨hnot, not_not.mp hc, if_neg hc⟩)

theorem inactiveIndex_paging (k : KernelState) :
    (processListGetInactiveIndex k).2.paging = k.paging := by
  unfold processListGetInactiveIndex
  simp

theorem reserveProcess_paging (request : ProcessRequest) (k : KernelState) :
    (reserveProcess request k).2.2.paging = (openSpace request.buf k.paging).2.2.2 := by
  unfold reserveProcess processListGetInactiveIndex
  simp

theorem loading_paging (request : ProcessRequest) (k : KernelState) :
    (loading request k).paging = pagingUsePageDirectory (openSpace request.buf k.paging).1
      (openSpace request.buf k.paging).2.2.2 := by
  unfold loading reserveProcess processListGetInactiveIndex
  simp

theorem created_paging (request : ProcessRequest) (k : KernelState) :
    (created request k).paging =
      pagingUsePageDirectory (pagingGetCurrentPageDirectoryAddr k.paging)
        (loading request k).paging := by
  unfold created startProcess
  simp

/-- A destruction either finds the flag clear or goes through its three stages. -/
theorem processDestroy_cases (pid : UInt32) (k : KernelState) :
    (k.isActive pid = false ∧ processDestroy pid k = (false, k)) ∨
    (k.isActive pid = true ∧ processDestroy pid k =
      (true, (releaseSpace pid (releaseSlot pid k)).setPcb pid.toNat .zero)) := by
  unfold processDestroy
  cases h : k.isActive pid with
  | false => exact Or.inl ⟨rfl, rfl⟩
  | true => exact Or.inr ⟨rfl, rfl⟩

theorem destroyed_paging (pid : UInt32) (k : KernelState) :
    ((releaseSpace pid (releaseSlot pid k)).setPcb pid.toNat .zero).paging =
      (pagingFreePageDirectory (k.processList pid.toNat).context.pageDirectoryVirtualAddr
        k.paging).2 := by
  unfold releaseSpace
  simp

theorem destroyed_processList (pid : UInt32) (k : KernelState) :
    ((releaseSpace pid (releaseSlot pid k)).setPcb pid.toNat .zero).processList =
      Function.update k.processList pid.toNat .zero := by
  simp

/-- A switch goes to the next active process with its context and address space. -/
theorem switch_cases {r : Context × KernelState} (h : schedulerSwitchToNextProcess k = some r) :
    ∃ next, nextActive k 16 (currentPid k) = some next ∧ r.1 = (k.processList next).context ∧
      r.2 = (selectProcess next k).usePageDirectory r.1.pageDirectoryVirtualAddr := by
  unfold schedulerSwitchToNextProcess at h
  obtain ⟨next, hn, rfl⟩ := Option.map_eq_some_iff.mp h
  exact ⟨next, hn, rfl, rfl⟩

theorem switch_paging {r : Context × KernelState} (h : schedulerSwitchToNextProcess k = some r) :
    r.2.paging = pagingUsePageDirectory r.1.pageDirectoryVirtualAddr k.paging := by
  obtain ⟨next, -, -, hr⟩ := switch_cases h
  rw [hr]
  simp

end LossOs.Kernel
