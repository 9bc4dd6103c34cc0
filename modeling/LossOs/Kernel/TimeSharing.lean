/-
  Processes that share the CPU.

  `Computer` is the machine with the registers of the program that is in user mode. What an
  instruction does is a parameter, a function of the registers and of the memory of the program.
  `Computer.view` is what a process has: its registers, in the CPU or in its PCB, and its pages.
  `Solo` is a program that has the machine to itself, but that a timer interrupt leaves it with
  what `preempted` says. `runs_as_if_alone`: whatever the others do and however the scheduler goes
  round, a process computes what it computes alone from its own turns. A program with a null ds is
  never entered again: the switch to it faults, and no step leads on.
-/
import LossOs.Kernel.OwnMemory
import LossOs.Kernel.Preempt

namespace LossOs.Kernel

open LossOs.Lib
open LossOs.Lib.X86 (Reg Seg Cpu)

/-! ## Programs -/

/-- The registers that a program sees. -/
@[ext] structure UserRegs where
  reg : Reg → UInt32
  seg : Seg → UInt16
  eip : UInt32
  eflags : UInt32

def userRegs (c : Cpu) : UserRegs := ⟨c.reg, c.seg, c.eip, c.eflags⟩

/-- The pages of a program. -/
abbrev Space := Fin 1024 → Option Mem

/-- What an instruction makes of the registers, and the bytes it stores. -/
abbrev Cpu32 := UserRegs → Space → Option (UserRegs × List (UInt32 × UInt8))

/-- The registers a program is entered with. -/
def entered (ctx : Context) : UserRegs where
  reg
    | .eax => ctx.cpu.edx
    | .ecx => ctx.cpu.ecx
    | .edx => ctx.cpu.edx
    | .ebx => ctx.cpu.ebx
    | .esp => ctx.cpu.esp
    | .ebp => ctx.cpu.ebp
    | .esi => ctx.cpu.esi
    | .edi => ctx.cpu.edi
  seg s := globalDescriptorTable.returned 3 (ctx.cpu.selector s)
  eip := ctx.eip
  eflags := ctx.eflags

/-- The registers after a timer interrupt: edx is in eax, with a data segment of privilege level 0
    the kernel's stack pointer is in esp, and selectors that select no user segment are cleared. -/
def preempted (esp0 : UInt32) (u : UserRegs) : UserRegs :=
  { u with
    reg := fun
      | .eax => u.reg .edx
      | .esp => if (u.seg .ds).toUInt32 &&& 0x3 = 0 then esp0 - 44 else u.reg .esp
      | r => u.reg r
    seg := fun s => globalDescriptorTable.returned 3 (u.seg s) }

/-- A call of `process_context_switch` with `ctx` and the kernel's ds gets to user mode. -/
def EntersWith (ctx : Context) (u : UserRegs) : Prop :=
  ∃ (pd ret : UInt32) (v c : Cpu), v.seg .ds = gdtKernelDataSegmentSelector ∧
    resume ctx pd ret v = some c ∧ userRegs c = u

theorem resume_entered {ctx : Context} (h : ctx.cpu.Loadable) (pd ret : UInt32) {v : Cpu}
    (hv : v.seg .ds = gdtKernelDataSegmentSelector) :
    ∃ c, resume ctx pd ret v = some c ∧ userRegs c = entered ctx := by
  obtain ⟨c, hc, hreg, hseg, heip, heflags⟩ := resume_loads h pd ret hv
  refine ⟨c, hc, UserRegs.ext (hreg.trans (funext fun r => ?_)) hseg heip heflags⟩
  cases r <;> rfl

theorem EntersWith.regs {ctx : Context} {u : UserRegs} (h : EntersWith ctx u) :
    ctx.cpu.Loadable ∧ u = entered ctx := by
  obtain ⟨pd, ret, v, c, hv, hc, rfl⟩ := h
  have hloads : ctx.cpu.Loadable := by
    by_contra hno
    rw [resume_faults hno pd ret hv] at hc
    cases hc
  obtain ⟨c', hc', hregs⟩ := resume_entered hloads pd ret hv
  obtain rfl := Option.some.inj (hc.symm.trans hc')
  exact ⟨hloads, hregs⟩

theorem entersWith_entered {ctx : Context} (h : ctx.cpu.Loadable) :
    EntersWith ctx (entered ctx) := by
  obtain ⟨c, hc, hregs⟩ := resume_entered h 0 0 (v := kernelCpu) rfl
  exact ⟨0, 0, kernelCpu, c, rfl, hc, hregs⟩

/-- What was saved by a timer interrupt is entered as `preempted`. -/
theorem entered_saved {ctx : Context} {esp0 : UInt32} {c : Cpu}
    (hcpu : ctx.cpu = (savedContext esp0 c).cpu) (heip : ctx.eip = (savedContext esp0 c).eip)
    (heflags : ctx.eflags = (savedContext esp0 c).eflags) :
    entered ctx = preempted esp0 (userRegs c) := by
  refine UserRegs.ext (funext fun r => ?_) (funext fun s => ?_) heip heflags
  · unfold entered
    rw [hcpu]
    cases r <;> rfl
  · unfold entered
    rw [hcpu, selector_saved]
    rfl

/-- What a program may go through. -/
inductive Turn where
  | instr
  | call (u : UserRegs) (stores : List (UInt32 × UInt8))
  | preempt (esp0 : UInt32)
  | exit

/-- A program that has the machine to itself. -/
structure Solo where
  regs : UserRegs
  pages : Space

/-- Its instructions are those of the CPU; a system call gives it new registers and bytes. -/
inductive Solo.Step (x86 : Cpu32) : Solo → Turn → Solo → Prop
  | instr {s : Solo} {u : UserRegs} {stores : List (UInt32 × UInt8)} :
      x86 s.regs s.pages = some (u, stores) →
      Step x86 s .instr ⟨u, stores.foldl writeAt s.pages⟩
  | call {s : Solo} (u : UserRegs) (stores : List (UInt32 × UInt8)) :
      Step x86 s (.call u stores) ⟨u, stores.foldl writeAt s.pages⟩
  | preempt {s : Solo} (esp0 : UInt32) :
      Step x86 s (.preempt esp0) { s with regs := preempted esp0 s.regs }

/-! ## The computer -/

/-- The machine, and the registers of the program in user mode. -/
structure Computer where
  machine : Machine
  user : UserRegs

/-- Stores one after the other. -/
def Machine.stores (l : List (UInt32 × UInt8)) (m : Machine) : Option Machine :=
  l.foldlM (fun m s => m.store s.1 s.2) m

/-- What the kernel does in a system call of process `j`: nothing to memory and processes, a
    creation that does not fail in `read()`, or the end of another process. -/
inductive KernelCall (j : Fin 16) : Machine → Machine → Prop
  | other (m : Machine) : KernelCall j m m
  | create {m : Machine} (request : ProcessRequest) (out : Mem) : request.InPage →
      KernelCall j m (m.create request 0 out)
  | kill {m : Machine} (pid : UInt32) : pid.toNat < 16 → pid.toNat ≠ j.val →
      KernelCall j m { m with kernel := (processDestroy pid m.kernel).2 }

/-- The turns of the process that runs. -/
inductive Computer.Step (x86 : Cpu32) : Computer → Fin 16 × Turn → Computer → Prop
  | instr {s : Computer} {j : Fin 16} {u : UserRegs} {stores : List (UInt32 × UInt8)}
      {m : Machine} : currentRunning s.machine.kernel = some j →
      x86 s.user (s.machine.pagesOf s.machine.cr3) = some (u, stores) →
      s.machine.stores stores = some m → Step x86 s (j, .instr) ⟨m, u⟩
  | call {s : Computer} {j : Fin 16} {m m' : Machine} (u : UserRegs)
      (stores : List (UInt32 × UInt8)) : currentRunning s.machine.kernel = some j →
      KernelCall j s.machine m → m.stores stores = some m' →
      Step x86 s (j, .call u stores) ⟨m', u⟩
  | preempt {s : Computer} {j : Fin 16} {c n : Cpu} {r : Context × KernelState} {u : UserRegs}
      (esp0 : UInt32) : currentRunning s.machine.kernel = some j →
      userRegs c = s.user → timerEntry esp0 c = some n →
      schedulerSwitchToNextProcess
        (schedulerSaveContext (interruptedContext n) s.machine.kernel) = some r →
      EntersWith r.1 u → Step x86 s (j, .preempt esp0) ⟨{ s.machine with kernel := r.2 }, u⟩
  | exit {s : Computer} {j : Fin 16} {r : Context × KernelState} {u : UserRegs} :
      currentRunning s.machine.kernel = some j →
      schedulerSwitchToNextProcess
        (processDestroy (s.machine.kernel.processList j).pid s.machine.kernel).2 = some r →
      EntersWith r.1 u → Step x86 s (j, .exit) ⟨{ s.machine with kernel := r.2 }, u⟩

/-- The computer when `kernel_setup` has created the first process and switched to it. -/
inductive Computer.Starts (ram : BitVec 10 → Mem) : Computer → Prop
  | first {b : Surroundings} {request : ProcessRequest} {r : Context × KernelState}
      {u : UserRegs} (out : Mem) : request.InPage → ¬ Refused request (boot b) →
      schedulerSwitchToNextProcess ((bootMachine b ram).create request 0 out).kernel = some r →
      EntersWith r.1 u →
      Starts ram ⟨⟨r.2, ((bootMachine b ram).create request 0 out).ram⟩, u⟩

/-- The registers of process `i`, in the CPU or in its PCB, and its pages. -/
def Computer.view (s : Computer) (i : Fin 16) : Solo where
  regs := if currentRunning s.machine.kernel = some i then s.user
    else entered (s.machine.kernel.processList i).context
  pages := s.machine.pagesOf (s.machine.kernel.space i)

/-! ## The running process -/

section Running

variable {k k' : KernelState} {i j : Fin 16} {r : Context × KernelState}

theorem currentRunning_of (h : OneRunning k) (hj : k.manager.isProcessActive j = true)
    (hr : (k.processList j).processState = .running) : currentRunning k = some j := by
  cases hf : currentRunning k with
  | none =>
    have := List.find?_eq_none.mp hf j (List.mem_finRange j)
    rw [hj, hr] at this
    exact absurd rfl this
  | some i =>
    have hi := (currentRunning_some hf).2
    have : (i.val : Int) = j.val := (h i hi).symm.trans (h j hr)
    rw [Fin.ext (by omega : i.val = j.val)]

/-- What the scheduler does when it enters process `n` from state `k`. -/
structure Enters (k : KernelState) (r : Context × KernelState) (n : Fin 16) : Prop where
  active : k.manager.isProcessActive n = true
  ctx : r.1 = (k.processList n).context
  running : currentRunning r.2 = some n
  flags : r.2.manager.isProcessActive = k.manager.isProcessActive
  context : ∀ i : Fin 16, (r.2.processList i).context = (k.processList i).context
  pid : ∀ i : Fin 16, (r.2.processList i).pid = (k.processList i).pid
  paging : r.2.paging = pagingUsePageDirectory (k.space n) k.paging

theorem Enters.space {n : Fin 16} (h : Enters k r n) (i : Fin 16) : r.2.space i = k.space i :=
  congrArg Context.pageDirectoryVirtualAddr (h.context i)

theorem selectProcess_running (n : Int) (k : KernelState) :
    ((selectProcess n k).processList n).processState = .running := by
  unfold selectProcess
  dsimp only
  split_ifs with hn
  · rw [setPcb_processList (k.setPcb ..), Function.update_of_ne hn, setPcb_processList,
      Function.update_self]
  · rw [setPcb_processList, Function.update_self]

theorem switch_enters (h : OneRunning k) (hp : PidOk k)
    (hr : schedulerSwitchToNextProcess k = some r) : ∃ n, Enters k r n := by
  have hone : OneRunning r.2 := h.switched (by rw [hr]; rfl)
  obtain ⟨next, hn, hctx, hr'⟩ := switch_cases hr
  obtain ⟨n, rfl, hact⟩ := nextActive_spec hp.1 hp.2 hn
  have hlist : r.2.processList = (selectProcess n k).processList := by rw [hr']; rfl
  have hflags : r.2.manager.isProcessActive = k.manager.isProcessActive := by rw [hr']; simp
  refine ⟨n, hact, hctx, ?_, hflags, fun i => ?_, fun i => ?_, ?_⟩
  · refine currentRunning_of hone (by rw [hflags]; exact hact) ?_
    rw [hlist]
    exact selectProcess_running n k
  · obtain ⟨st, hst⟩ := selectProcess_pcb k n i
    rw [hlist, hst]
  · obtain ⟨st, hst⟩ := selectProcess_pcb k n i
    rw [hlist, hst]
  · rw [switch_paging hr, hctx]
    rfl

end Running

/-! ## Stores and system calls -/

section Calls

variable {m m' : Machine} {ram₀ : BitVec 10 → Mem} {i j : Fin 16}
  {l : List (UInt32 × UInt8)}

/-- Stores change the pages of the directory in CR3. -/
theorem stores_spec (h : m.Orderly ram₀) (hp : m.cr3.Known) (hs : m.stores l = some m') :
    m'.Orderly ram₀ ∧ m'.kernel = m.kernel ∧
      ∀ p, m'.pagesOf p = if p = m.cr3 then l.foldl writeAt (m.pagesOf p) else m.pagesOf p := by
  induction l generalizing m with
  | nil =>
    obtain rfl : m = m' := Option.some.inj hs
    exact ⟨h, rfl, fun p => by split <;> rfl⟩
  | cons a l ih =>
    obtain ⟨m₁, hm₁, hs⟩ := Option.bind_eq_some_iff.mp hs
    have hpages := h.store_pages hp hm₁
    have hkernel : m₁.kernel = m.kernel := by
      obtain ⟨-, hb⟩ := Option.ite_none_right_eq_some.mp hm₁
      rw [← Option.some.inj hb]
    have hcr3 : m₁.cr3 = m.cr3 := congrArg (fun k => k.paging.cr3) hkernel
    obtain ⟨h', hk', hp'⟩ := ih (h.step (.store hp hm₁)) (hcr3 ▸ hp) hs
    refine ⟨h', hk'.trans hkernel, fun p => ?_⟩
    rw [hp', hpages p, hcr3, storeUnder_store]
    by_cases hpc : p = m.cr3
    · rw [if_pos hpc, if_pos hpc, if_pos hpc.symm]
      rfl
    · rw [if_neg hpc, if_neg hpc, if_neg fun hc => hpc hc.symm]
      rfl

/-- Each process has a directory, and in its PCB its own number. -/
structure Seated (k : KernelState) : Prop where
  placed : ∀ i, k.manager.isProcessActive i = true → ∃ d, k.space i = .list d
  numbered : ∀ i : Fin 16, k.manager.isProcessActive i = true →
    (k.processList i).pid.toNat = i.val

/-- A process that is left has its directory and its number. -/
theorem Seated.keep {k k' : KernelState} (h : Seated k)
    (hkeep : ∀ i : Fin 16, k'.manager.isProcessActive i = true →
      k.manager.isProcessActive i = true ∧ k'.space i = k.space i ∧
      (k'.processList i).pid = (k.processList i).pid) : Seated k' := by
  refine ⟨fun i hi => ?_, fun i hi => ?_⟩
  · obtain ⟨hold, hs, -⟩ := hkeep i hi
    rw [hs]
    exact h.placed i hold
  · obtain ⟨hold, -, hp⟩ := hkeep i hi
    rw [hp]
    exact h.numbered i hold

/-- A creation that succeeds: the PCBs of the old processes are the same. -/
theorem created_old {k : KernelState} {a : Fin 16} (request : ProcessRequest)
    (ha : firstFree 0 k.manager.isProcessActive = some a) (hia : i ≠ a) :
    (created request k).manager.isProcessActive i = k.manager.isProcessActive i ∧
      (created request k).processList i = k.processList i := by
  obtain ⟨pcb, hl, -⟩ := created_pcb request ha
  have hne : (i : Int) ≠ a := fun hc => hia (Fin.ext (Int.ofNat.inj hc))
  rw [created_manager, inactiveIndex_eq ha, hl, Function.update_of_ne hne]
  exact ⟨Function.update_of_ne hia .., rfl⟩

theorem Seated.created {k : KernelState} {a : Fin 16} {d : Fin 32} (h : Seated k)
    (request : ProcessRequest) (ha : firstFree 0 k.manager.isProcessActive = some a)
    (hopen : (openSpace request.buf k.paging).1 = .list d) :
    Seated (LossOs.Kernel.created request k) := by
  obtain ⟨pcb, hl, hpid, -, hdir⟩ := created_pcb request ha
  have hnew : (LossOs.Kernel.created request k).processList a = pcb := by
    rw [hl, Function.update_self]
  refine ⟨fun i hi => ?_, fun i hi => ?_⟩ <;> by_cases hia : i = a
  · refine ⟨d, ?_⟩
    unfold KernelState.space
    rw [hia, hnew, hdir, hopen]
  · obtain ⟨hf, hp⟩ := created_old request ha hia
    unfold KernelState.space
    rw [hp]
    exact h.placed i (hf.symm.trans hi)
  · rw [hia, hnew, hpid, toNat_slot]
  · obtain ⟨hf, hp⟩ := created_old request ha hia
    rw [hp]
    exact h.numbered i (hf.symm.trans hi)

/-- What holds of the machine while process `j` runs. -/
structure Machine.RunBy (ram₀ : BitVec 10 → Mem) (j : Fin 16) (m : Machine) : Prop extends
    m.Orderly ram₀ where
  one : OneRunning m.kernel
  pidOk : PidOk m.kernel
  runs : currentRunning m.kernel = some j
  cr3 : m.cr3 = m.kernel.space j
  seated : Seated m.kernel

/-- A process that is still there has the context and the pages it had. -/
def KeepsProcess (i : Fin 16) (m m' : Machine) : Prop :=
  m.kernel.manager.isProcessActive i = true → m'.kernel.manager.isProcessActive i = true →
    (m'.kernel.processList i).context = (m.kernel.processList i).context ∧
    m'.pagesOf (m.kernel.space i) = m.pagesOf (m.kernel.space i)

theorem Machine.RunBy.active (h : m.RunBy ram₀ j) : m.kernel.manager.isProcessActive j = true :=
  (currentRunning_some h.runs).1

theorem Machine.RunBy.known (h : m.RunBy ram₀ j) : m.cr3.Known := by
  obtain ⟨d, hd⟩ := h.seated.placed j h.active
  exact Or.inr ⟨d, h.cr3.trans hd⟩

/-- A step that is no store keeps the pages of a process that keeps its directory. -/
theorem Machine.RunBy.pages {a : Act} (h : m.RunBy ram₀ j) (hs : m.Step a m')
    (ha : ∀ p, a.storeUnder p = none) (hi : m.kernel.manager.isProcessActive i = true)
    (hspace : m'.kernel.space i = m.kernel.space i) :
    m'.pagesOf (m.kernel.space i) = m.pagesOf (m.kernel.space i) := by
  obtain ⟨d, hd⟩ := h.seated.placed i hi
  have h' := h.toOrderly.step hs
  rw [hd] at hspace ⊢
  rw [hs.pages h.toSound (h.owned.of_space hd).1 (h'.owned.of_space hspace).1, ha]
  rfl

/-- A step of the machine that is no store, and leaves the context of process `i` alone. -/
theorem Machine.RunBy.spares {a : Act} (h : m.RunBy ram₀ j) (hs : m.Step a m')
    (ha : ∀ p, a.storeUnder p = none)
    (hctx : m.kernel.manager.isProcessActive i = true →
      m'.kernel.manager.isProcessActive i = true →
      (m'.kernel.processList i).context = (m.kernel.processList i).context) :
    KeepsProcess i m m' := by
  intro hi hi'
  exact ⟨hctx hi hi', h.pages hs ha hi
    (congrArg Context.pageDirectoryVirtualAddr (hctx hi hi'))⟩

/-- Process `j` kills another one. -/
theorem Machine.RunBy.kill (h : m.RunBy ram₀ j) {pid : UInt32} (hpid : pid.toNat < 16)
    (hne : pid.toNat ≠ j.val) {k' : KernelState} (hk' : (processDestroy pid m.kernel).2 = k') :
    ({ m with kernel := k' } : Machine).RunBy ram₀ j ∧
      ∀ i, KeepsProcess i m { m with kernel := k' } := by
  have hstep : m.Step (.event (.destroy pid)) { m with kernel := k' } :=
    .event nofun hpid (congrArg some hk')
  have hpcb : ∀ i : Fin 16, k'.manager.isProcessActive i = true →
      m.kernel.manager.isProcessActive i = true ∧ (k'.processList i).pid =
        (m.kernel.processList i).pid ∧
      (k'.processList i).processState = (m.kernel.processList i).processState ∧
      (k'.processList i).context = (m.kernel.processList i).context := by
    intro i hi
    rw [← hk'] at hi ⊢
    rcases processDestroy_cases pid m.kernel with ⟨-, he⟩ | ⟨-, he⟩ <;> rw [he] at hi ⊢
    · exact ⟨hi, rfl, rfl, rfl⟩
    · rw [destroyed_flags m.kernel hpid] at hi
      by_cases hip : i = ⟨pid.toNat, hpid⟩
      · rw [if_pos hip] at hi
        cases hi
      · rw [if_neg hip] at hi
        have hne' : (i : Int) ≠ pid.toNat := fun hc => hip (Fin.ext (Int.ofNat.inj hc))
        rw [destroyed_processList, Function.update_of_ne hne']
        exact ⟨hi, rfl, rfl, rfl⟩
  have hactive : k'.manager.isProcessActive j = true := by
    rw [← hk']
    rcases processDestroy_cases pid m.kernel with ⟨-, he⟩ | ⟨-, he⟩ <;> rw [he]
    · exact h.active
    · rw [destroyed_flags m.kernel hpid, if_neg fun hc => hne (congrArg Fin.val hc).symm]
      exact h.active
  obtain ⟨-, -, hst, hctx⟩ := hpcb j hactive
  have hone : OneRunning k' := hk' ▸ h.one.destroyed hpid
  refine ⟨⟨h.toOrderly.step hstep, hone, hk' ▸ h.pidOk.destroyed hpid,
    currentRunning_of hone hactive (hst.trans (currentRunning_some h.runs).2), ?_,
    h.seated.keep fun i hi => ?_⟩,
    fun i => h.spares hstep (fun _ => rfl) fun _ hi' => (hpcb i hi').2.2.2⟩
  · obtain ⟨-, -, hcr3, -, -⟩ := destroy_frames pid m.kernel
    show k'.paging.cr3 = (k'.processList j).context.pageDirectoryVirtualAddr
    rw [hctx, ← hk', hcr3]
    exact h.cr3
  · obtain ⟨hold, hp, -, hctx⟩ := hpcb i hi
    exact ⟨hold, congrArg Context.pageDirectoryVirtualAddr hctx, hp⟩

/-- Process `j` creates another one. -/
theorem Machine.RunBy.create (h : m.RunBy ram₀ j) {request : ProcessRequest} (out : Mem)
    (hin : request.InPage) : (m.create request 0 out).RunBy ram₀ j ∧
      ∀ i, KeepsProcess i m (m.create request 0 out) := by
  have hstep : m.Step (.create request 0 out) (m.create request 0 out) :=
    .create request 0 out h.known hin
  have hord := h.toOrderly.step hstep
  have hkernel := create_kernel request 0 out m
  generalize m.create request 0 out = m' at hstep hord hkernel ⊢
  rcases processCreate_cases request 0 m.kernel with ⟨hr, c, -, he⟩ | ⟨-, hc, -⟩ | ⟨hr, -, he⟩
  · rw [he] at hkernel
    replace hkernel : m'.kernel = m.kernel := hkernel
    refine ⟨⟨hord, ?_, ?_, ?_, ?_, ?_⟩, fun i => h.spares hstep (fun _ => rfl) ?_⟩
    · rw [hkernel]; exact h.one
    · rw [hkernel]; exact h.pidOk
    · rw [hkernel]; exact h.runs
    · unfold Machine.cr3; rw [hkernel]; exact h.cr3
    · rw [hkernel]; exact h.seated
    · intro _ _; rw [hkernel]
  · exact absurd rfl hc
  rw [he] at hkernel
  replace hkernel : m'.kernel = created request m.kernel := hkernel
  obtain ⟨a, ha⟩ := h.coherent.exists_slot hr
  obtain ⟨d, -, hopen, -⟩ := h.isolated.newSpace (free_of_inPage hin hr) request.buf
  have hold : ∀ i : Fin 16, m.kernel.manager.isProcessActive i = true →
      m'.kernel.manager.isProcessActive i = true ∧
        m'.kernel.processList i = m.kernel.processList i := by
    intro i hi
    have hia : i ≠ a := by
      rintro rfl
      exact Bool.false_ne_true ((firstFree_eq_some ha).2.1.symm.trans hi)
    obtain ⟨hf, hp⟩ := created_old request ha hia
    rw [hkernel]
    exact ⟨hf.trans hi, hp⟩
  obtain ⟨hactive, hpcb⟩ := hold j h.active
  have hone : OneRunning m'.kernel := by
    rw [hkernel]
    have := h.one.created h.coherent request 0
    rwa [he] at this
  refine ⟨⟨hord, hone, ?_, ?_, ?_, ?_⟩,
    fun i => h.spares hstep (fun _ => rfl) fun hi _ => by rw [(hold i hi).2]⟩
  · rw [hkernel]
    have := h.pidOk.created h.coherent request 0
    rwa [he] at this
  · refine currentRunning_of hone hactive ?_
    rw [hpcb]
    exact (currentRunning_some h.runs).2
  · unfold Machine.cr3 KernelState.space
    rw [hpcb, hkernel, created_cr3 request h.known]
    exact h.cr3
  · rw [hkernel]
    exact h.seated.created request ha hopen

theorem Machine.RunBy.call (h : m.RunBy ram₀ j) (hc : KernelCall j m m') :
    m'.RunBy ram₀ j ∧ ∀ i, KeepsProcess i m m' := by
  cases hc with
  | other => exact ⟨h, fun _ _ _ => ⟨rfl, rfl⟩⟩
  | create request out hin => exact h.create out hin
  | kill pid hpid hne => exact h.kill hpid hne rfl

/-- The scheduler enters a process. -/
theorem Machine.Orderly.entered {r : Context × KernelState} {n : Fin 16} {k : KernelState}
    (h : ({ m with kernel := r.2 } : Machine).Orderly ram₀) (hone : OneRunning k)
    (hpid : PidOk k) (hr : schedulerSwitchToNextProcess k = some r) (he : Enters k r n)
    (hseated : Seated k) :
    ({ m with kernel := r.2 } : Machine).RunBy ram₀ n := by
  have hs : (schedulerSwitchToNextProcess k).map Prod.snd = some r.2 := by rw [hr]; rfl
  refine ⟨h, hone.switched hs, hpid.switched hs, he.running, ?_,
    hseated.keep fun i hi => ⟨he.flags ▸ hi, he.space i, he.pid i⟩⟩
  obtain ⟨d, hd⟩ := hseated.placed n he.active
  show r.2.paging.cr3 = r.2.space n
  rw [he.paging, he.space, hd]
  rfl

theorem Machine.RunBy.stores (h : m.RunBy ram₀ j) (hs : m.stores l = some m') :
    m'.RunBy ram₀ j ∧ m'.kernel = m.kernel ∧
      m'.pagesOf (m.kernel.space j) = l.foldl writeAt (m.pagesOf (m.kernel.space j)) ∧
      ∀ i, i ≠ j → m.kernel.manager.isProcessActive i = true →
        m'.pagesOf (m.kernel.space i) = m.pagesOf (m.kernel.space i) := by
  obtain ⟨hord, hk, hpages⟩ := stores_spec h.toOrderly h.known hs
  refine ⟨⟨hord, ?_, ?_, ?_, ?_, ?_⟩, hk, ?_, fun i hij hi => ?_⟩
  · rw [hk]; exact h.one
  · rw [hk]; exact h.pidOk
  · rw [hk]; exact h.runs
  · unfold Machine.cr3; rw [hk]; exact h.cr3
  · rw [hk]; exact h.seated
  · rw [hpages, if_pos h.cr3.symm]
  · rw [hpages, if_neg]
    intro hc
    obtain ⟨d, hd⟩ := h.seated.placed i hi
    exact hij (h.owned.once i j d hd (h.cr3.symm.trans (hc.symm.trans hd)))

end Calls

/-! ## Turns -/

section Turns

variable {s s' : Computer} {ram₀ : BitVec 10 → Mem} {i j n : Fin 16} {t : Turn} {x86 : Cpu32}
  {m : Machine} {k : KernelState} {r : Context × KernelState}

theorem view_running (h : s.machine.RunBy ram₀ j) :
    s.view j = ⟨s.user, s.machine.pagesOf s.machine.cr3⟩ := by
  unfold Computer.view
  rw [if_pos h.runs, h.cr3]

theorem view_waiting (h : s.machine.RunBy ram₀ j) (hij : i ≠ j) :
    s.view i = ⟨entered (s.machine.kernel.processList i).context,
      s.machine.pagesOf (s.machine.kernel.space i)⟩ := by
  unfold Computer.view
  rw [if_neg]
  rw [h.runs]
  exact fun hc => hij (Option.some.inj hc).symm

/-- Whether it is entered or not, a process has the registers of its PCB. -/
theorem view_entered (he : Enters k r n) {u : UserRegs} (hu : EntersWith r.1 u) (i : Fin 16) :
    (Computer.view ⟨{ m with kernel := r.2 }, u⟩ i).regs =
      entered (k.processList i).context := by
  unfold Computer.view
  dsimp only
  rw [he.running]
  by_cases hin : n = i
  · rw [if_pos (by rw [hin]), hu.regs.2, he.ctx, hin]
  · rw [if_neg fun hc => hin (Option.some.inj hc), he.context]

/-- The timer saves the registers of the running process, and of no other. -/
theorem saved_contexts (h : m.RunBy ram₀ j) (esp0 : UInt32) (c : Cpu) (i : Fin 16) :
    entered ((schedulerSaveContext (savedContext esp0 c) m.kernel).processList i).context =
      if i = j then preempted esp0 (userRegs c) else entered (m.kernel.processList i).context := by
  by_cases hij : i = j
  · subst hij
    have hw := waits_saved h.runs (savedContext esp0 c)
    rw [if_pos rfl]
    exact entered_saved hw.cpu hw.eip hw.eflags
  · rw [if_neg hij]
    unfold schedulerSaveContext
    rw [h.runs]
    dsimp only
    have hne : (i : Int) ≠ j := fun hc => hij (Fin.ext (Int.ofNat.inj hc))
    rw [setPcb_processList, Function.update_of_ne hne]

/-- What a turn of process `j` does to it, and to the others. -/
def TakesTurn (x86 : Cpu32) (j : Fin 16) (t : Turn) (s s' : Computer) : Prop :=
  ∀ i, s.machine.kernel.manager.isProcessActive i = true →
    s'.machine.kernel.manager.isProcessActive i = true →
    if i = j then (s.view i).Step x86 t (s'.view i) else s'.view i = s.view i

theorem step_instr {u : UserRegs} {l : List (UInt32 × UInt8)} (h : s.machine.RunBy ram₀ j)
    (hx : x86 s.user (s.machine.pagesOf s.machine.cr3) = some (u, l))
    (hs : s.machine.stores l = some m) :
    m.RunBy ram₀ j ∧ TakesTurn x86 j .instr s ⟨m, u⟩ := by
  obtain ⟨h', hk, hown, hother⟩ := h.stores hs
  refine ⟨h', fun i hi _ => ?_⟩
  by_cases hij : i = j
  · subst hij
    rw [if_pos rfl, view_running h, view_running (s := ⟨m, u⟩) h']
    have hpages : m.pagesOf m.cr3 = l.foldl writeAt (s.machine.pagesOf s.machine.cr3) := by
      rw [h'.cr3, hk, hown, h.cr3]
    rw [show (⟨m, u⟩ : Computer).machine.pagesOf (⟨m, u⟩ : Computer).machine.cr3 = _ from hpages]
    exact .instr hx
  · rw [if_neg hij, view_waiting h hij, view_waiting (s := ⟨m, u⟩) h' hij]
    dsimp only
    rw [hk, hother i hij hi]

theorem step_call {u : UserRegs} {l : List (UInt32 × UInt8)} {m' : Machine}
    (h : s.machine.RunBy ram₀ j) (hc : KernelCall j s.machine m) (hs : m.stores l = some m') :
    m'.RunBy ram₀ j ∧ TakesTurn x86 j (.call u l) s ⟨m', u⟩ := by
  obtain ⟨h₁, hkeep⟩ := h.call hc
  obtain ⟨h', hk, hown, hother⟩ := h₁.stores hs
  refine ⟨h', fun i hi hi' => ?_⟩
  replace hi' : m.kernel.manager.isProcessActive i = true := hk ▸ hi'
  obtain ⟨hctx, hpages⟩ := hkeep i hi hi'
  have hspace : m.kernel.space i = s.machine.kernel.space i :=
    congrArg Context.pageDirectoryVirtualAddr hctx
  by_cases hij : i = j
  · subst hij
    rw [if_pos rfl, view_running h, view_running (s := ⟨m', u⟩) h']
    have hfold : m'.pagesOf m'.cr3 = l.foldl writeAt (s.machine.pagesOf s.machine.cr3) := by
      rw [h'.cr3, hk, hown, hspace, hpages, h.cr3]
    rw [show (⟨m', u⟩ : Computer).machine.pagesOf (⟨m', u⟩ : Computer).machine.cr3 = _ from hfold]
    exact .call u l
  · rw [if_neg hij, view_waiting h hij, view_waiting (s := ⟨m', u⟩) h' hij]
    dsimp only
    rw [hk, hother i hij hi', hctx, hspace, hpages]

/-- A process that is entered, or not, after the step to `k` and the switch from there. -/
theorem view_switched {a : Act} (h : s.machine.RunBy ram₀ j)
    (hs : s.machine.Step a { s.machine with kernel := r.2 }) (ha : ∀ p, a.storeUnder p = none)
    (he : Enters k r n) {u : UserRegs} (hu : EntersWith r.1 u)
    (hi : s.machine.kernel.manager.isProcessActive i = true)
    (hspace : k.space i = s.machine.kernel.space i) :
    Computer.view ⟨{ s.machine with kernel := r.2 }, u⟩ i =
      ⟨entered (k.processList i).context, s.machine.pagesOf (s.machine.kernel.space i)⟩ := by
  have hspace' : r.2.space i = s.machine.kernel.space i := (he.space i).trans hspace
  have hpages := h.pages hs ha hi hspace'
  have hregs := view_entered (m := s.machine) he hu i
  unfold Computer.view at hregs ⊢
  dsimp only at hregs ⊢
  rw [hregs, hspace', hpages]

theorem step_preempt (h : s.machine.RunBy ram₀ j) (esp0 : UInt32) {c : Cpu} {u : UserRegs}
    (hc : userRegs c = s.user) (hr : schedulerSwitchToNextProcess
      (schedulerSaveContext (savedContext esp0 c) s.machine.kernel) = some r)
    (hu : EntersWith r.1 u) :
    (∃ n, ({ s.machine with kernel := r.2 } : Machine).RunBy ram₀ n) ∧
      TakesTurn x86 j (.preempt esp0) s ⟨{ s.machine with kernel := r.2 }, u⟩ := by
  have hstep : s.machine.Step (.event (.tick (savedContext esp0 c)))
      { s.machine with kernel := r.2 } := .event nofun trivial (congrArg (Option.map Prod.snd) hr)
  have hsaved := saved_contexts h esp0 c
  have hpcb := schedulerSaveContext_pcb s.machine.kernel (savedContext esp0 c)
  have hflags : (schedulerSaveContext (savedContext esp0 c) s.machine.kernel).manager =
      s.machine.kernel.manager := schedulerSaveContext_manager ..
  have hone := h.one.saved (savedContext esp0 c)
  have hpid := h.pidOk.saved (savedContext esp0 c)
  generalize schedulerSaveContext (savedContext esp0 c) s.machine.kernel = k
    at hr hsaved hpcb hflags hone hpid
  obtain ⟨n, he⟩ := switch_enters hone hpid hr
  have hseated : Seated k := h.seated.keep fun i hi =>
    ⟨by rw [hflags] at hi; exact hi, (hpcb i).2, (hpcb i).1⟩
  refine ⟨⟨n, (h.toOrderly.step hstep).entered hone hpid hr he hseated⟩, fun i hi _ => ?_⟩
  · rw [view_switched h hstep (fun _ => rfl) he hu hi (hpcb i).2, hsaved, hc]
    by_cases hij : i = j
    · subst hij
      rw [if_pos rfl, if_pos rfl, view_running h, ← h.cr3]
      exact .preempt esp0
    · rw [if_neg hij, if_neg hij, view_waiting h hij]

theorem step_exit (h : s.machine.RunBy ram₀ j) {u : UserRegs}
    (hr : schedulerSwitchToNextProcess
      (processDestroy (s.machine.kernel.processList j).pid s.machine.kernel).2 = some r)
    (hu : EntersWith r.1 u) :
    (∃ n, ({ s.machine with kernel := r.2 } : Machine).RunBy ram₀ n) ∧
      TakesTurn x86 j .exit s ⟨{ s.machine with kernel := r.2 }, u⟩ := by
  have hnum := h.seated.numbered j h.active
  have hstep : s.machine.Step (.event .exit) { s.machine with kernel := r.2 } := by
    refine .event nofun trivial ?_
    show (currentRunning s.machine.kernel).bind _ = _
    rw [h.runs]
    exact congrArg (Option.map Prod.snd) hr
  have hpid16 : (s.machine.kernel.processList j).pid.toNat < 16 := by omega
  have hone := h.one.destroyed hpid16
  have hpid := h.pidOk.destroyed hpid16
  have hk : ∀ i : Fin 16, (processDestroy (s.machine.kernel.processList j).pid
      s.machine.kernel).2.manager.isProcessActive i = true → i ≠ j ∧
      s.machine.kernel.manager.isProcessActive i = true ∧
      (processDestroy (s.machine.kernel.processList j).pid s.machine.kernel).2.processList i =
        s.machine.kernel.processList i := by
    intro i hi
    have hslot : (⟨_, hpid16⟩ : Fin 16) = j := Fin.ext hnum
    rcases processDestroy_cases (s.machine.kernel.processList j).pid s.machine.kernel with
      ⟨hoff, -⟩ | ⟨-, he⟩
    · rw [isActive_of_lt hpid16, hslot, h.active] at hoff
      cases hoff
    · rw [he] at hi ⊢
      rw [destroyed_flags _ hpid16, hslot] at hi
      by_cases hij : i = j
      · rw [if_pos hij] at hi
        cases hi
      · rw [if_neg hij] at hi
        refine ⟨hij, hi, ?_⟩
        have hne : (i : Int) ≠ (s.machine.kernel.processList j).pid.toNat := fun hc =>
          hij (Fin.ext ((Int.ofNat.inj hc).trans hnum))
        rw [destroyed_processList, Function.update_of_ne hne]
  generalize (processDestroy (s.machine.kernel.processList j).pid s.machine.kernel).2 = k
    at hr hone hpid hk
  obtain ⟨n, he⟩ := switch_enters hone hpid hr
  have hseated : Seated k := h.seated.keep fun i hi => by
    obtain ⟨-, hold, hl⟩ := hk i hi
    unfold KernelState.space
    rw [hl]
    exact ⟨hold, rfl, rfl⟩
  refine ⟨⟨n, (h.toOrderly.step hstep).entered hone hpid hr he hseated⟩, fun i hi hi' => ?_⟩
  obtain ⟨hij, -, hl⟩ := hk i (he.flags ▸ hi')
  have hspace : k.space i = s.machine.kernel.space i := by
    unfold KernelState.space
    rw [hl]
  rw [if_neg hij, view_switched h hstep (fun _ => rfl) he hu hi hspace, hl,
    view_waiting h hij]

/-- Each turn is one of the running process and of nobody else. -/
theorem Computer.Step.turn (h : s.machine.RunBy ram₀ n) (hs : s.Step x86 (j, t) s') :
    (∃ n, s'.machine.RunBy ram₀ n) ∧ TakesTurn x86 j t s s' := by
  have hj : ∀ {j}, currentRunning s.machine.kernel = some j → s.machine.RunBy ram₀ j := by
    intro j hj
    rwa [Option.some.inj (h.runs.symm.trans hj)] at h
  cases hs with
  | instr hrun hx hst =>
    obtain ⟨h', ht⟩ := step_instr (hj hrun) hx hst
    exact ⟨⟨_, h'⟩, ht⟩
  | call u l hrun hc hst =>
    obtain ⟨h', ht⟩ := step_call (hj hrun) hc hst
    exact ⟨⟨_, h'⟩, ht⟩
  | @preempt _ c _ _ _ esp0 hrun hc hn hr hu =>
    obtain ⟨n, hn', -, hctx⟩ := timerEntry_saves esp0 c
    obtain rfl := Option.some.inj (hn'.symm.trans hn)
    rw [hctx] at hr
    exact step_preempt (hj hrun) esp0 hc hr hu
  | exit hrun hr hu => exact step_exit (hj hrun) hr hu

/-! ## Runs -/

theorem Computer.Starts.runBy (h : Computer.Starts ram₀ s) : ∃ n, s.machine.RunBy ram₀ n := by
  obtain ⟨out, hin, hrefused, hr, -⟩ := h
  rename_i b request r _
  have h₀ := orderly_boot b ram₀
  have h₁ := h₀.step (.create request 0 out (Or.inl rfl) hin)
  obtain ⟨d, -, hopen, -⟩ := h₀.isolated.newSpace (free_of_inPage hin hrefused) request.buf
  obtain ⟨a, ha⟩ := h₀.coherent.exists_slot hrefused
  have hkernel : ((bootMachine b ram₀).create request 0 out).kernel = created request (boot b) := by
    rw [create_kernel]
    rcases processCreate_cases request 0 (boot b) with ⟨hc, -⟩ | ⟨-, hc, -⟩ | ⟨-, -, he⟩
    · exact absurd hc hrefused
    · exact absurd rfl hc
    · exact congrArg Prod.snd he
  have hone := (oneRunning_boot b).created (coherent_boot b) request 0
  have hpid := (pidOk_boot b).created (coherent_boot b) request 0
  have hseated : Seated (created request (boot b)) :=
    Seated.created ⟨fun _ hi => (Bool.false_ne_true hi).elim,
      fun _ hi => (Bool.false_ne_true hi).elim⟩ request ha hopen
  have heq := create_kernel request 0 out (bootMachine b ram₀)
  rw [hkernel] at heq
  rw [show (bootMachine b ram₀).kernel = boot b from rfl] at heq
  rw [← heq] at hone hpid
  rw [hkernel] at hr
  obtain ⟨n, he⟩ := switch_enters hone hpid hr
  have hstep : ((bootMachine b ram₀).create request 0 out).Step (.event .switch)
      { (bootMachine b ram₀).create request 0 out with kernel := r.2 } := by
    refine .event nofun trivial ?_
    rw [hkernel]
    exact congrArg (Option.map Prod.snd) hr
  exact ⟨n, (h₁.step hstep).entered hone hpid hr he hseated⟩

theorem runBy_run {turns : List (Fin 16 × Turn)} {s₀ : Computer} (hs : Computer.Starts ram₀ s₀)
    (hrun : Execution (Computer.Step x86) s₀ turns s) : ∃ n, s.machine.RunBy ram₀ n :=
  hrun.invariant (I := fun s : Computer => ∃ n, s.machine.RunBy ram₀ n)
    (fun _ _ _ _ h hstep => (Computer.Step.turn h.choose_spec hstep).1) hs.runBy

end Turns

/-! ## Two processes -/

/-- Every instruction is `mov byte [8], 7`. -/
def movSeven : Cpu32 := fun u _ => some ({ u with eip := u.eip + 7 }, [(8, 7)])

/-- A CPU with the registers of a program. -/
def UserRegs.toCpu (u : UserRegs) : Cpu := ⟨u.reg, u.seg, 0x1b, 0x23, u.eip, u.eflags, fun _ => 0⟩

/-- The scheduler enters the next process from state `k`. -/
def Machine.switchFrom (m : Machine) (k : KernelState) : Computer :=
  let r := (schedulerSwitchToNextProcess k).getD (.zero, k)
  ⟨{ m with kernel := r.2 }, entered r.1⟩

/-- One instruction of `movSeven`. -/
def Computer.movSeven (s : Computer) : Computer :=
  ⟨(s.machine.stores [(8, 7)]).getD s.machine, { s.user with eip := s.user.eip + 7 }⟩

/-- The first process runs. -/
def firstRuns : Computer :=
  let m := (bootMachine emptyMemory fun _ _ => 0).create (sizedProgram 16) 0 fun _ => 1
  m.switchFrom m.kernel

/-- It has created another one. -/
def secondWaits : Computer :=
  ⟨firstRuns.movSeven.machine.create (sizedProgram 16) 0 fun _ => 2, firstRuns.movSeven.user⟩

/-- The timer gives the other one its turn. -/
def secondRuns : Computer :=
  secondWaits.machine.switchFrom (schedulerSaveContext
    (savedContext 0 secondWaits.user.toCpu) secondWaits.machine.kernel)

theorem firstRuns_starts : Computer.Starts (fun _ _ => 0) firstRuns :=
  .first (fun _ => 1) (show pageOffset 0 + 16 ≤ 4194304 by decide) (by decide)
    (eq_some_getD (by decide) _)
    (entersWith_entered ⟨by decide, fun s => by cases s <;> decide⟩)

theorem movSeven_step {s : Computer} {j : Fin 16}
    (hj : currentRunning s.machine.kernel = some j)
    (hs : (s.machine.stores [(8, 7)]).isSome = true) :
    Computer.Step movSeven s (j, .instr) s.movSeven := .instr hj rfl (eq_some_getD hs _)

theorem preempted_step {x86 : Cpu32} {s : Computer} {j : Fin 16} (esp0 : UInt32)
    (hj : currentRunning s.machine.kernel = some j)
    (hr : (schedulerSwitchToNextProcess (schedulerSaveContext (savedContext esp0 s.user.toCpu)
      s.machine.kernel)).isSome = true)
    (hl : ((schedulerSwitchToNextProcess (schedulerSaveContext (savedContext esp0 s.user.toCpu)
      s.machine.kernel)).getD (.zero, schedulerSaveContext (savedContext esp0 s.user.toCpu)
      s.machine.kernel)).1.cpu.Loadable) :
    Computer.Step x86 s (j, .preempt esp0) (s.machine.switchFrom
      (schedulerSaveContext (savedContext esp0 s.user.toCpu) s.machine.kernel)) := by
  obtain ⟨n, hn, -, hctx⟩ := timerEntry_saves esp0 s.user.toCpu
  refine .preempt esp0 hj rfl hn ?_ (entersWith_entered hl)
  rw [hctx]
  exact eq_some_getD hr _

end LossOs.Kernel
