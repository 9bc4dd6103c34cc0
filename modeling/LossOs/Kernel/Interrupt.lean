/-
  The way of the registers through an interrupt (`cpu/intsetup.s`, `process/context-switch.s`).

  `timerEntry` is what happens from a timer interrupt in user mode to the call of
  `main_interrupt_handler`: the CPU changes to the kernel stack, the stub and
  `call_generic_handler` push the registers. `interruptedContext` is the `Context` that the
  handler makes of what lies on the stack, `resume` the way back from a `Context` through
  `process_context_switch`, which faults on some selectors. `timerEntry_saves` and `resume_loads`
  say what both come to, `resume_faults` when there is no way back.
-/
import LossOs.Kernel.Process
import LossOs.Lib.X86

namespace LossOs.Kernel

open LossOs.Lib.X86

/-! ## Segments -/

/-- `global_descriptor_table`. Behind the descriptor of the TSS all fields are 0. -/
def globalDescriptorTable : Gdt :=
  [⟨0x0, false, 0, false⟩, ⟨0xA, true, 0x0, true⟩, ⟨0x2, true, 0x0, true⟩, ⟨0xA, true, 0x3, true⟩,
    ⟨0x2, true, 0x3, true⟩, ⟨0x9, false, 0, true⟩]

/-- `GDT_KERNEL_DATA_SEGMENT_SELECTOR`. -/
def gdtKernelDataSegmentSelector : UInt16 := 0x10

/-- A selector of user code or user data, at any privilege level. -/
def UserSelector (s : UInt16) : Prop := 0x18 ≤ s ∧ s ≤ 0x1B ∨ 0x20 ≤ s ∧ s ≤ 0x23

theorem descriptor_dpl {s : UInt16} {d : SegmentDescriptor}
    (h : globalDescriptorTable.descriptor s = some d) (hd : 3 ≤ d.dpl) : UserSelector s := by
  obtain ⟨htable, h⟩ := Option.ite_none_right_eq_some.mp h
  have hidx : s.toNat / 8 = 3 ∨ s.toNat / 8 = 4 := by
    generalize s.toNat / 8 = i at h
    match i with
    | 3 => exact Or.inl rfl
    | 4 => exact Or.inr rfl
    | 0 | 1 | 2 | 5 =>
      cases h
      exact absurd hd (by decide)
    | i + 6 => cases h
  unfold UserSelector
  simp only [UInt16.le_iff_toNat_le, UInt16.reduceToNat]
  omega

theorem UserSelector.descriptor {s : UInt16} (h : UserSelector s) :
    isNull s = false ∧ ∃ d, globalDescriptorTable.descriptor s = some d ∧ d.readable = true ∧
      d.dpl = 3 := by
  unfold UserSelector at h
  simp only [UInt16.le_iff_toNat_le, UInt16.reduceToNat] at h
  refine ⟨decide_eq_false (by omega), ?_⟩
  unfold Gdt.descriptor
  rw [if_pos (by omega)]
  have hidx : s.toNat / 8 = 3 ∨ s.toNat / 8 = 4 := by omega
  rcases hidx with hidx | hidx <;> rw [hidx] <;> exact ⟨_, rfl, by decide, rfl⟩

theorem UserSelector.loads {s : UInt16} (h : UserSelector s) :
    globalDescriptorTable.loads s = true := by
  obtain ⟨-, d, hd, hr, h3⟩ := h.descriptor
  unfold Gdt.loads
  rw [hd, Option.any_some, hr, h3, decide_eq_true (by omega)]
  simp

/-- A return to user mode leaves 0 and the selectors of user segments, and clears all others. -/
theorem returned_eq_self {s : UInt16} :
    globalDescriptorTable.returned 3 s = s ↔ s = 0 ∨ UserSelector s := by
  unfold Gdt.returned
  split_ifs with h
  · refine iff_of_true rfl (Or.inr ?_)
    obtain ⟨-, h⟩ := Bool.and_eq_true_iff.mp h
    obtain ⟨d, hd, h3⟩ := (Option.any_eq_true ..).mp h
    exact descriptor_dpl hd (of_decide_eq_true h3)
  · refine ⟨fun h0 => Or.inl h0.symm, ?_⟩
    rintro (rfl | hu)
    · rfl
    · obtain ⟨hn, d, hd, -, h3⟩ := hu.descriptor
      refine absurd ?_ h
      rw [hn, hd, Option.any_some, h3]
      rfl

/-! ## Entry -/

/-- An interrupt in user mode, through an interrupt gate: the stack of the TSS, and on it ss,
    esp, eflags, cs and eip. TF, IF, NT, RF and VM are cleared. -/
def interrupt (esp0 : UInt32) (c : Cpu) : Cpu :=
  let k := { c with ss := 0x10 }.set .esp esp0
  let k := ((((k.pushVal c.ss.toUInt32).pushVal (c.reg .esp)).pushVal c.eflags).pushVal
    c.cs.toUInt32).pushVal c.eip
  { k with cs := 0x8, eflags := c.eflags &&& ~~~0x34300 }

/-- `interrupt_handler_32`, a `no_error_code_interrupt_handler`. -/
def interruptHandler32 : List Instr := [.pushImm 0, .pushImm 32]

/-- `call_generic_handler`, up to its conditional jump. -/
def callGenericHandler : List Instr :=
  [.pushSeg .ds, .pushSeg .es, .pushSeg .fs, .pushSeg .gs, .pushad, .pushf, .push .eax,
    .load .eax .esp 52, .andImm .eax 0x3]

/-- `interprivilege_interrupt`. -/
def interprivilegeInterrupt : List Instr := [.load .eax .esp 76, .store .esp 20 .eax]

/-- `segment_register_setup`, up to the call. -/
def segmentRegisterSetup : List Instr :=
  [.movLow .eax 0x10, .movSeg .ds .eax, .movSeg .es .eax, .movSeg .fs .eax, .movSeg .gs .eax,
    .pop .eax, .popf, .mov .ebp .esp]

/-- From the interrupt to the call of `main_interrupt_handler`. -/
def timerEntry (esp0 : UInt32) (c : Cpu) : Option Cpu :=
  (run globalDescriptorTable (interruptHandler32 ++ callGenericHandler) (interrupt esp0 c)).bind
    fun k => (if k.zf then some k else run globalDescriptorTable interprivilegeInterrupt k).bind
      (run globalDescriptorTable segmentRegisterSetup)

/-- `struct CPURegister` at `a`. -/
def readCPURegister (m : UInt32 → UInt32) (a : UInt32) : CPURegister where
  edi := m a
  esi := m (a + 0x4)
  ebp := m (a + 0x8)
  esp := m (a + 0xc)
  ebx := m (a + 0x10)
  edx := m (a + 0x14)
  ecx := m (a + 0x18)
  eax := m (a + 0x1c)
  gs := m (a + 0x20)
  fs := m (a + 0x24)
  es := m (a + 0x28)
  ds := m (a + 0x2c)

/-- `ctx` in `main_interrupt_handler`, whose argument is the `struct InterruptFrame` on top of
    the stack: behind `cpu` lie int_number, error_code, eip, cs and eflags. -/
def interruptedContext (c : Cpu) : Context where
  cpu := readCPURegister c.mem (c.reg .esp)
  eip := c.mem (c.reg .esp + 0x38)
  eflags := c.mem (c.reg .esp + 0x40)
  pageDirectoryVirtualAddr := .null

/-! ## Return -/

/-- A call with a `struct Context` by value, the address of its page directory being `pd`. -/
def passContext (ctx : Context) (pd ret : UInt32) (c : Cpu) : Cpu :=
  [pd, ctx.eflags, ctx.eip, ctx.cpu.ds, ctx.cpu.es, ctx.cpu.fs, ctx.cpu.gs, ctx.cpu.eax,
    ctx.cpu.ecx, ctx.cpu.edx, ctx.cpu.ebx, ctx.cpu.esp, ctx.cpu.ebp, ctx.cpu.esi, ctx.cpu.edi,
    ret].foldl Cpu.pushVal c

/-- `process_context_switch`, up to its `iret`. -/
def processContextSwitch : List Instr :=
  [.lea .ecx .esp 0x4, .pushImm 0x23, .load .eax .ecx 0xc, .push .eax, .load .eax .ecx 0x34,
    .push .eax, .movImm .eax (0x18 ||| 0x3), .push .eax, .load .eax .ecx 0x30, .push .eax,
    .loadSeg .ds .ecx 0x2c, .loadSeg .es .ecx 0x28, .loadSeg .fs .ecx 0x24,
    .loadSeg .gs .ecx 0x20, .load .ebp .ecx 0x8, .load .edx .ecx 0x14, .load .ebx .ecx 0x10,
    .load .esi .ecx 0x4, .load .edi .ecx 0, .load .eax .ecx 0x14, .load .ecx .ecx 0x18]

/-- `iret` to user mode. A data segment register with a segment of a higher privilege, or with
    none, is cleared. -/
def iret (c : Cpu) : Cpu :=
  let a := c.reg .esp
  { c with
    seg := fun s => globalDescriptorTable.returned 3 (c.seg s)
    eip := c.mem a
    cs := (c.mem (a + 4)).toUInt16
    eflags := c.mem (a + 8)
    ss := (c.mem (a + 16)).toUInt16 }.set .esp (c.mem (a + 12))

section

variable (c : Cpu) (r : Reg) (s : Seg)

@[simp] theorem reg_iret :
    (iret c).reg r = if r = .esp then c.mem (c.reg .esp + 12) else c.reg r :=
  Function.update_apply ..

@[simp] theorem seg_iret : (iret c).seg s = globalDescriptorTable.returned 3 (c.seg s) := rfl

@[simp] theorem eip_iret : (iret c).eip = c.mem (c.reg .esp) := rfl

@[simp] theorem eflags_iret : (iret c).eflags = c.mem (c.reg .esp + 8) := rfl

end

/-- The call of `process_context_switch` by the scheduler, to the first user instruction. -/
def resume (ctx : Context) (pd ret : UInt32) (c : Cpu) : Option Cpu :=
  (run globalDescriptorTable processContextSwitch (passContext ctx pd ret c)).map iret

/-! ## What they come to -/

/-- What lies in the slot of esp: the user's, unless the privilege level in ds is 0. -/
def savedEsp (esp0 : UInt32) (c : Cpu) : UInt32 :=
  if (c.seg .ds).toUInt32 &&& 0x3 = 0 then esp0 - 44 else c.reg .esp

theorem run_callGenericHandler (esp0 : UInt32) (c : Cpu) :
    run globalDescriptorTable (interruptHandler32 ++ callGenericHandler) (interrupt esp0 c) =
      some ((interruptHandler32 ++ callGenericHandler).foldl Cpu.step (interrupt esp0 c)) := by
  rw [run_eq, if_pos]
  rfl

/-- The stub tests the privilege level in ds. -/
theorem callGenericHandler_zf (esp0 : UInt32) (c : Cpu) :
    ((interruptHandler32 ++ callGenericHandler).foldl Cpu.step (interrupt esp0 c)).zf =
      ((c.seg .ds).toUInt32 &&& 0x3 == 0) := by
  unfold callGenericHandler interruptHandler32 interrupt
  simp +decide [Cpu.step]

theorem run_segmentRegisterSetup (c : Cpu) :
    run globalDescriptorTable segmentRegisterSetup c =
      some (segmentRegisterSetup.foldl Cpu.step c) := by
  rw [run_eq, if_pos]
  unfold segmentRegisterSetup
  simp only [permitsAll, Cpu.permits, Cpu.step, reg_setSeg, reg_set, ite_true, toUInt16_movLow]
  rfl

theorem seg_segmentRegisterSetup (c : Cpu) :
    (segmentRegisterSetup.foldl Cpu.step c).seg = fun _ => gdtKernelDataSegmentSelector := by
  funext s
  cases s <;> exact toUInt16_movLow (c.reg .eax) gdtKernelDataSegmentSelector

/-- From the interrupt on nothing faults, and the segments become the kernel's. -/
theorem timerEntry_eq (esp0 : UInt32) (c : Cpu) :
    ∃ k, k = (interruptHandler32 ++ callGenericHandler).foldl Cpu.step (interrupt esp0 c) ∧
    timerEntry esp0 c = some (segmentRegisterSetup.foldl Cpu.step
      (if (c.seg .ds).toUInt32 &&& 0x3 = 0 then k
        else interprivilegeInterrupt.foldl Cpu.step k)) := by
  refine ⟨_, rfl, ?_⟩
  unfold timerEntry
  rw [run_callGenericHandler]
  dsimp only [Option.bind_some]
  rw [callGenericHandler_zf]
  by_cases h : (c.seg .ds).toUInt32 &&& 0x3 = 0
  · simp only [h, beq_self_eq_true, if_true]
    exact run_segmentRegisterSetup _
  · rw [if_neg (by simpa using h), if_neg h, run_eq, if_pos (by rfl)]
    exact run_segmentRegisterSetup _

/-- What the handler sees: every register of the user, and in the slot of esp the user's esp or the
    kernel's. -/
def savedContext (esp0 : UInt32) (c : Cpu) : Context :=
  ⟨⟨c.reg .edi, c.reg .esi, c.reg .ebp, savedEsp esp0 c, c.reg .ebx, c.reg .edx, c.reg .ecx,
    c.reg .eax, (c.seg .gs).toUInt32, (c.seg .fs).toUInt32, (c.seg .es).toUInt32,
    (c.seg .ds).toUInt32⟩, c.eip, c.eflags, .null⟩

/-- The handler is called with the kernel's segments. -/
theorem timerEntry_saves (esp0 : UInt32) (c : Cpu) :
    ∃ n, timerEntry esp0 c = some n ∧ n.seg = (fun _ => gdtKernelDataSegmentSelector) ∧
      interruptedContext n = savedContext esp0 c := by
  obtain ⟨k, hk, hn⟩ := timerEntry_eq esp0 c
  refine ⟨_, hn, seg_segmentRegisterSetup _, ?_⟩
  subst hk
  unfold interruptedContext readCPURegister savedContext savedEsp
  by_cases h : (c.seg .ds).toUInt32 &&& 0x3 = 0
  · rw [if_pos h]
    unfold segmentRegisterSetup callGenericHandler interruptHandler32 interrupt
    simp +decide [Cpu.step, Cpu.top, h]
  · rw [if_neg h]
    unfold segmentRegisterSetup interprivilegeInterrupt callGenericHandler interruptHandler32
      interrupt
    simp +decide [Cpu.step, Cpu.top, h]

/-- The selectors among the registers. -/
def CPURegister.selector (cpu : CPURegister) : Seg → UInt16
  | .ds => cpu.ds.toUInt16
  | .es => cpu.es.toUInt16
  | .fs => cpu.fs.toUInt16
  | .gs => cpu.gs.toUInt16

theorem selector_saved (esp0 : UInt32) (c : Cpu) : (savedContext esp0 c).cpu.selector = c.seg := by
  funext s
  cases s <;> exact UInt16.toUInt16_toUInt32 _

/-- `process_context_switch` can load the segment registers; es, fs and gs are read through ds. -/
structure CPURegister.Loadable (cpu : CPURegister) : Prop where
  ds : isNull (cpu.selector .ds) = false
  all : ∀ s, globalDescriptorTable.loads (cpu.selector s) = true

/-- Up to the segment registers the CPU reads through the kernel's ds, and behind them through the
    one it has loaded. -/
theorem processContextSwitch_permits (ctx : Context) (pd ret : UInt32) {v : Cpu}
    (hv : v.seg .ds = gdtKernelDataSegmentSelector) :
    permitsAll globalDescriptorTable processContextSwitch (passContext ctx pd ret v) = true ↔
      ctx.cpu.Loadable := by
  have hkernel : isNull gdtKernelDataSegmentSelector = false := by decide
  have hperm : permitsAll globalDescriptorTable processContextSwitch (passContext ctx pd ret v) =
      (globalDescriptorTable.loads ctx.cpu.ds.toUInt16 &&
        (!isNull ctx.cpu.ds.toUInt16 && globalDescriptorTable.loads ctx.cpu.es.toUInt16 &&
        (!isNull ctx.cpu.ds.toUInt16 && globalDescriptorTable.loads ctx.cpu.fs.toUInt16 &&
        (!isNull ctx.cpu.ds.toUInt16 && globalDescriptorTable.loads ctx.cpu.gs.toUInt16 &&
        !isNull ctx.cpu.ds.toUInt16)))) := by
    unfold processContextSwitch passContext
    simp +decide [permitsAll, Cpu.permits, Cpu.reads, Cpu.step, hv, hkernel]
  rw [hperm]
  simp only [Bool.and_eq_true, Bool.not_eq_true']
  constructor
  · rintro ⟨hds, ⟨hnull, hes⟩, ⟨-, hfs⟩, ⟨-, hgs⟩, -⟩
    refine ⟨hnull, fun s => ?_⟩
    cases s <;> assumption
  · intro h
    exact ⟨h.all .ds, ⟨h.ds, h.all .es⟩, ⟨h.ds, h.all .fs⟩, ⟨h.ds, h.all .gs⟩, h.ds⟩

/-- The way back loads every register from the context, except eax, which is loaded from the
    slot of edx. -/
theorem resume_loads {ctx : Context} (h : ctx.cpu.Loadable) (pd ret : UInt32) {v : Cpu}
    (hv : v.seg .ds = gdtKernelDataSegmentSelector) : ∃ u, resume ctx pd ret v = some u ∧
    u.reg = (fun
      | .eax => ctx.cpu.edx
      | .ecx => ctx.cpu.ecx
      | .edx => ctx.cpu.edx
      | .ebx => ctx.cpu.ebx
      | .esp => ctx.cpu.esp
      | .ebp => ctx.cpu.ebp
      | .esi => ctx.cpu.esi
      | .edi => ctx.cpu.edi) ∧
    u.seg = (fun s => globalDescriptorTable.returned 3 (ctx.cpu.selector s)) ∧
    u.eip = ctx.eip ∧ u.eflags = ctx.eflags := by
  unfold resume
  rw [run_eq, if_pos ((processContextSwitch_permits ctx pd ret hv).mpr h)]
  unfold processContextSwitch passContext
  refine ⟨iret _, rfl, funext fun r => ?_, funext fun s => ?_, ?_, ?_⟩
  · cases r <;> simp +decide [Cpu.step]
  · rw [seg_iret]
    cases s <;> simp +decide [Cpu.step, CPURegister.selector]
  · simp +decide [Cpu.step]
  · simp +decide [Cpu.step]

/-- Otherwise the CPU faults. -/
theorem resume_faults {ctx : Context} (h : ¬ ctx.cpu.Loadable) (pd ret : UInt32) {v : Cpu}
    (hv : v.seg .ds = gdtKernelDataSegmentSelector) : resume ctx pd ret v = none := by
  unfold resume
  rw [run_eq, if_neg fun hp => h ((processContextSwitch_permits ctx pd ret hv).mp hp)]
  rfl

end LossOs.Kernel
