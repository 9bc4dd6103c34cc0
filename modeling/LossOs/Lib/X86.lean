/-
  Straight-line 32-bit x86 code that moves registers to and from the stack.

  Memory is taken by dwords, each at the address of its first byte: the code is to access
  dwords whose addresses differ by multiples of four, so that no two of them overlap in part.
  Of the flags only ZF is followed. Segments are flat: of a descriptor only what the CPU checks
  when a selector is loaded or used is there, and `none` is the fault it raises. A block is run by
  `simp`: the lemmas on each operation read registers and memory back, and every address that comes
  up is a register of the start less a constant (`sub_sub_lit`, `sub_add_lit`), so that two of them
  are the same if the constants are.
-/
import Mathlib.Logic.Function.Basic

namespace LossOs.Lib.X86

inductive Reg where
  | eax | ecx | edx | ebx | esp | ebp | esi | edi
  deriving DecidableEq, Repr

/-- The segment registers for data. -/
inductive Seg where
  | ds | es | fs | gs
  deriving DecidableEq, Repr

/-! ## Segments -/

/-- A segment descriptor without base and limit. -/
structure SegmentDescriptor where
  typeBit : BitVec 4
  nonSystem : Bool
  dpl : Nat
  segPresent : Bool

namespace SegmentDescriptor

/-- Data, or code that can be read. -/
def readable (d : SegmentDescriptor) : Bool :=
  d.nonSystem && d.segPresent && (!d.typeBit.getLsbD 3 || d.typeBit.getLsbD 1)

/-- Data that can be written. -/
def writable (d : SegmentDescriptor) : Bool :=
  d.nonSystem && d.segPresent && !d.typeBit.getLsbD 3 && d.typeBit.getLsbD 1

end SegmentDescriptor

/-- The global descriptor table; there is no local one. -/
abbrev Gdt := List SegmentDescriptor

/-! A selector has its privilege level in bits 0 and 1, the table in bit 2 and the index above. -/

/-- The null selector, at any privilege level. -/
def isNull (s : UInt16) : Bool := decide (s.toNat < 4)

namespace Gdt

/-- What a selector without the table bit selects. -/
def descriptor (gdt : Gdt) (s : UInt16) : Option SegmentDescriptor :=
  if s.toNat / 4 % 2 = 0 then gdt[s.toNat / 8]? else none

/-- Code of level 0 may load a data segment register with the selector: it is null, or that of a
    segment whose level is no lower than its own. Conforming code is not provided for. -/
def loads (gdt : Gdt) (s : UInt16) : Bool :=
  isNull s || (gdt.descriptor s).any fun d => d.readable && decide (s.toNat % 4 ≤ d.dpl)

/-- What is left of a selector in a data segment register on a return to level `cpl`. -/
def returned (gdt : Gdt) (cpl : Nat) (s : UInt16) : UInt16 :=
  if !isNull s && (gdt.descriptor s).any fun d => decide (cpl ≤ d.dpl) then s else 0

end Gdt

/-! ## Instructions -/

structure Cpu where
  reg : Reg → UInt32
  seg : Seg → UInt16
  cs : UInt16
  ss : UInt16
  eip : UInt32
  eflags : UInt32
  mem : UInt32 → UInt32

inductive Instr where
  | push (r : Reg)
  | pushImm (v : UInt32)
  | pushSeg (s : Seg)
  | pushad
  | pushf
  | pop (r : Reg)
  | popf
  | mov (r src : Reg)
  | movImm (r : Reg) (v : UInt32)
  | movLow (r : Reg) (v : UInt16)
  | movSeg (s : Seg) (r : Reg)
  | load (r base : Reg) (o : UInt32)
  | loadSeg (s : Seg) (base : Reg) (o : UInt32)
  | store (base : Reg) (o : UInt32) (r : Reg)
  | lea (r base : Reg) (o : UInt32)
  | andImm (r : Reg) (v : UInt32)

namespace Cpu

def set (c : Cpu) (r : Reg) (v : UInt32) : Cpu := { c with reg := Function.update c.reg r v }

def setSeg (c : Cpu) (s : Seg) (v : UInt16) : Cpu := { c with seg := Function.update c.seg s v }

def write (c : Cpu) (a v : UInt32) : Cpu := { c with mem := Function.update c.mem a v }

def pushVal (c : Cpu) (v : UInt32) : Cpu := (c.set .esp (c.reg .esp - 4)).write (c.reg .esp - 4) v

/-- The value on top of the stack is taken off. -/
def dropTop (c : Cpu) : Cpu := c.set .esp (c.reg .esp + 4)

def top (c : Cpu) : UInt32 := c.mem (c.reg .esp)

/-- The zero flag. -/
def zf (c : Cpu) : Bool := c.eflags &&& 0x40 != 0

def setZf (c : Cpu) (b : Bool) : Cpu :=
  { c with eflags := if b then c.eflags ||| 0x40 else c.eflags &&& ~~~0x40 }

/-- An address with base esp or ebp lies in the stack segment, which can be read and written, any
    other one in that of ds. -/
def reads (c : Cpu) : Reg → Bool
  | .esp | .ebp => true
  | _ => !isNull (c.seg .ds)

def writes (gdt : Gdt) (c : Cpu) : Reg → Bool
  | .esp | .ebp => true
  | _ => !isNull (c.seg .ds) && (gdt.descriptor (c.seg .ds)).any SegmentDescriptor.writable

/-- What an instruction does. A segment register is pushed with zeros above it, and loaded from the
    low half of the dword. -/
def step (c : Cpu) : Instr → Cpu
  | .push r => c.pushVal (c.reg r)
  | .pushImm v => c.pushVal v
  | .pushSeg s => c.pushVal (c.seg s).toUInt32
  | .pushad =>
      ((((((((c.pushVal (c.reg .eax)).pushVal (c.reg .ecx)).pushVal (c.reg .edx)).pushVal
        (c.reg .ebx)).pushVal (c.reg .esp)).pushVal (c.reg .ebp)).pushVal
        (c.reg .esi)).pushVal (c.reg .edi))
  | .pushf => c.pushVal c.eflags
  | .pop r => c.dropTop.set r c.top
  | .popf => { c.dropTop with eflags := c.top }
  | .mov r src => c.set r (c.reg src)
  | .movImm r v => c.set r v
  | .movLow r v => c.set r (c.reg r &&& 0xFFFF0000 ||| v.toUInt32)
  | .movSeg s r => c.setSeg s (c.reg r).toUInt16
  | .load r base o => c.set r (c.mem (c.reg base + o))
  | .loadSeg s base o => c.setSeg s (c.mem (c.reg base + o)).toUInt16
  | .store base o r => c.write (c.reg base + o) (c.reg r)
  | .lea r base o => c.set r (c.reg base + o)
  | .andImm r v => (c.set r (c.reg r &&& v)).setZf (c.reg r &&& v == 0)

/-- At privilege level 0 the segment checks let the instruction pass. -/
def permits (gdt : Gdt) (c : Cpu) : Instr → Bool
  | .movSeg _ r => gdt.loads (c.reg r).toUInt16
  | .load _ base _ => c.reads base
  | .loadSeg _ base o => c.reads base && gdt.loads (c.mem (c.reg base + o)).toUInt16
  | .store base _ _ => c.writes gdt base
  | _ => true

end Cpu

/-- One instruction, unless it faults. -/
def exec (gdt : Gdt) (c : Cpu) (i : Instr) : Option Cpu :=
  if c.permits gdt i then some (c.step i) else none

/-- A block of instructions, unless one of them faults. -/
def run (gdt : Gdt) (is : List Instr) (c : Cpu) : Option Cpu := is.foldlM (exec gdt) c

/-! ## Blocks -/

/-- None of the instructions faults. -/
def permitsAll (gdt : Gdt) : List Instr → Cpu → Bool
  | [], _ => true
  | i :: is, c => c.permits gdt i && permitsAll gdt is (c.step i)

theorem run_eq (gdt : Gdt) (is : List Instr) (c : Cpu) :
    run gdt is c = if permitsAll gdt is c then some (is.foldl Cpu.step c) else none := by
  induction is generalizing c with
  | nil => rfl
  | cons i is ih =>
    show (exec gdt c i).bind (run gdt is) = if c.permits gdt i && permitsAll gdt is (c.step i)
      then some (is.foldl Cpu.step (c.step i)) else none
    unfold exec
    cases c.permits gdt i with
    | true => simpa using ih (c.step i)
    | false => rfl

/-- What a 16-bit move leaves in the low half. -/
@[simp] theorem toUInt16_movLow (x : UInt32) (v : UInt16) :
    (x &&& 0xFFFF0000 ||| v.toUInt32).toUInt16 = v := by
  rw [UInt32.toUInt16_or, UInt32.toUInt16_and, show (0xFFFF0000 : UInt32).toUInt16 = 0 from rfl,
    UInt16.and_zero, UInt16.zero_or, UInt16.toUInt16_toUInt32]

/-! ## Reading registers and memory -/

section Reading

variable (c : Cpu) (v a x : UInt32) (r r' : Reg) (s s' : Seg) (b : Bool) (w : UInt16)

@[simp] theorem reg_set : (c.set r v).reg r' = if r' = r then v else c.reg r' :=
  Function.update_apply ..

@[simp] theorem seg_set : (c.set r v).seg = c.seg := rfl

@[simp] theorem mem_set : (c.set r v).mem = c.mem := rfl

@[simp] theorem eip_set : (c.set r v).eip = c.eip := rfl

@[simp] theorem eflags_set : (c.set r v).eflags = c.eflags := rfl

@[simp] theorem reg_setSeg : (c.setSeg s w).reg = c.reg := rfl

@[simp] theorem seg_setSeg : (c.setSeg s w).seg s' = if s' = s then w else c.seg s' :=
  Function.update_apply ..

@[simp] theorem mem_setSeg : (c.setSeg s w).mem = c.mem := rfl

@[simp] theorem eflags_setSeg : (c.setSeg s w).eflags = c.eflags := rfl

@[simp] theorem reg_write : (c.write a v).reg = c.reg := rfl

@[simp] theorem seg_write : (c.write a v).seg = c.seg := rfl

@[simp] theorem mem_write : (c.write a v).mem x = if x = a then v else c.mem x :=
  Function.update_apply ..

@[simp] theorem reg_pushVal :
    (c.pushVal v).reg r = if r = .esp then c.reg .esp - 4 else c.reg r := Function.update_apply ..

@[simp] theorem seg_pushVal : (c.pushVal v).seg = c.seg := rfl

@[simp] theorem mem_pushVal :
    (c.pushVal v).mem x = if x = c.reg .esp - 4 then v else c.mem x := Function.update_apply ..

@[simp] theorem eflags_pushVal : (c.pushVal v).eflags = c.eflags := rfl

@[simp] theorem reg_dropTop :
    c.dropTop.reg r = if r = .esp then c.reg .esp + 4 else c.reg r := Function.update_apply ..

@[simp] theorem seg_dropTop : c.dropTop.seg = c.seg := rfl

@[simp] theorem mem_dropTop : c.dropTop.mem = c.mem := rfl

@[simp] theorem reg_setZf : (c.setZf b).reg = c.reg := rfl

@[simp] theorem seg_setZf : (c.setZf b).seg = c.seg := rfl

@[simp] theorem mem_setZf : (c.setZf b).mem = c.mem := rfl

@[simp] theorem zf_setZf : (c.setZf b).zf = b := by
  have hset : ∀ x y : UInt32, (x ||| y) &&& y = y := by
    intro x y
    apply UInt32.toBitVec_inj.mp
    ext i
    simpa using fun h => Or.inr h
  have hclear : ∀ x y : UInt32, x &&& ~~~y &&& y = 0 := by
    intro x y
    apply UInt32.toBitVec_inj.mp
    ext i
    simp
  unfold Cpu.zf Cpu.setZf
  cases b with
  | true =>
    dsimp only
    rw [if_pos rfl, hset]
    rfl
  | false =>
    dsimp only
    rw [if_neg Bool.false_ne_true, hclear]
    rfl

end Reading

/-! ## Addresses -/

/-! A register less a constant: sums and differences of such addresses are again of this form,
    and two of them are the same exactly if the constants are. -/

@[simp] theorem sub_sub_lit (e a b : UInt32) : e - a - b = e - (a + b) := by
  simp only [UInt32.sub_eq_add_neg, UInt32.neg_add, UInt32.add_assoc]

@[simp] theorem sub_add_lit (e a b : UInt32) : e - a + b = e - (a - b) := by
  simp only [UInt32.sub_eq_add_neg, UInt32.neg_add, UInt32.add_assoc, UInt32.neg_neg]

end LossOs.Lib.X86
