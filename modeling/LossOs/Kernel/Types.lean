/-
  The data of the kernel's memory and process management (`memory/paging.h`,
  `process/process.h`, `cpu/interrupt.h`).

  The macros of the headers, as they expand: `PAGE_FRAME_SIZE` 2^22, `PAGE_FRAME_MAX_COUNT`
  (128 << 20) / 2^22 = 32, `PAGE_ENTRY_COUNT` 1024, `PAGING_DIRECTORY_TABLE_MAX_COUNT` 32,
  `PROCESS_COUNT_MAX` 16, `PROCESS_PAGE_FRAME_COUNT_MAX` 8, `KERNEL_VIRTUAL_ADDRESS_BASE`
  0xC0000000, `NO_RUNNING_PROCESS` -1.

  An entry of a page directory is what the kernel sets of it: the flag byte and the ten bits of
  `lower_address` (the other fields are zero from the start and nothing reads them).
-/
import Mathlib.Logic.Function.Basic
import Mathlib.Data.Fintype.Card
import Mathlib.Algebra.GroupWithZero.Nat

namespace LossOs.Kernel

/-! ## Page directories -/

/-- `struct PageDirectoryEntryFlag`. -/
structure PageDirectoryEntryFlag where
  presentBit : Bool
  writeBit : Bool
  userSupervisor : Bool
  pwt : Bool
  pcd : Bool
  accessed : Bool
  dirty : Bool
  usePagesize4Mb : Bool
  deriving DecidableEq, Repr

def PageDirectoryEntryFlag.zero : PageDirectoryEntryFlag :=
  ⟨false, false, false, false, false, false, false, false⟩

/-- `struct PageDirectoryEntry`; `lowerAddress` is the number of a page frame. -/
structure PageDirectoryEntry where
  flag : PageDirectoryEntryFlag
  lowerAddress : BitVec 10
  deriving DecidableEq, Repr

def PageDirectoryEntry.zero : PageDirectoryEntry := ⟨.zero, 0⟩

/-- Mapped, and open to user mode. -/
def PageDirectoryEntry.User (e : PageDirectoryEntry) : Prop :=
  e.flag.presentBit = true ∧ e.flag.userSupervisor = true

instance (e : PageDirectoryEntry) : Decidable e.User := by
  unfold PageDirectoryEntry.User; infer_instance

/-- `PAGE_ENTRY_COUNT` is not 0, so its directories have entries with the numbers of literals. -/
instance pageEntryCount_neZero : NeZero 1024 := ⟨by decide⟩

/-- `struct PageDirectory`. -/
abbrev PageDirectory := Fin 1024 → PageDirectoryEntry

/-- `struct PageDirectory *`: the kernel's own directory, an element of `page_directory_list`,
    or any other address. -/
inductive PageDirPtr where
  | kernel
  | list (i : Fin 32)
  | addr (a : UInt32)
  deriving DecidableEq, Repr

def PageDirPtr.null : PageDirPtr := .addr 0

/-- `PageManagerState`, the page directories with their flags, and the register CR3.

    `directory p` is what lies at `p`: for an address that is none of the directories, the
    memory there, read as one. CR3 holds a physical address; it is named by the directory that
    lies there. -/
structure Paging where
  pageFrameMap : Fin 32 → Bool
  freePageFrameCount : UInt32
  directory : PageDirPtr → PageDirectory
  pageDirectoryUsed : Fin 32 → Bool
  cr3 : PageDirPtr

/-! ## Processes -/

/-- `struct CPURegister`, field by field from offset 0. -/
structure CPURegister where
  edi : UInt32
  esi : UInt32
  ebp : UInt32
  esp : UInt32
  ebx : UInt32
  edx : UInt32
  ecx : UInt32
  eax : UInt32
  gs : UInt32
  fs : UInt32
  es : UInt32
  ds : UInt32
  deriving DecidableEq, Repr

def CPURegister.zero : CPURegister := ⟨0, 0, 0, 0, 0, 0, 0, 0, 0, 0, 0, 0⟩

/-- `struct Context`. -/
structure Context where
  cpu : CPURegister
  eip : UInt32
  eflags : UInt32
  pageDirectoryVirtualAddr : PageDirPtr
  deriving DecidableEq, Repr

def Context.zero : Context := ⟨.zero, 0, 0, .null⟩

/-- `PROCESS_STATE`. -/
inductive ProcessState where
  | ready
  | running
  | block
  deriving DecidableEq, Repr

/-- `struct ProcessControlBlock` (`data_virtual_addr_used` and `page_frame_used_count` are
    never set and never read). -/
structure ProcessControlBlock where
  pid : UInt32
  name : Fin 32 → UInt8
  processState : ProcessState
  context : Context
  virtualAddrUsed : Fin 8 → UInt32

/-- What `memset(pcb, 0, sizeof(*pcb))` leaves. -/
def ProcessControlBlock.zero : ProcessControlBlock :=
  ⟨0, fun _ => 0, .ready, .zero, fun _ => 0⟩

/-- `struct ProcessManagerState`. -/
structure ProcessManagerState where
  isProcessActive : Fin 16 → Bool
  activeProcessCount : UInt32
  currentRunningPid : UInt32

/-- The kernel state. `processList` is `_process_list`, and around its 16 elements what the C
    expression `_process_list[i]` denotes there; `behind o` is the byte at offset `o` from
    `process_manager_state`, past its 24 bytes, as a truth value. Nothing else of the state is
    taken to lie in these places. -/
structure KernelState where
  paging : Paging
  manager : ProcessManagerState
  processList : Int → ProcessControlBlock
  behind : UInt32 → Bool

/-- The fields of `struct EXT2DriverRequest` that process creation itself uses; the string
    `name` is the memory behind the pointer. `read()` gets the whole request. -/
structure ProcessRequest where
  buf : UInt32
  name : Nat → UInt8
  bufferSize : UInt32

end LossOs.Kernel
