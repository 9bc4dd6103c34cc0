/-
  The memory of the processes.

  `Machine` is the kernel together with the page frames. In user mode an address goes through the
  directory in CR3, as the hardware does it for pages of 4 MiB; what is not mapped for user mode
  faults. Process creation calls `read()` under the new directory, so the program goes to the
  frame behind its address there. Stores of the kernel through a pointer of the caller count as
  stores of the caller; the TLB is left out.

  `Spaces` is what a user of the system may think of: each directory has pages of its own.
-/
import LossOs.Lib.Bytes
import LossOs.Kernel.Loaded

namespace LossOs.Kernel

open LossOs.Lib

/-- The offset in a page of 4 MiB. -/
def pageOffset (virtualAddr : UInt32) : Nat := virtualAddr.toNat % 4194304

/-- A page of a page directory. -/
abbrev PageKey := PageDirPtr × Fin 1024

/-! ## The machine -/

/-- The kernel, and the bytes of each page frame. -/
structure Machine where
  kernel : KernelState
  ram : BitVec 10 → Mem

namespace Machine

def cr3 (m : Machine) : PageDirPtr := m.kernel.paging.cr3

/-- The entry that the hardware reads for an address. -/
def entry (virtualAddr : UInt32) (m : Machine) : PageDirectoryEntry :=
  m.kernel.paging.directory m.cr3 (pageIndex virtualAddr)

/-- A load in user mode; `none` is a page fault. -/
def load (virtualAddr : UInt32) (m : Machine) : Option UInt8 :=
  let e := m.entry virtualAddr
  if e.User then some (m.ram e.lowerAddress (pageOffset virtualAddr)) else none

/-- A store in user mode, which needs the write bit too. -/
def store (virtualAddr : UInt32) (b : UInt8) (m : Machine) : Option Machine :=
  let e := m.entry virtualAddr
  if e.User ∧ e.flag.writeBit = true then
    some { m with
      ram := Function.update m.ram e.lowerAddress
        (wr8 (m.ram e.lowerAddress) (pageOffset virtualAddr) b) }
  else none

/-- `process_create_user_process`, when `read()` returns `code` and leaves `out` in its buffer. -/
def create (request : ProcessRequest) (code : Int) (out : Mem) (m : Machine) : Machine :=
  let k := (processCreateUserProcess request code m.kernel).2
  if Refused request m.kernel then { m with kernel := k }
  else
    let f := (entry request.buf { m with kernel := loading request m.kernel }).lowerAddress
    ⟨k, Function.update m.ram f
      (blit (m.ram f) (pageOffset request.buf) out request.bufferSize.toNat)⟩

end Machine

/-- What happens on the machine. An access names the directory under which it is made. -/
inductive Act where
  | load (p : PageDirPtr) (virtualAddr : UInt32) (b : UInt8)
  | store (p : PageDirPtr) (virtualAddr : UInt32) (b : UInt8)
  | fault (p : PageDirPtr) (virtualAddr : UInt32)
  | create (request : ProcessRequest) (code : Int) (out : Mem)
  | event (e : Event)

/-- The buffer of a program lies in one page, as that of `exec` does. -/
def ProcessRequest.InPage (request : ProcessRequest) : Prop :=
  pageOffset request.buf + request.bufferSize.toNat ≤ 4194304

/-- The steps of the machine. Code runs only under one of the kernel's page directories. -/
inductive Machine.Step : Machine → Act → Machine → Prop
  | load {m : Machine} {va : UInt32} {b : UInt8} : m.cr3.Known → m.load va = some b →
      Step m (.load m.cr3 va b) m
  | store {m m' : Machine} {va : UInt32} {b : UInt8} : m.cr3.Known → m.store va b = some m' →
      Step m (.store m.cr3 va b) m'
  | fault {m : Machine} {va : UInt32} : m.cr3.Known → m.load va = none →
      Step m (.fault m.cr3 va) m
  | create {m : Machine} (request : ProcessRequest) (code : Int) (out : Mem) : m.cr3.Known →
      request.InPage → Step m (.create request code out) (m.create request code out)
  | event {m : Machine} {e : Event} {k : KernelState} : (∀ request code, e ≠ .create request code) →
      e.InTable → e.run m.kernel = some k → Step m (.event e) { m with kernel := k }

/-! ## Private memories -/

/-- The pages of each directory, and the directory in use. -/
structure Spaces where
  pages : PageKey → Option Mem
  current : PageDirPtr

namespace Spaces

/-- A space without its pages. -/
def close (s : Spaces) (d : PageDirPtr) : PageKey → Option Mem :=
  fun key => if key.1 = d then none else s.pages key

/-- A space that had no page gets one with the program, and maybe one for the stack; what lies in
    them besides the program is `blank`. -/
structure Opens (blank : Mem → Prop) (request : ProcessRequest) (out : Mem) (s s' : Spaces)
    (d : PageDirPtr) : Prop where
  empty : ∀ j, s.pages (d, j) = none
  others : ∀ key : PageKey, key.1 ≠ d → s'.pages key = s.pages key
  program : ∃ page, blank page ∧ s'.pages (d, pageIndex request.buf) =
    some (blit page (pageOffset request.buf) out request.bufferSize.toNat)
  stack : ∀ j, j ≠ pageIndex request.buf → s'.pages (d, j) = none ∨
    j = pageIndex 0xBFFFFFFC ∧ ∃ page, blank page ∧ s'.pages (d, j) = some page

/-- What may happen to private memories. -/
inductive Step (blank : Mem → Prop) : Spaces → Act → Spaces → Prop
  | load {s : Spaces} {va : UInt32} {page : Mem} :
      s.pages (s.current, pageIndex va) = some page →
      Step blank s (.load s.current va (page (pageOffset va))) s
  | store {s : Spaces} {va : UInt32} {b : UInt8} {page : Mem} :
      s.pages (s.current, pageIndex va) = some page →
      Step blank s (.store s.current va b) { s with
        pages := Function.update s.pages (s.current, pageIndex va)
          (some (wr8 page (pageOffset va) b)) }
  | fault {s : Spaces} {va : UInt32} : s.pages (s.current, pageIndex va) = none →
      Step blank s (.fault s.current va) s
  | refused {s : Spaces} {request : ProcessRequest} {code : Int} {out : Mem} :
      Step blank s (.create request code out) s
  | create {s s' : Spaces} {request : ProcessRequest} {code : Int} {out : Mem} {d : PageDirPtr} :
      s.Opens blank request out s' d → s'.current = (if code = 0 then s.current else d) →
      Step blank s (.create request code out) s'
  | destroy {s : Spaces} {pid : UInt32} (d : PageDirPtr) :
      Step blank s (.event (.destroy pid)) { s with pages := s.close d }
  | exit {s : Spaces} (d p : PageDirPtr) : Step blank s (.event .exit) ⟨s.close d, p⟩
  | tick {s : Spaces} {ctx : Context} (p : PageDirPtr) :
      Step blank s (.event (.tick ctx)) { s with current := p }
  | switch {s : Spaces} (p : PageDirPtr) : Step blank s (.event .switch) { s with current := p }

end Spaces

end LossOs.Kernel
