/-
  The system calls as the shell's commands make them.

  A command is a program of system calls. It runs on a `Machine`: the file system, and the bytes
  that happen to lie in its own uninitialised buffers and on the kernel's stack at each system
  call. A result variable starts at zero and one byte is stored into it, so it is zero exactly if
  the return code is. The messages of the commands are left out.
-/
import LossOs.Ext2.Tree
import LossOs.Lib.Program

namespace LossOs.Shell

open LossOs.Lib LossOs.Ext2

/-- What a command asks for: an uninitialised local buffer, or system call 0 to 3. -/
inductive Op where
  | scratch
  | read (request : EXT2DriverRequest)
  | readDirectory (request : EXT2DriverRequest)
  | write (request : EXT2DriverRequest)
  | delete (request : EXT2DriverRequest)

/-- What it gets: the return code, and the bytes of the caller's buffer where it is filled. -/
abbrev Op.Reply : Op → Type
  | scratch => Mem
  | read _ => Int × Mem
  | readDirectory _ => Int × Mem
  | write _ => Int
  | delete _ => Int

def scratch : Program Op Op.Reply Mem := Program.perform Op.scratch

def syscall (c : Op) : Program Op Op.Reply c.Reply := Program.perform c

/-- What a command runs on. -/
structure Machine where
  fs : Fs
  user : Nat → Mem
  kernel : Nat → Mem

/-- With zeros in the buffers and on the stack. -/
def Machine.zeros (fs : Fs) : Machine := ⟨fs, fun _ _ => 0, fun _ _ => 0⟩

/-- One local buffer later. -/
def Machine.next (m : Machine) : Machine := { m with user := fun n => m.user (n + 1) }

/-- Enter the kernel. -/
def Machine.enter (m : Machine) : Machine where
  fs := m.fs.withStack (m.kernel 0)
  user := m.user
  kernel := fun n => m.kernel (n + 1)

/-- The machine answers. -/
def answer : (c : Op) → Machine → c.Reply × Machine
  | .scratch, m => (m.user 0, m.next)
  | .read request, m => (LossOs.Ext2.read request m.enter.fs, m.enter)
  | .readDirectory request, m => (readDirectory request m.enter.fs, m.enter)
  | .write request, m =>
      ((write request m.enter.fs).1, { m.enter with fs := (write request m.enter.fs).2 })
  | .delete request, m =>
      ((delete request m.enter.fs).1, { m.enter with fs := (delete request m.enter.fs).2 })

@[simp] theorem enter_disk (m : Machine) : m.enter.fs.disk = m.fs.disk := rfl

@[simp] theorem next_fs (m : Machine) : m.next.fs = m.fs := rfl

section Runs

variable {α : Type} {m : Machine}

theorem run_scratch_bind (f : Mem → Program Op Op.Reply α) :
    Program.run answer (scratch >>= f) m = Program.run answer (f (m.user 0)) m.next :=
  Program.run_perform_bind _ _ _

theorem run_syscall_bind (c : Op) (f : c.Reply → Program Op Op.Reply α) :
    Program.run answer (syscall c >>= f) m =
      Program.run answer (f (answer c m).1) (answer c m).2 := Program.run_perform_bind _ _ _

theorem always_syscall_bind {ok : Op → Machine → Prop} (c : Op)
    (f : c.Reply → Program Op Op.Reply α) :
    Program.Always answer ok (syscall c >>= f) m ↔
      ok c m ∧ Program.Always answer ok (f (answer c m).1) (answer c m).2 :=
  Program.always_perform_bind _ _ _

theorem answer_readDirectory (request : EXT2DriverRequest) :
    answer (.readDirectory request) m = (readDirectory request m.enter.fs, m.enter) := rfl

theorem answer_write_eq (request : EXT2DriverRequest) : answer (.write request) m =
    ((write request m.enter.fs).1, { m.enter with fs := (write request m.enter.fs).2 }) := rfl

theorem answer_write_fs (request : EXT2DriverRequest) :
    (answer (.write request) m).2.fs = (write request m.enter.fs).2 := rfl

theorem enter_tree (ht : Tree m.fs) : Tree m.enter.fs := ht.withStack _

/-- The listing of a directory. -/
theorem answer_list {p : Nat} (ht : Tree m.fs) (hp : IsDirectory m.fs.disk p) (buf : Mem) :
    answer (.readDirectory (listRequest p buf)) m = ((0, listed m.enter.fs buf p), m.enter) := by
  rw [answer_readDirectory, (enter_tree ht).readDirectory_eq hp buf]

end Runs

end LossOs.Shell
