/-
  What the file system is for: a store of files under names.

  `FileStore` is the store as its users see it. Under each name of a directory lies a stack of
  items, since `write` may put a second entry of a name in front of the first one; `read` sees the
  top (`Answers`), `write` puts one item on it and `delete` takes one away (`Serves`). Blocks,
  inode tables and records do not occur here.
-/
import LossOs.Lib.NameStore
import LossOs.Lib.Simulation
import LossOs.Ext2.Runs

namespace LossOs.Ext2

open LossOs.Lib

/-- Directories by their inode numbers, names as bytes. -/
abbrev FileStore := Store Nat (List UInt8) UInt8

namespace FileStore

/-- The items under the name of the request. -/
def named (s : FileStore) (request : EXT2DriverRequest) : List (Item Nat UInt8) :=
  s.items request.parentInode.toNat (requestName request)

/-- The items of a directory that has just been made. -/
def dots (i parent : Nat) : List UInt8 → List (Item Nat UInt8) := fun n =>
  if n = [46] then [.dir i] else if n = [46, 46] then [.dir parent] else []

/-- What `read` may return: the code, and the caller's buffer afterwards. -/
inductive Answers (s : FileStore) (rd : EXT2DriverRequest) : Int × Mem → Prop
  | notDir : ¬ s.dir rd.parentInode.toNat → Answers s rd (-1, rd.buf)
  | absent : s.dir rd.parentInode.toNat → s.named rd = [] → Answers s rd (2, rd.buf)
  | directory {i l} : s.dir rd.parentInode.toNat → s.named rd = .dir i :: l →
      Answers s rd (1, rd.buf)
  | tooLarge {size bs l} : s.dir rd.parentInode.toNat → s.named rd = .file size bs :: l →
      rd.bufferSize.toNat < size → Answers s rd (-1, rd.buf)
  | found {size bs l} : s.dir rd.parentInode.toNat → s.named rd = .file size bs :: l →
      size ≤ rd.bufferSize.toNat → Answers s rd (0, fun k => bs.getD k (rd.buf k))

/-- The store with a new file of which the first `k` bytes are kept. -/
def addFile (s : FileStore) (request : EXT2DriverRequest) (k : Nat) : FileStore :=
  s.push request.parentInode.toNat (requestName request)
    (.file request.bufferSize.toNat (bytes request.buf 0 k))

/-- The store with a new directory, of number `i`. -/
def addDir (s : FileStore) (request : EXT2DriverRequest) (i : Nat) : FileStore :=
  (s.push request.parentInode.toNat (requestName request) (.dir i)).openDir i
    (dots i request.parentInode.toNat)

/-- The store without the item that the request names. -/
def unlink (s : FileStore) (request : EXT2DriverRequest) : FileStore :=
  s.pop request.parentInode.toNat (requestName request)

/-- What a call may return, and what it makes of the store. -/
inductive Serves (s : FileStore) : Call → Int → FileStore → Prop
  | noParent {r} : ¬ s.dir r.parentInode.toNat → Serves s (.write r) 2 s
  | taken {r} : s.dir r.parentInode.toNat → s.named r ≠ [] → Serves s (.write r) 1 s
  | full {r} : s.dir r.parentInode.toNat → Serves s (.write r) (-1) s
  | file {r} (k : Nat) : s.dir r.parentInode.toNat → requestName r ≠ [46] →
      requestName r ≠ [46, 46] → isDirRequest r = false → k ≤ r.bufferSize.toNat →
      Serves s (.write r) 0 (s.addFile r k)
  | dir {r} (i : Nat) : s.dir r.parentInode.toNat → requestName r ≠ [46] →
      requestName r ≠ [46, 46] → isDirRequest r = true → ¬ s.dir i →
      Serves s (.write r) 0 (s.addDir r i)
  | nowhere {r} : ¬ s.dir r.parentInode.toNat → Serves s (.delete r) (-1) s
  | absent {r} : s.dir r.parentInode.toNat → s.named r = [] → Serves s (.delete r) 1 s
  | notFile {r i l} : s.dir r.parentInode.toNat → s.named r = .dir i :: l →
      r.isDirectory = false → Serves s (.delete r) 1 s
  | notDir {r size bs l} : s.dir r.parentInode.toNat → s.named r = .file size bs :: l →
      r.isDirectory = true → Serves s (.delete r) 1 s
  | notEmpty {r i l} : s.dir r.parentInode.toNat → s.named r = .dir i :: l →
      r.isDirectory = true → Serves s (.delete r) 2 s
  | unlinked {r size bs l} : s.dir r.parentInode.toNat → s.named r = .file size bs :: l →
      r.isDirectory = false → Serves s (.delete r) 0 (s.unlink r)
  | removed {r i l} : s.dir r.parentInode.toNat → s.named r = .dir i :: l →
      i ≠ r.parentInode.toNat → r.isDirectory = true →
      Serves s (.delete r) 0 ((s.unlink r).closeDir i)

end FileStore

/-- What happens to a file system: a call, with the code it returns, or a restart. -/
inductive Event
  | call (c : Call) (code : Int)
  | reboot

/-- A restart changes nothing in the store. -/
inductive FileStore.Step : FileStore → Event → FileStore → Prop
  | call {s s' : FileStore} {c : Call} {code : Int} : s.Serves c code s' →
      Step s (.call c code) s'
  | reboot (s : FileStore) : Step s .reboot s

/-- The store of a fresh file system: the root, which is its own parent. -/
def rootStore : FileStore where
  dir p := p = 1
  items p n := if p = 1 then FileStore.dots 1 1 n else []

/-! ## Sizes -/

/-- No file has more bytes than its size says. -/
def FileStore.Sized (s : FileStore) : Prop :=
  ∀ p n size bs, .file size bs ∈ s.items p n → bs.length ≤ size

section Sizes

variable {s s' : FileStore} {p : Nat} {n : List UInt8} {e : Event}

theorem FileStore.Sized.pop (h : s.Sized) : FileStore.Sized (Store.pop s p n) := by
  intro q m size bs hmem
  rw [Store.pop_items] at hmem
  split at hmem
  · exact h p n size bs (List.mem_of_mem_tail hmem)
  · exact h q m size bs hmem

theorem FileStore.Sized.push {x : Item Nat UInt8} (h : s.Sized)
    (hx : ∀ size bs, x = .file size bs → bs.length ≤ size) :
    FileStore.Sized (Store.push s p n x) := by
  intro q m size bs hmem
  rw [Store.push_items] at hmem
  split at hmem
  · rcases List.mem_cons.mp hmem with hc | hc
    · exact hx size bs hc.symm
    · exact h p n size bs hc
  · exact h q m size bs hmem

theorem FileStore.not_file_dots {i parent size : Nat} {bs : List UInt8} :
    .file size bs ∉ FileStore.dots i parent n := by
  unfold FileStore.dots
  split
  · simp
  · split <;> simp

theorem FileStore.Step.sized (h : s.Sized) (hs : s.Step e s') : s'.Sized := by
  cases hs with
  | reboot => exact h
  | call hc =>
    cases hc with
    | file k _ _ _ _ hk =>
      refine h.push fun size bs he => ?_
      cases he
      rw [length_bytes]
      exact hk
    | @dir r i =>
      have hpush : FileStore.Sized (s.push r.parentInode.toNat (requestName r) (.dir i)) :=
        h.push fun _ _ hc => (nomatch hc)
      intro q m size bs hmem
      rw [show s.addDir r i = Store.openDir _ i _ from rfl, Store.openDir_items] at hmem
      split at hmem
      · exact absurd hmem FileStore.not_file_dots
      · exact hpush q m size bs hmem
    | unlinked => exact h.pop
    | removed =>
      intro q m size bs hmem
      rw [Store.closeDir_items] at hmem
      split at hmem
      · cases hmem
      · exact h.pop q m size bs hmem
    | _ => exact h

theorem rootStore_sized : rootStore.Sized := by
  intro p n size bs hmem
  unfold rootStore at hmem
  dsimp only at hmem
  split at hmem
  · exact absurd hmem FileStore.not_file_dots
  · cases hmem

end Sizes

end LossOs.Ext2
