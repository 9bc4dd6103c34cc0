/-
  Programs over a buffer that keep a record of what they touch.

  An `Access` is run on a buffer and gives a value, the buffer afterwards, the offsets of the bytes
  it has read or written, and the number of rounds it has counted. `Bounded N k p` says that `p`
  stays below offset `N` and counts at most `k` rounds, whatever the buffer holds; `Reads p f` says
  that `p` only reads, and computes `f` of the buffer. Both are proved along the program
  (`Bounded.bind`, `Reads.bind`).
-/
import LossOs.Lib.Bytes

namespace LossOs.Lib

/-- What a program leaves behind. -/
structure Trace (α : Type) where
  value : α
  mem : Mem
  touched : List Nat
  rounds : Nat

structure Access (α : Type) where
  run : Mem → Trace α

namespace Access

instance : Monad Access where
  pure a := ⟨fun m => ⟨a, m, [], 0⟩⟩
  bind p f := ⟨fun m =>
    let r := p.run m
    let s := (f r.value).run r.mem
    ⟨s.value, s.mem, r.touched ++ s.touched, r.rounds + s.rounds⟩⟩

def load8 (o : Nat) : Access UInt8 := ⟨fun m => ⟨m o, m, [o], 0⟩⟩

def load16 (o : Nat) : Access Nat := ⟨fun m => ⟨rd16 m o, m, List.range' o 2, 0⟩⟩

def load32 (o : Nat) : Access Nat := ⟨fun m => ⟨rd32 m o, m, List.range' o 4, 0⟩⟩

def store8 (o : Nat) (v : UInt8) : Access Unit := ⟨fun m => ⟨(), wr8 m o v, [o], 0⟩⟩

def store16 (o v : Nat) : Access Unit := ⟨fun m => ⟨(), wr16 m o v, List.range' o 2, 0⟩⟩

def store32 (o v : Nat) : Access Unit := ⟨fun m => ⟨(), wr32 m o v, List.range' o 4, 0⟩⟩

/-- Copy `n` bytes from outside of the buffer to offset `o`. -/
def copy (o : Nat) (src : Mem) (n : Nat) : Access Unit :=
  ⟨fun m => ⟨(), blit m o src n, List.range' o n, 0⟩⟩

/-- Count a round of a loop. -/
def round : Access Unit := ⟨fun m => ⟨(), m, [], 1⟩⟩

/-! ## Runs -/

section Runs

variable {α β : Type} (a : α) (p : Access α) (f : α → Access β) (m : Mem) (o v : Nat)

@[simp] theorem pure_value : ((pure a : Access α).run m).value = a := rfl

@[simp] theorem pure_mem : ((pure a : Access α).run m).mem = m := rfl

@[simp] theorem bind_value :
    ((p >>= f).run m).value = ((f (p.run m).value).run (p.run m).mem).value := rfl

@[simp] theorem bind_mem :
    ((p >>= f).run m).mem = ((f (p.run m).value).run (p.run m).mem).mem := rfl

theorem bind_touched : ((p >>= f).run m).touched =
    (p.run m).touched ++ ((f (p.run m).value).run (p.run m).mem).touched := rfl

theorem bind_rounds : ((p >>= f).run m).rounds =
    (p.run m).rounds + ((f (p.run m).value).run (p.run m).mem).rounds := rfl

@[simp] theorem load8_value : ((load8 o).run m).value = m o := rfl

@[simp] theorem load8_mem : ((load8 o).run m).mem = m := rfl

@[simp] theorem load16_value : ((load16 o).run m).value = rd16 m o := rfl

@[simp] theorem load16_mem : ((load16 o).run m).mem = m := rfl

@[simp] theorem load32_value : ((load32 o).run m).value = rd32 m o := rfl

@[simp] theorem load32_mem : ((load32 o).run m).mem = m := rfl

@[simp] theorem store8_mem (v : UInt8) : ((store8 o v).run m).mem = wr8 m o v := rfl

@[simp] theorem store16_mem : ((store16 o v).run m).mem = wr16 m o v := rfl

@[simp] theorem store32_mem : ((store32 o v).run m).mem = wr32 m o v := rfl

@[simp] theorem copy_mem (src : Mem) (n : Nat) : ((copy o src n).run m).mem = blit m o src n := rfl

@[simp] theorem round_mem : (round.run m).mem = m := rfl

end Runs

/-! ## Bounds -/

/-- On every buffer, `p` touches offsets below `N` only and counts at most `k` rounds. -/
structure Bounded (N k : Nat) {α : Type} (p : Access α) : Prop where
  touched : ∀ m, ∀ o ∈ (p.run m).touched, o < N
  rounds : ∀ m, (p.run m).rounds ≤ k

section Bounded

variable {α β : Type} {N j k o n : Nat} {p : Access α} {f : α → Access β}

theorem Bounded.pure (N k : Nat) (a : α) : Bounded N k (Pure.pure a : Access α) :=
  ⟨fun _ _ ho => absurd ho List.not_mem_nil, fun _ => Nat.zero_le k⟩

theorem Bounded.bind (hp : Bounded N j p) (hf : ∀ a, Bounded N k (f a)) :
    Bounded N (j + k) (p >>= f) := by
  refine ⟨fun m o ho => ?_, fun m => ?_⟩
  · rw [bind_touched] at ho
    rcases List.mem_append.mp ho with ho | ho
    · exact hp.touched m o ho
    · exact (hf _).touched _ o ho
  · rw [bind_rounds]
    exact Nat.add_le_add (hp.rounds m) ((hf _).rounds _)

/-- A step that counts no round, in front of others. -/
theorem Bounded.step (hp : Bounded N 0 p) (hf : ∀ a, Bounded N k (f a)) :
    Bounded N k (p >>= f) := by
  have h := hp.bind hf
  rwa [Nat.zero_add] at h

theorem Bounded.mono (h : Bounded N j p) (hjk : j ≤ k) : Bounded N k p :=
  ⟨h.touched, fun m => (h.rounds m).trans hjk⟩

theorem Bounded.dite {c : Prop} [Decidable c] {p : c → Access α} {q : ¬ c → Access α}
    (hp : ∀ h, Bounded N k (p h)) (hq : ∀ h, Bounded N k (q h)) :
    Bounded N k (if h : c then p h else q h) := by
  by_cases h : c
  · rw [dif_pos h]
    exact hp h
  · rw [dif_neg h]
    exact hq h

theorem Bounded.ite {c : Prop} [Decidable c] {p q : Access α} (hp : c → Bounded N k p)
    (hq : ¬ c → Bounded N k q) : Bounded N k (if c then p else q) := by
  by_cases h : c
  · rw [if_pos h]
    exact hp h
  · rw [if_neg h]
    exact hq h

theorem bounded_range (h : o + n ≤ N) : ∀ p ∈ List.range' o n, p < N := by
  intro p hp
  have := List.mem_range'_1.mp hp
  omega

theorem bounded_load8 (h : o < N) : Bounded N 0 (load8 o) :=
  ⟨fun _ p hp => by rwa [List.mem_singleton.mp hp], fun _ => le_rfl⟩

theorem bounded_load16 (h : o + 2 ≤ N) : Bounded N 0 (load16 o) :=
  ⟨fun _ => bounded_range h, fun _ => le_rfl⟩

theorem bounded_load32 (h : o + 4 ≤ N) : Bounded N 0 (load32 o) :=
  ⟨fun _ => bounded_range h, fun _ => le_rfl⟩

theorem bounded_store8 (h : o < N) (v : UInt8) : Bounded N 0 (store8 o v) :=
  ⟨fun _ p hp => by rwa [List.mem_singleton.mp hp], fun _ => le_rfl⟩

theorem bounded_store16 (h : o + 2 ≤ N) (v : Nat) : Bounded N 0 (store16 o v) :=
  ⟨fun _ => bounded_range h, fun _ => le_rfl⟩

theorem bounded_store32 (h : o + 4 ≤ N) (v : Nat) : Bounded N 0 (store32 o v) :=
  ⟨fun _ => bounded_range h, fun _ => le_rfl⟩

theorem bounded_copy (h : o + n ≤ N) (src : Mem) : Bounded N 0 (copy o src n) :=
  ⟨fun _ => bounded_range h, fun _ => le_rfl⟩

theorem bounded_round : Bounded N 1 round :=
  ⟨fun _ _ ho => absurd ho List.not_mem_nil, fun _ => le_rfl⟩

end Bounded

/-! ## Programs that only read -/

/-- `p` leaves the buffer as it is, and computes `f` of it. -/
structure Reads {α : Type} (p : Access α) (f : Mem → α) : Prop where
  value : ∀ m, (p.run m).value = f m
  mem : ∀ m, (p.run m).mem = m

section Reads

variable {α β : Type} {p : Access α} {f : Mem → α} {q : α → Access β} {g : α → Mem → β} {o : Nat}

theorem Reads.pure (a : α) :
    Reads (Pure.pure a : Access α) fun _ => a := ⟨fun _ => rfl, fun _ => rfl⟩

theorem Reads.bind (hp : Reads p f) (hq : ∀ a, Reads (q a) (g a)) :
    Reads (p >>= q) fun m => g (f m) m := by
  refine ⟨fun m => ?_, fun m => ?_⟩
  · rw [bind_value, hp.mem, (hq _).value, hp.value]
  · rw [bind_mem, (hq _).mem, hp.mem]

theorem Reads.congr {f' : Mem → α} (hp : Reads p f) (h : ∀ m, f m = f' m) : Reads p f' :=
  ⟨fun m => (hp.value m).trans (h m), hp.mem⟩

theorem Reads.dite {c : Prop} [Decidable c] {p : c → Access α} {q : ¬ c → Access α}
    {f : c → Mem → α} {g : ¬ c → Mem → α} (hp : ∀ h, Reads (p h) (f h))
    (hq : ∀ h, Reads (q h) (g h)) :
    Reads (if h : c then p h else q h) fun m => if h : c then f h m else g h m := by
  by_cases h : c
  · simp only [dif_pos h]
    exact hp h
  · simp only [dif_neg h]
    exact hq h

theorem Reads.ite {c : Prop} [Decidable c] {p q : Access α} {f g : Mem → α} (hp : Reads p f)
    (hq : Reads q g) : Reads (if c then p else q) fun m => if c then f m else g m := by
  by_cases h : c
  · simp only [if_pos h]
    exact hp
  · simp only [if_neg h]
    exact hq

theorem reads_load8 : Reads (load8 o) fun m => m o := ⟨fun _ => rfl, fun _ => rfl⟩

theorem reads_load16 : Reads (load16 o) fun m => rd16 m o := ⟨fun _ => rfl, fun _ => rfl⟩

theorem reads_load32 : Reads (load32 o) fun m => rd32 m o := ⟨fun _ => rfl, fun _ => rfl⟩

theorem reads_round : Reads round fun _ => () := ⟨fun _ => rfl, fun _ => rfl⟩

end Reads

end Access

end LossOs.Lib
