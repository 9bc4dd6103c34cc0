/-
  Byte memories and the little-endian fields in them.

  A memory is what a pointer shows: byte `o` is the one at offset `o`. A field read
  depends on its own bytes only (`rd16_congr`, `rd32_congr`), a field write changes its
  own bytes only (`wr16_of_not_mem`, `wr32_of_not_mem`), and reading back a field gives
  the value that was written, cut to the width of the field (`rd16_wr16`, `rd32_wr32`).
-/
import Mathlib.Logic.Function.Basic
import Mathlib.Data.List.Basic
import Mathlib.Tactic.Ring

namespace LossOs.Lib

/-- A memory seen from some address on. -/
abbrev Mem := Nat → UInt8

/-- The memory seen from address `base`. -/
def view (m : Mem) (base : Nat) : Mem := fun o => m (base + o)

/-- The 16-bit little-endian field at `o`. -/
def rd16 (m : Mem) (o : Nat) : Nat := (m o).toNat + 256 * (m (o + 1)).toNat

/-- The 32-bit little-endian field at `o`. -/
def rd32 (m : Mem) (o : Nat) : Nat :=
  (m o).toNat + 256 * (m (o + 1)).toNat + 65536 * (m (o + 2)).toNat +
    16777216 * (m (o + 3)).toNat

def wr8 (m : Mem) (o : Nat) (v : UInt8) : Mem := fun p => if p = o then v else m p

/-- Store the low 16 bits of `v` at `o`, low byte first. -/
def wr16 (m : Mem) (o v : Nat) : Mem := fun p =>
  if p = o then UInt8.ofNat v else if p = o + 1 then UInt8.ofNat (v / 256) else m p

/-- Store the low 32 bits of `v` at `o`, low byte first. -/
def wr32 (m : Mem) (o v : Nat) : Mem := fun p =>
  if p = o then UInt8.ofNat v
  else if p = o + 1 then UInt8.ofNat (v / 256)
  else if p = o + 2 then UInt8.ofNat (v / 65536)
  else if p = o + 3 then UInt8.ofNat (v / 16777216)
  else m p

/-- `n` bytes of `src` laid over `m` from `o` on. -/
def blit (m : Mem) (o : Nat) (src : Mem) (n : Nat) : Mem := fun p =>
  if o ≤ p ∧ p < o + n then src (p - o) else m p

/-- `n` copies of `v` laid over `m` from `o` on. -/
def fill (m : Mem) (o : Nat) (v : UInt8) (n : Nat) : Mem := blit m o (fun _ => v) n

/-- The `n` bytes from `o` on. -/
def bytes (m : Mem) (o n : Nat) : List UInt8 := (List.range n).map fun i => m (o + i)

/-! ## Views -/

@[simp] theorem view_apply (m : Mem) (base o : Nat) : view m base o = m (base + o) := rfl

theorem rd16_view (m : Mem) (base o : Nat) : rd16 (view m base) o = rd16 m (base + o) := rfl

theorem rd32_view (m : Mem) (base o : Nat) : rd32 (view m base) o = rd32 m (base + o) := rfl

/-! ## Fields -/

theorem rd16_congr {m m' : Mem} {o : Nat} (h : ∀ p, o ≤ p → p < o + 2 → m p = m' p) :
    rd16 m o = rd16 m' o := by
  unfold rd16
  rw [h o (by omega) (by omega), h (o + 1) (by omega) (by omega)]

theorem rd32_congr {m m' : Mem} {o : Nat} (h : ∀ p, o ≤ p → p < o + 4 → m p = m' p) :
    rd32 m o = rd32 m' o := by
  unfold rd32
  rw [h o (by omega) (by omega), h (o + 1) (by omega) (by omega),
    h (o + 2) (by omega) (by omega), h (o + 3) (by omega) (by omega)]

theorem rd16_eq_zero {m : Mem} {o : Nat} (h : ∀ p, o ≤ p → p < o + 2 → m p = 0) :
    rd16 m o = 0 := by
  exact (rd16_congr h).trans (rfl : rd16 (fun _ => 0) o = 0)

theorem rd32_eq_zero {m : Mem} {o : Nat} (h : ∀ p, o ≤ p → p < o + 4 → m p = 0) :
    rd32 m o = 0 := by
  exact (rd32_congr h).trans (rfl : rd32 (fun _ => 0) o = 0)

/-! ## Stores leave the other bytes alone -/

@[simp] theorem wr8_same (m : Mem) (o : Nat) (v : UInt8) : wr8 m o v o = v := if_pos rfl

theorem wr8_of_ne {m : Mem} {o p : Nat} {v : UInt8} (h : p ≠ o) : wr8 m o v p = m p :=
  if_neg h

theorem wr16_of_not_mem {m : Mem} {o p v : Nat} (h : p < o ∨ o + 2 ≤ p) :
    wr16 m o v p = m p := by
  unfold wr16
  rw [if_neg (by omega), if_neg (by omega)]

theorem wr32_of_not_mem {m : Mem} {o p v : Nat} (h : p < o ∨ o + 4 ≤ p) :
    wr32 m o v p = m p := by
  unfold wr32
  rw [if_neg (by omega), if_neg (by omega), if_neg (by omega), if_neg (by omega)]

theorem blit_of_mem {m src : Mem} {o n p : Nat} (h : o ≤ p) (h' : p < o + n) :
    blit m o src n p = src (p - o) := if_pos ⟨h, h'⟩

theorem blit_of_not_mem {m src : Mem} {o n p : Nat} (h : p < o ∨ o + n ≤ p) :
    blit m o src n p = m p := if_neg (by omega)

theorem fill_of_mem {m : Mem} {v : UInt8} {o n p : Nat} (h : o ≤ p) (h' : p < o + n) :
    fill m o v n p = v := blit_of_mem h h'

theorem fill_of_not_mem {m : Mem} {v : UInt8} {o n p : Nat} (h : p < o ∨ o + n ≤ p) :
    fill m o v n p = m p := blit_of_not_mem h

/-! ## Reading back a field -/

theorem rd16_wr16 (m : Mem) (o v : Nat) : rd16 (wr16 m o v) o = v % 65536 := by
  unfold rd16 wr16
  rw [if_pos rfl, if_neg (by omega), if_pos rfl, UInt8.toNat_ofNat', UInt8.toNat_ofNat']
  omega

theorem rd32_wr32 (m : Mem) (o v : Nat) : rd32 (wr32 m o v) o = v % 4294967296 := by
  unfold rd32 wr32
  simp only [↓reduceIte, Nat.add_eq_left, Nat.succ_ne_self, Nat.add_right_inj,
    Nat.reduceEqDiff, UInt8.toNat_ofNat', OfNat.ofNat_ne_zero]
  omega

theorem rd16_wr16_of_lt {m : Mem} {o v : Nat} (h : v < 65536) : rd16 (wr16 m o v) o = v := by
  rw [rd16_wr16, Nat.mod_eq_of_lt h]

theorem rd32_wr32_of_lt {m : Mem} {o v : Nat} (h : v < 4294967296) :
    rd32 (wr32 m o v) o = v := by
  rw [rd32_wr32, Nat.mod_eq_of_lt h]

theorem rd16_wr8 {m : Mem} {o p : Nat} {v : UInt8} (h : p < o ∨ o + 2 ≤ p) :
    rd16 (wr8 m p v) o = rd16 m o :=
  rd16_congr fun _ h1 h2 => wr8_of_ne (by omega)

theorem rd32_wr8 {m : Mem} {o p : Nat} {v : UInt8} (h : p < o ∨ o + 4 ≤ p) :
    rd32 (wr8 m p v) o = rd32 m o :=
  rd32_congr fun _ h1 h2 => wr8_of_ne (by omega)

theorem rd16_wr16_of_ne {m : Mem} {o p v : Nat} (h : p + 2 ≤ o ∨ o + 2 ≤ p) :
    rd16 (wr16 m p v) o = rd16 m o :=
  rd16_congr fun _ h1 h2 => wr16_of_not_mem (by omega)

theorem rd16_wr32 {m : Mem} {o p v : Nat} (h : p + 4 ≤ o ∨ o + 2 ≤ p) :
    rd16 (wr32 m p v) o = rd16 m o :=
  rd16_congr fun _ h1 h2 => wr32_of_not_mem (by omega)

theorem rd32_wr16 {m : Mem} {o p v : Nat} (h : p + 2 ≤ o ∨ o + 4 ≤ p) :
    rd32 (wr16 m p v) o = rd32 m o :=
  rd32_congr fun _ h1 h2 => wr16_of_not_mem (by omega)

theorem rd32_wr32_of_ne {m : Mem} {o p v : Nat} (h : p + 4 ≤ o ∨ o + 4 ≤ p) :
    rd32 (wr32 m p v) o = rd32 m o :=
  rd32_congr fun _ h1 h2 => wr32_of_not_mem (by omega)

/-! ## Strings of bytes -/

@[simp] theorem length_bytes (m : Mem) (o n : Nat) : (bytes m o n).length = n := by
  simp [bytes]

theorem bytes_congr {m m' : Mem} {o n : Nat} (h : ∀ p, o ≤ p → p < o + n → m p = m' p) :
    bytes m o n = bytes m' o n := by
  unfold bytes
  apply List.map_congr_left
  intro i hi
  have := List.mem_range.mp hi
  exact h _ (by omega) (by omega)

/-- Two strings are equal when their lengths and all their bytes are. -/
theorem bytes_eq_iff {m m' : Mem} {o o' n n' : Nat} :
    bytes m o n = bytes m' o' n' ↔ n = n' ∧ ∀ i < n, m (o + i) = m' (o' + i) := by
  constructor
  · intro h
    have hn : n = n' := by simpa using congrArg List.length h
    subst hn
    refine ⟨rfl, fun i hi => ?_⟩
    have := congrArg (fun l => l[i]?) h
    simpa [bytes, hi] using this
  · rintro ⟨rfl, h⟩
    exact List.map_congr_left fun i hi => h i (List.mem_range.mp hi)

end LossOs.Lib
