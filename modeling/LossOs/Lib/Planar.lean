/-
  Bitmaps that are kept in planes.

  A pixel has one bit in each plane; the leftmost of the 8 pixels in a byte is the most significant
  bit. `Planes.picture` is the view by pixels, `blend` a change of some bits of a byte, and
  `picture_set_blend` what that does to the picture. Drawing a set of points in one colour is
  `Picture.paint`; `foldl_plot` puts it together from the planes, and `loop_paint` from the rounds
  of a loop.
-/
import LossOs.Lib.Loops
import Mathlib.Data.Set.Lattice
import Mathlib.Data.Fintype.Basic

namespace LossOs.Lib

/-! ## Pictures -/

/-- The pixels of a bitmap with `8 * w` columns and `h` rows: a bit for each of `n` planes. -/
abbrev Picture (n w h : Nat) : Type := Fin (8 * w) → Fin h → Fin n → Bool

namespace Picture

variable {n w h : Nat} {S T : Set (ℤ × ℤ)} {P : Picture n w h} {x : Fin (8 * w)} {y : Fin h}

open Classical in
/-- The points of `S` get bit `b` in plane `p`. -/
noncomputable def plot (p : Fin n) (S : Set (ℤ × ℤ)) (b : Bool) (P : Picture n w h) :
    Picture n w h := fun x y q => if q = p ∧ ((x : ℤ), (y : ℤ)) ∈ S then b else P x y q

open Classical in
/-- The points of `S` get the bits `c`. -/
noncomputable def paint (S : Set (ℤ × ℤ)) (c : Fin n → Bool) (P : Picture n w h) :
    Picture n w h := fun x y q => if ((x : ℤ), (y : ℤ)) ∈ S then c q else P x y q

theorem paint_mem {c : Fin n → Bool} (hS : ((x : ℤ), (y : ℤ)) ∈ S) : P.paint S c x y = c :=
  funext fun _ => if_pos hS

theorem paint_not_mem {c : Fin n → Bool} (hS : ((x : ℤ), (y : ℤ)) ∉ S) :
    P.paint S c x y = P x y := funext fun _ => if_neg hS

theorem plot_congr {p : Fin n} {b : Bool} (hS : ∀ (x : Fin (8 * w)) (y : Fin h),
    ((x : ℤ), (y : ℤ)) ∈ S ↔ ((x : ℤ), (y : ℤ)) ∈ T) : P.plot p S b = P.plot p T b := by
  funext x y q
  unfold plot
  by_cases hT : q = p ∧ ((x : ℤ), (y : ℤ)) ∈ T
  · rw [if_pos hT, if_pos ⟨hT.1, (hS x y).mpr hT.2⟩]
  · rw [if_neg hT, if_neg fun h => hT ⟨h.1, (hS x y).mp h.2⟩]

theorem paint_empty (c : Fin n → Bool) : P.paint ∅ c = P :=
  funext fun _ => funext fun _ => paint_not_mem (Set.notMem_empty _)

/-- What is painted twice with the same bits is painted once. -/
theorem paint_paint (c : Fin n → Bool) : (P.paint S c).paint T c = P.paint (S ∪ T) c := by
  funext x y
  by_cases hT : ((x : ℤ), (y : ℤ)) ∈ T
  · rw [paint_mem hT, paint_mem (Or.inr hT)]
  · rw [paint_not_mem hT]
    by_cases hS : ((x : ℤ), (y : ℤ)) ∈ S
    · rw [paint_mem hS, paint_mem (Or.inl hS)]
    · rw [paint_not_mem hS, paint_not_mem (not_or_intro hS hT)]

theorem foldl_paint {ι : Type*} (c : Fin n → Bool) (S : ι → Set (ℤ × ℤ)) (L : List ι) :
    L.foldl (fun P i => P.paint (S i) c) P = P.paint {q | ∃ i ∈ L, q ∈ S i} c := by
  induction L generalizing P with
  | nil => simp [paint_empty]
  | cons i L ih =>
    rw [List.foldl_cons, ih, paint_paint]
    congr 1
    ext q
    simp

theorem plot_plot (p : Fin n) (b : Bool) : (P.plot p S b).plot p T b = P.plot p (S ∪ T) b := by
  funext x y q
  unfold plot
  by_cases hT : q = p ∧ ((x : ℤ), (y : ℤ)) ∈ T
  · rw [if_pos hT, if_pos ⟨hT.1, Or.inr hT.2⟩]
  · rw [if_neg hT]
    by_cases hS : q = p ∧ ((x : ℤ), (y : ℤ)) ∈ S
    · rw [if_pos hS, if_pos ⟨hS.1, Or.inl hS.2⟩]
    · rw [if_neg hS, if_neg]
      rintro ⟨hq, h | h⟩
      · exact hS ⟨hq, h⟩
      · exact hT ⟨hq, h⟩

theorem foldl_plot_rows {ι : Type*} (p : Fin n) (b : Bool) (S : ι → Set (ℤ × ℤ)) (L : List ι) :
    L.foldl (fun P i => P.plot p (S i) b) P = P.plot p {q | ∃ i ∈ L, q ∈ S i} b := by
  induction L generalizing P with
  | nil =>
    funext x y q
    simp [plot]
  | cons i L ih =>
    rw [List.foldl_cons, ih, plot_plot]
    congr 1
    ext q
    simp

section Loops

variable {σ ι : Type*} {abs : σ → Picture n w h} {I : σ → Prop} {F : ι → σ → Option σ} {L : List ι}
  {U : ι → Set (ℤ × ℤ)}

/-- A loop that paints. -/
theorem loop_paint {c : Fin n → Bool} (hF : ∀ i ∈ L, Refines abs I (F i) (paint (U i) c)) :
    Refines abs I (loop L F) (paint {q | ∃ i ∈ L, q ∈ U i} c) :=
  (Refines.loop hF).congr (fun _ => rfl) fun _ => foldl_paint c U L

/-- A loop that plots in one plane. -/
theorem loop_plot {p : Fin n} {b : Bool} (hF : ∀ i ∈ L, Refines abs I (F i) (plot p (U i) b)) :
    Refines abs I (loop L F) (plot p {q | ∃ i ∈ L, q ∈ U i} b) :=
  (Refines.loop hF).congr (fun _ => rfl) fun _ => foldl_plot_rows p b U L

end Loops

/-- Plane by plane. -/
theorem foldl_plot (S : Set (ℤ × ℤ)) (c : Fin n → Bool) :
    (List.finRange n).foldl (fun P p => P.plot p S (c p)) P = P.paint S c := by
  have hfold : ∀ L : List (Fin n), ∀ P : Picture n w h, ∀ x y q,
      L.foldl (fun P p => P.plot p S (c p)) P x y q =
        if q ∈ L then P.paint S c x y q else P x y q := by
    intro L
    induction L with
    | nil => exact fun _ _ _ _ => rfl
    | cons p L ih =>
      intro P x y q
      rw [List.foldl_cons, ih]
      unfold plot paint
      by_cases hS : ((x : ℤ), (y : ℤ)) ∈ S
      · by_cases hq : q = p
        · subst hq
          simp [hS]
        · simp [hS, hq]
      · simp [hS]
  funext x y q
  rw [hfold, if_pos (List.mem_finRange q)]

end Picture

/-! ## Bytes -/

/-- The bits of `mask` become `b`. -/
def blend (b : Bool) (mask cur : UInt8) : UInt8 := if b then cur ||| mask else cur &&& ~~~mask

/-- Bit `k` from the left. -/
def leftBit (v : UInt8) (k : Nat) : Bool := v.toBitVec.getMsbD k

theorem leftBit_blend {b : Bool} {mask cur : UInt8} {k : Nat} (hk : k < 8) :
    leftBit (blend b mask cur) k = if leftBit mask k then b else leftBit cur k := by
  unfold leftBit blend
  cases b <;> cases h : mask.toBitVec.getMsbD k <;> simp [h, hk]

theorem eq_of_leftBit {v v' : UInt8} (h : ∀ k < 8, leftBit v k = leftBit v' k) : v = v' :=
  UInt8.toBitVec_inj.mp (BitVec.eq_of_getMsbD_eq fun k hk => h k hk)

/-- With all bits in the mask nothing is left of the byte. -/
theorem blend_full (b : Bool) (cur : UInt8) : blend b 0xFF cur = if b then 0xFF else 0 := by
  have hones : ∀ k < 8, leftBit 0xFF k = true := by decide
  have hzeros : ∀ k < 8, leftBit 0 k = false := by decide
  apply eq_of_leftBit
  intro k hk
  rw [leftBit_blend hk, if_pos (hones k hk)]
  cases b
  · exact (hzeros k hk).symm
  · exact (hones k hk).symm

/-! ## Planes -/

/-- `n` planes of `h` rows, `w` bytes each. -/
abbrev Planes (n w h : Nat) : Type := Fin n → Fin (w * h) → UInt8

namespace Planes

variable {n w h : Nat} {m m' : Planes n w h} {p q : Fin n} {o : Fin (w * h)}

theorem offset_lt (x : Fin (8 * w)) (y : Fin h) : y.val * w + x.val / 8 < w * h := by
  have hx : x.val / 8 < w := Nat.div_lt_of_lt_mul x.isLt
  calc y.val * w + x.val / 8 < (y.val + 1) * w := by rw [Nat.succ_mul y.val]; omega
    _ ≤ h * w := Nat.mul_le_mul_right w y.isLt
    _ = w * h := Nat.mul_comm h w

/-- The byte of a pixel. -/
def offset (x : Fin (8 * w)) (y : Fin h) : Fin (w * h) := ⟨y.val * w + x.val / 8, offset_lt x y⟩

def picture (m : Planes n w h) : Picture n w h :=
  fun x y p => leftBit (m p (offset x y)) (x.val % 8)

/-- Store a byte. -/
def set (m : Planes n w h) (p : Fin n) (o : Fin (w * h)) (v : UInt8) : Planes n w h :=
  Function.update m p (Function.update (m p) o v)

/-- Planes with the same picture are the same. -/
theorem picture_inj (heq : m.picture = m'.picture) : m = m' := by
  funext p o
  apply eq_of_leftBit
  intro k hk
  have hw : 0 < w := by
    apply Nat.pos_of_ne_zero
    intro h0
    subst h0
    exact absurd o.isLt (by simp)
  have hx : 8 * (o.val % w) + k < 8 * w := by
    have := Nat.mod_lt o.val hw
    omega
  have hy : o.val / w < h := Nat.div_lt_of_lt_mul o.isLt
  have ho : offset ⟨8 * (o.val % w) + k, hx⟩ ⟨o.val / w, hy⟩ = o := by
    apply Fin.ext
    show o.val / w * w + (8 * (o.val % w) + k) / 8 = o.val
    rw [show (8 * (o.val % w) + k) / 8 = o.val % w by omega]
    exact Nat.div_add_mod' o.val w
  have h := congrFun (congrFun (congrFun heq ⟨8 * (o.val % w) + k, hx⟩) ⟨o.val / w, hy⟩) p
  unfold picture at h
  rwa [ho, show (8 * (o.val % w) + k) % 8 = k by omega] at h

/-- The pixels in byte `o` under the bits of `mask`. -/
def under (w o : Nat) (mask : UInt8) : Set (ℤ × ℤ) :=
  {q | q.2 * w + q.1 / 8 = o ∧ leftBit mask (q.1 % 8).toNat = true}

/-- A blended byte is a plot of the pixels under the mask. -/
theorem picture_set_blend (m : Planes n w h) (p : Fin n) (o : Fin (w * h)) (b : Bool)
    (mask : UInt8) :
    (m.set p o (blend b mask (m p o))).picture = m.picture.plot p (under w o mask) b := by
  funext x y q
  have hk : x.val % 8 < 8 := Nat.mod_lt _ (by decide)
  have hmem : ((x.val : ℤ), (y.val : ℤ)) ∈ under w o mask ↔
      offset x y = o ∧ leftBit mask (x.val % 8) = true := by
    show (y.val : ℤ) * w + (x.val : ℤ) / 8 = (o.val : ℤ) ∧
      leftBit mask ((x.val : ℤ) % 8).toNat = true ↔ _
    have hmod : ((x.val : ℤ) % 8).toNat = x.val % 8 := by omega
    rw [hmod, Fin.ext_iff]
    apply and_congr_left
    intro _
    show _ ↔ y.val * w + x.val / 8 = o.val
    constructor
    · intro h
      exact_mod_cast h
    · intro h
      exact_mod_cast h
  unfold picture set Picture.plot
  rw [hmem]
  by_cases hq : q = p
  · subst hq
    rw [Function.update_self]
    by_cases ho : offset x y = o
    · subst ho
      rw [Function.update_self, leftBit_blend hk]
      simp
    · rw [Function.update_of_ne ho, if_neg fun hc => ho hc.2.1]
  · rw [Function.update_of_ne hq, if_neg fun hc => hq hc.1]

end Planes

end LossOs.Lib
