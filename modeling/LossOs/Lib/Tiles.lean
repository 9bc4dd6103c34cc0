/-
  Pictures in tiles.

  A picture of tiles 8 columns wide is given by what stands in each tile and by the look of that.
  `tiled_paint`: painting is a change of tiles when it changes their looks so. What lies in one tile
  is one tile's change (`tiled_paint_update`).
-/
import LossOs.Lib.Planar

namespace LossOs.Lib

/-- The points of tile `p`, by column and row of the tile. -/
def tile (k : Nat) (p : ℤ × ℤ) : Set (ℤ × ℤ) :=
  {q | 8 * p.1 ≤ q.1 ∧ q.1 < 8 * p.1 + 8 ∧ k * p.2 ≤ q.2 ∧ q.2 < k * p.2 + k}

namespace Picture

variable {n w h k : Nat} {ι : Type*} {look : ι → ℤ → ℤ → Fin n → Bool} {T T' : ℤ × ℤ → ι}
  {S : Set (ℤ × ℤ)} {c : Fin n → Bool} {p : ℤ × ℤ} {t : ι}

/-- The picture of tiles of `k` rows. -/
def tiled (k : Nat) (look : ι → ℤ → ℤ → Fin n → Bool) (T : ℤ × ℤ → ι) : Picture n w h :=
  fun x y => look (T ((x : ℤ) / 8, (y : ℤ) / k)) ((x : ℤ) % 8) ((y : ℤ) % k)

theorem tiled_paint (hk : 0 < k) (hT : ∀ p i j, 0 ≤ i → i < 8 → 0 ≤ j → j < (k : ℤ) →
    ((8 * p.1 + i, k * p.2 + j) ∈ S → look (T' p) i j = c) ∧
      ((8 * p.1 + i, k * p.2 + j) ∉ S → look (T' p) i j = look (T p) i j)) :
    (tiled k look T : Picture n w h).paint S c = tiled k look T' := by
  have hk' : (0 : ℤ) < k := by exact_mod_cast hk
  funext x y
  obtain ⟨hin, hout⟩ := hT ((x : ℤ) / 8, (y : ℤ) / k) ((x : ℤ) % 8) ((y : ℤ) % k)
    (Int.emod_nonneg _ (by decide)) (Int.emod_lt_of_pos _ (by decide))
    (Int.emod_nonneg _ hk'.ne') (Int.emod_lt_of_pos _ hk')
  dsimp only at hin hout
  rw [Int.mul_ediv_add_emod, Int.mul_ediv_add_emod] at hin hout
  by_cases hS : ((x : ℤ), (y : ℤ)) ∈ S
  · exact (paint_mem hS).trans (hin hS).symm
  · exact (paint_not_mem hS).trans (hout hS).symm

/-- What lies in tile `p`. -/
theorem tiled_paint_update (hk : 0 < k) (hS : S ⊆ tile k p)
    (ht : ∀ i j, 0 ≤ i → i < 8 → 0 ≤ j → j < (k : ℤ) →
      ((8 * p.1 + i, k * p.2 + j) ∈ S → look t i j = c) ∧
        ((8 * p.1 + i, k * p.2 + j) ∉ S → look t i j = look (T p) i j)) :
    (tiled k look T : Picture n w h).paint S c = tiled k look (Function.update T p t) := by
  refine tiled_paint hk fun q i j hi hi' hj hj' => ?_
  by_cases hq : q = p
  · subst hq
    rw [Function.update_self]
    exact ht i j hi hi' hj hj'
  · rw [Function.update_of_ne hq]
    refine ⟨fun hin => absurd ?_ hq, fun _ => rfl⟩
    obtain ⟨h1, h2, h3, h4⟩ := hS hin
    dsimp only at h1 h2 h3 h4
    refine Prod.ext (by omega) ?_
    -- the rows of the tiles are apart
    have hk' : (0 : ℤ) < k := by exact_mod_cast hk
    have hlt : (k : ℤ) * q.2 < k * (p.2 + 1) := by rw [Int.mul_add, Int.mul_one]; omega
    have hlt' : (k : ℤ) * p.2 < k * (q.2 + 1) := by rw [Int.mul_add, Int.mul_one]; omega
    have h5 := Int.lt_of_mul_lt_mul_left hlt hk'.le
    have h6 := Int.lt_of_mul_lt_mul_left hlt' hk'.le
    omega

end Picture

end LossOs.Lib
