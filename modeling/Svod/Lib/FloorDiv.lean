/-
  Svod.Lib.FloorDiv

  Algebra of floor division and floor remainder over the integers: a common
  factor of both sides, nested divisions, and the digits of a number in a mixed
  base.
-/

import Mathlib.Data.Int.ModEq
import Mathlib.Data.Int.DivMod
import Mathlib.Tactic.Ring
import Mathlib.Tactic.LinearCombination

namespace Svod.Lib

/-- A number between two multiples of the divisor has a known quotient. -/
theorem fdiv_eq_of_bucket {r q c : ℤ} (hc : 0 < c) (hlo : q * c ≤ r) (hhi : r < q * c + c) :
    r.fdiv c = q := by
  have h := (Int.fdiv_fmod_unique hc (a := r) (r := r - q * c) (q := q)).mpr
  refine (h ⟨?_, by omega, by omega⟩).1
  rw [Int.mul_comm c q]
  omega

/-- The quotient of the ends of an interval is the quotient of all of it. -/
theorem fdiv_eq_of_ends {lo hi r c : ℤ} (hc : 0 < c) (hlo : lo ≤ r) (hhi : r ≤ hi)
    (hends : lo / c = hi / c) : r.fdiv c = lo / c := by
  rw [Int.fdiv_eq_ediv_of_nonneg r hc.le]
  have h₁ : lo / c ≤ r / c := Int.ediv_le_ediv hc hlo
  have h₂ : r / c ≤ hi / c := Int.ediv_le_ediv hc hhi
  omega

/-- Shifting a number by a multiple of the divisor shifts the quotient. -/
theorem fdiv_of_eq_add_mul {x r k c : ℤ} (hc : c ≠ 0) (h : x = r + k * c) :
    x.fdiv c = r.fdiv c + k := by
  rw [h, Int.add_mul_fdiv_right r k hc]

theorem fmod_of_eq_add_mul {x r k c : ℤ} (h : x = r + k * c) : x.fmod c = r.fmod c := by
  rw [h, Int.add_mul_fmod_self_right]

theorem fmod_congr {x z c : ℤ} (h : c ∣ x - z) : x.fmod c = z.fmod c := by
  obtain ⟨k, hk⟩ := h
  apply fmod_of_eq_add_mul (k := k)
  rw [Int.mul_comm k c]
  omega

/-- A number written with a remainder on the side of the divisor. -/
theorem fdiv_fmod_of_eq {c d q r : ℤ} (h : c = r + q * d)
    (hr : 0 ≤ r ∧ r < d ∨ d < r ∧ r ≤ 0) : c.fdiv d = q ∧ c.fmod d = r := by
  have hd : d ≠ 0 := by omega
  have hzero : r.fdiv d = 0 := by
    rcases hr with ⟨hlo, hhi⟩ | ⟨hlo, hhi⟩
    · exact Int.fdiv_eq_zero_of_lt hlo hhi
    · rw [← Int.neg_fdiv_neg]
      exact Int.fdiv_eq_zero_of_lt (by omega) (by omega)
  have hq : c.fdiv d = q := by rw [fdiv_of_eq_add_mul hd h, hzero, Int.zero_add]
  refine ⟨hq, ?_⟩
  rw [Int.fmod_def, hq, h, Int.mul_comm d q]
  omega

/-- A factor common to both sides cancels. -/
theorem mul_fdiv_mul_left {g : ℤ} (hg : g ≠ 0) (a b : ℤ) : (g * a).fdiv (g * b) = a.fdiv b := by
  rcases lt_or_gt_of_ne hg with hneg | hpos
  · have h := Int.mul_fdiv_mul_of_pos (a := -g) a b (by omega)
    rw [Int.neg_mul, Int.neg_mul, Int.neg_fdiv_neg] at h
    exact h
  · exact Int.mul_fdiv_mul_of_pos a b hpos

theorem mul_fmod_mul_left {g : ℤ} (hg : g ≠ 0) (a b : ℤ) :
    (g * a).fmod (g * b) = g * a.fmod b := by
  rw [Int.fmod_def, Int.fmod_def, mul_fdiv_mul_left hg]
  ring

/-- Dividing twice, where the first divisor may be negative. -/
theorem fdiv_fdiv {d : ℤ} (hd : 0 ≤ d) (c x : ℤ) : (x.fdiv c).fdiv d = x.fdiv (c * d) := by
  rcases le_or_gt 0 c with hc | hc
  · exact Int.fdiv_fdiv_eq_fdiv_mul x hc hd
  · have h := Int.fdiv_fdiv_eq_fdiv_mul (-x) (Int.neg_nonneg.mpr hc.le) hd
    rwa [Int.neg_fdiv_neg, Int.neg_mul, Int.neg_fdiv_neg] at h

/-- The quotient of a remainder modulo a multiple of the divisor. -/
theorem fdiv_fmod_mul {c k : ℤ} (hc : 0 < c) (hk : 0 < k) (a : ℤ) :
    (a.fmod (c * k)).fdiv c = (a.fdiv c).fmod k := by
  have h : a.fmod (c * k) = a + -(k * a.fdiv (c * k)) * c := by
    rw [Int.fmod_def]
    ring
  rw [fdiv_of_eq_add_mul (by omega) h, Int.fmod_def, fdiv_fdiv hk.le]
  ring

/-- A number from its digit and its quotient by the first base. -/
theorem fmod_mul_split {k : ℤ} (hk : 0 < k) (c a : ℤ) :
    a.fmod (c * k) = (a.fdiv c).fmod k * c + a.fmod c := by
  rw [Int.fmod_def, Int.fmod_def, Int.fmod_def, fdiv_fdiv hk.le]
  ring

/-- The common factor of the divisor and of all but a constant of the dividend. -/
theorem fdiv_factor_shift {g c b k : ℤ} (hg : 0 < g) (hc : 0 < c) :
    (g * b + k).fdiv (g * c) = (b + k / g % c).fdiv c + k / (g * c) := by
  have hk : k / g = k / g % c + k / (g * c) * c := by
    have h := Int.emod_add_mul_ediv (k / g) c
    rw [Int.ediv_ediv_of_nonneg hg.le] at h
    rw [Int.mul_comm c] at h
    omega
  have hx : (g * b + k).fdiv g = b + k / g := by
    rw [Int.fdiv_eq_ediv_of_nonneg _ hg.le, Int.add_comm (g * b), Int.add_mul_ediv_left _ _ (by omega)]
    omega
  rw [← fdiv_fdiv hc.le, hx]
  apply fdiv_of_eq_add_mul (by omega)
  omega

theorem fmod_factor_shift {g c b k : ℤ} (hg : 0 < g) (hc : 0 < c) :
    (g * b + k).fmod (g * c) = (b + k / g % c).fmod c * g + k % g := by
  rw [Int.fmod_def, fdiv_factor_shift hg hc, Int.fmod_def]
  have h₁ := Int.emod_add_mul_ediv k g
  have h₂ := Int.emod_add_mul_ediv (k / g) c
  rw [Int.ediv_ediv_of_nonneg hg.le] at h₂
  linear_combination -h₁ - g * h₂

end Svod.Lib
