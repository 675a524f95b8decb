/-
  Svod.Lib.MagicDiv

  Division by a constant as a product and a shift.

  A multiplier `m` for the divisor `d` and the power `P` exceeds the quotient
  `P / d` by a small error: `m * d = P + e`.  The product rounds to the right
  quotient as long as the error does not carry a value over the next multiple
  of `d`.
-/

import Mathlib.Tactic.Linarith
import Mathlib.Tactic.Ring

namespace Svod.Lib.MagicDiv

variable {n m d e P : ℕ}

/-- The error of a product stays below the distance to the next multiple. -/
def ErrorFits (n d e P : ℕ) : Prop := n * e < (d - n % d) * P

/-- The product of a number, `d` times: its share of the power, and the error. -/
theorem mul_mul_eq (hm : m * d = P + e) (n : ℕ) : n * m * d = n * P + n * e := by
  rw [Nat.mul_assoc, hm, Nat.mul_add]

theorem mul_lt_succ_mul (hd : 0 < d) (hm : m * d = P + e) (h : ErrorFits n d e P) :
    n * m < (n / d + 1) * P := by
  have hdiv : d * (n / d) + n % d = n := Nat.div_add_mod n d
  have hmod : n % d < d := Nat.mod_lt n hd
  have hsum : n + (d - n % d) = (n / d + 1) * d := by
    rw [Nat.add_mul, Nat.one_mul, Nat.mul_comm (n / d) d]
    omega
  refine Nat.lt_of_mul_lt_mul_right (a := d) ?_
  calc n * m * d = n * P + n * e := mul_mul_eq hm n
    _ < n * P + (d - n % d) * P := Nat.add_lt_add_left h _
    _ = (n / d + 1) * P * d := by rw [← Nat.add_mul, hsum]; ring

theorem mul_le_mul_of_error (hd : 0 < d) (hm : m * d = P + e) : n / d * P ≤ n * m := by
  refine Nat.le_of_mul_le_mul_right ?_ hd
  calc n / d * P * d = n / d * d * P := by ring
    _ ≤ n * P := Nat.mul_le_mul_right P (Nat.div_mul_le_self n d)
    _ ≤ n * m * d := by rw [mul_mul_eq hm]; exact Nat.le_add_right _ _

/-- Rounded down, the product over the power is the quotient. -/
theorem mul_div_eq (hd : 0 < d) (hm : m * d = P + e) (h : ErrorFits n d e P) :
    n * m / P = n / d :=
  Nat.div_eq_of_lt_le (mul_le_mul_of_error hd hm) (mul_lt_succ_mul hd hm h)

/-- With an error, the product of a positive number lies strictly above the quotient. -/
theorem mul_lt_mul_of_error (hm : m * d = P + e) (he : 0 < e) (hn : 0 < n) :
    n / d * P < n * m := by
  refine Nat.lt_of_mul_lt_mul_right (a := d) ?_
  calc n / d * P * d = n / d * d * P := by ring
    _ ≤ n * P := Nat.mul_le_mul_right P (Nat.div_mul_le_self n d)
    _ < n * P + n * e := Nat.lt_add_of_pos_right (Nat.mul_pos hn he)
    _ = n * m * d := (mul_mul_eq hm n).symm

/-- The largest number up to `N` that is one short of a multiple. -/
def lastResidue (N d : ℕ) : ℕ := (N + 1) / d * d - 1

/-- It is enough to bound the error at the last number one short of a multiple. -/
theorem errorFits_of_lastResidue {N : ℕ} (hd : 0 < d) (hN : d ≤ N) (he : e < d)
    (h : lastResidue N d * e < P) (hn : n ≤ N) : ErrorFits n d e P := by
  have hmod : n % d < d := Nat.mod_lt n hd
  have hdiv : d * (n / d) + n % d = n := Nat.div_add_mod n d
  have hone : 1 * d ≤ (N + 1) / d * d := Nat.mul_le_mul_right d
    ((Nat.le_div_iff_mul_le hd).mpr (by omega))
  unfold ErrorFits
  unfold lastResidue at h
  rcases Nat.lt_or_ge (n % d + 1) d with hlt | hge
  · -- at least two steps to the next multiple
    have hq : n / d * d ≤ (N + 1) / d * d :=
      Nat.mul_le_mul_right d (Nat.div_le_div_right (by omega))
    rw [Nat.mul_comm (n / d) d] at hq
    have hle : n ≤ 2 * ((N + 1) / d * d - 1) := by omega
    calc n * e ≤ 2 * ((N + 1) / d * d - 1) * e := Nat.mul_le_mul_right e hle
      _ = 2 * (((N + 1) / d * d - 1) * e) := by ring
      _ < 2 * P := by omega
      _ ≤ (d - n % d) * P := Nat.mul_le_mul_right P (by omega)
  · -- one short of a multiple
    have hq : (n / d + 1) * d ≤ (N + 1) / d * d := by
      refine Nat.mul_le_mul_right d ((Nat.le_div_iff_mul_le hd).mpr ?_)
      rw [Nat.add_mul, Nat.one_mul, Nat.mul_comm (n / d) d]
      omega
    rw [Nat.add_mul, Nat.one_mul, Nat.mul_comm (n / d) d] at hq
    have hle : n ≤ (N + 1) / d * d - 1 := by omega
    have hone : d - n % d = 1 := by omega
    rw [hone, Nat.one_mul]
    exact (Nat.mul_le_mul_right e hle).trans_lt h

/-! ## Integers -/

/-- A number of either sign: the shifted product, plus one below zero, is the quotient rounded
    towards zero. -/
theorem shift_eq_tdiv {v : ℤ} (hd : 0 < d) (hm : m * d = P + e) (he : 0 < e)
    (h : ErrorFits v.natAbs d e P) :
    v * m / P + (if v < 0 then 1 else 0) = v.tdiv d := by
  rcases lt_or_ge v 0 with hneg | hpos
  · obtain ⟨n, rfl⟩ : ∃ n : ℕ, v = -n := ⟨v.natAbs, by omega⟩
    have hn : 0 < n := by omega
    rw [Int.natAbs_neg, Int.natAbs_natCast] at h
    have hP : 0 < P := by
      by_contra h0
      have : P = 0 := by omega
      unfold ErrorFits at h
      rw [this, Nat.mul_zero] at h
      exact Nat.not_lt_zero _ h
    rw [if_pos hneg, Int.neg_tdiv, ← Int.ofNat_tdiv]
    have hfloor : -(n : ℤ) * m / P = -((n / d : ℕ) + 1 : ℤ) := by
      have hlo : ((n / d : ℕ) : ℤ) * P < n * m := by exact_mod_cast mul_lt_mul_of_error hm he hn
      have hhi : ((n : ℕ) : ℤ) * m < ((n / d : ℕ) + 1 : ℤ) * P := by
        exact_mod_cast mul_lt_succ_mul hd hm h
      have hP' : (0 : ℤ) < P := by exact_mod_cast hP
      refine le_antisymm ?_ ?_
      · have hlt : -(n : ℤ) * m / P < -((n / d : ℕ) : ℤ) := by
          rw [Int.ediv_lt_iff_lt_mul hP']
          linarith
        omega
      · rw [Int.le_ediv_iff_mul_le hP']
        linarith
    rw [hfloor]
    omega
  · obtain ⟨n, rfl⟩ : ∃ n : ℕ, v = n := ⟨v.natAbs, by omega⟩
    rw [Int.natAbs_natCast] at h
    have hdiv := mul_div_eq hd hm h
    rw [if_neg (by omega), ← Int.ofNat_tdiv, Int.add_zero, ← hdiv]
    norm_cast

end Svod.Lib.MagicDiv
