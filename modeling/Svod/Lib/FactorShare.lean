/-
  Svod.Lib.FactorShare

  Giving the prime factors of a number away until the rest fits under a bound.

  The factors go in ascending order and the last one, when it is odd, is not
  given away alone: a search for a divisor below the number itself does not find
  it.  `share m n` is what stays of `n`.
-/

import Mathlib.Data.Nat.Factors

namespace Svod.Lib.FactorShare

/-- What stays of ascending factors. -/
def keep (m : ℕ) : List ℕ → Option ℕ
  | [] => if 1 ≤ m then some 1 else none
  | p :: ps =>
    if (p :: ps).prod ≤ m then some (p :: ps).prod
    else if ps = [] ∧ p ≠ 2 then none
    else keep m ps

def share (m n : ℕ) : Option ℕ := keep m n.primeFactorsList

variable {m n w : ℕ}

theorem keep_le {ps : List ℕ} (h : keep m ps = some w) : w ≤ m := by
  induction ps with
  | nil =>
    rw [keep] at h
    split at h
    · cases h
      assumption
    · cases h
  | cons p ps ih =>
    rw [keep] at h
    split at h
    · cases h
      assumption
    · split at h
      · cases h
      · exact ih h

theorem keep_dvd {ps : List ℕ} (h : keep m ps = some w) : w ∣ ps.prod := by
  induction ps with
  | nil =>
    rw [keep] at h
    split at h
    · cases h
      exact dvd_refl _
    · cases h
  | cons p ps ih =>
    rw [keep] at h
    split at h
    · cases h
      exact dvd_refl _
    · split at h
      · cases h
      · rw [List.prod_cons]
        exact (ih h).mul_left p

theorem share_le (h : share m n = some w) : w ≤ m := keep_le h

theorem share_dvd (hn : n ≠ 0) (h : share m n = some w) : w ∣ n := by
  have := keep_dvd h
  rwa [Nat.prod_primeFactorsList hn] at this

theorem share_pos (hn : n ≠ 0) (h : share m n = some w) : 0 < w :=
  Nat.pos_of_dvd_of_pos (share_dvd hn h) (Nat.pos_of_ne_zero hn)

end Svod.Lib.FactorShare
