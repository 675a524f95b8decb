/-
  Svod.Lib.Checked

  Machine words with overflow checks: a sum, difference or product that leaves
  `[0, 2^64)` has no value.  `Option.none` is the abort of the checked build.
-/

import Mathlib.Algebra.Order.Ring.Nat
import Mathlib.Data.Nat.Log

namespace Svod.Lib.Checked

/-- Number of values of a 64-bit word. -/
def wordSize : Nat := 2 ^ 64

def checkedAdd (a b : Nat) : Option Nat :=
  if a + b < wordSize then some (a + b) else none

def checkedSub (a b : Nat) : Option Nat :=
  if b ≤ a then some (a - b) else none

def checkedMul (a b : Nat) : Option Nat :=
  if a * b < wordSize then some (a * b) else none

theorem checkedAdd_eq_some {a b c : Nat} :
    checkedAdd a b = some c ↔ a + b < wordSize ∧ c = a + b := by
  unfold checkedAdd
  split <;> simp_all [eq_comm]

theorem checkedMul_eq_some {a b c : Nat} :
    checkedMul a b = some c ↔ a * b < wordSize ∧ c = a * b := by
  unfold checkedMul
  split <;> simp_all [eq_comm]

theorem checkedAdd_of_lt {a b : Nat} (h : a + b < wordSize) :
    checkedAdd a b = some (a + b) := if_pos h

theorem checkedSub_of_le {a b : Nat} (h : b ≤ a) : checkedSub a b = some (a - b) := if_pos h

/-! ## Bit lengths and rounding -/

/-- Position of the most significant set bit, counted from one; `0` for `0`. -/
def bitLength (n : Nat) : Nat := if n = 0 then 0 else Nat.log2 n + 1

@[simp] theorem bitLength_zero : bitLength 0 = 0 := rfl

theorem bitLength_pos {n : Nat} (h : 0 < n) : 0 < bitLength n := by
  simp [bitLength, Nat.pos_iff_ne_zero.mp h]

theorem lt_two_pow_bitLength (n : Nat) : n < 2 ^ bitLength n := by
  unfold bitLength
  split
  · simp_all
  · exact Nat.lt_log2_self

theorem two_pow_le_of_pos {n : Nat} (h : 0 < n) : 2 ^ (bitLength n - 1) ≤ n := by
  have hne : n ≠ 0 := Nat.pos_iff_ne_zero.mp h
  simp only [bitLength, hne, if_false, Nat.add_sub_cancel]
  exact Nat.log2_self_le hne

/-- The bit length is below any exponent whose power exceeds the number. -/
theorem bitLength_le_of_lt {n k : Nat} (h : n < 2 ^ k) : bitLength n ≤ k := by
  by_contra hk
  have hpos : 0 < n := by
    by_contra h0
    have : n = 0 := by omega
    simp [this] at hk
  have hle := two_pow_le_of_pos hpos
  have : 2 ^ k ≤ 2 ^ (bitLength n - 1) := Nat.pow_le_pow_right (by decide) (by omega)
  omega

theorem bitLength_mono {m n : Nat} (h : m ≤ n) : bitLength m ≤ bitLength n :=
  bitLength_le_of_lt (lt_of_le_of_lt h (lt_two_pow_bitLength n))

/-- `n.div_ceil(g) * g`, checked. -/
def divCeilMul (n g : Nat) : Option Nat := checkedMul ((n + g - 1) / g) g

/-- Least multiple of `g` that is at least `n`. -/
def ceilTo (n g : Nat) : Nat := (n + g - 1) / g * g

theorem le_ceilTo {n g : Nat} (hg : 0 < g) : n ≤ ceilTo n g := by
  unfold ceilTo
  have h := Nat.div_add_mod (n + g - 1) g
  have hlt := Nat.mod_lt (n + g - 1) hg
  have hcomm : g * ((n + g - 1) / g) = (n + g - 1) / g * g := Nat.mul_comm _ _
  omega

theorem ceilTo_le {n g : Nat} : ceilTo n g ≤ n + g - 1 := Nat.div_mul_le_self _ _

theorem ceilTo_lt {n g : Nat} (hg : 0 < g) : ceilTo n g < n + g := by
  have : ceilTo n g ≤ n + g - 1 := ceilTo_le
  omega

theorem dvd_ceilTo (n g : Nat) : g ∣ ceilTo n g := Nat.dvd_mul_left _ _

theorem divCeilMul_eq_some {n g m : Nat} :
    divCeilMul n g = some m ↔ ceilTo n g < wordSize ∧ m = ceilTo n g :=
  checkedMul_eq_some

end Svod.Lib.Checked
