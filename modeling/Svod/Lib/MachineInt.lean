/-
  Svod.Lib.MachineInt

  Fixed-width integer types over mathematical integers.

  `IntType.wrap` reduces an integer to the type by two's complement.  It is the
  identity on the type's range, depends on the argument modulo `2 ^ bits` only,
  and forgets an earlier reduction to a type that is at least as wide.
-/

import Mathlib.Tactic.Positivity
import Mathlib.Data.Int.Bitwise

namespace Svod.Lib

/-- `x` as a signed integer of `w` bits. -/
def wrapSigned (w : ℕ) (x : ℤ) : ℤ := x.bmod (2 ^ w)

/-- `x` as an unsigned integer of `w` bits. -/
def wrapUnsigned (w : ℕ) (x : ℤ) : ℤ := x % 2 ^ w

theorem wrapUnsigned_nonneg (w : ℕ) (x : ℤ) : 0 ≤ wrapUnsigned w x :=
  Int.emod_nonneg _ (by positivity)

theorem wrapUnsigned_lt (w : ℕ) (x : ℤ) : wrapUnsigned w x < 2 ^ w :=
  Int.emod_lt_of_pos _ (by positivity)

theorem wrapSigned_bounds {w : ℕ} (hw : 0 < w) (x : ℤ) :
    -2 ^ (w - 1) ≤ wrapSigned w x ∧ wrapSigned w x < 2 ^ (w - 1) := by
  obtain ⟨n, rfl⟩ : ∃ n, w = n + 1 := ⟨w - 1, by omega⟩
  have hpos : 0 < 2 ^ (n + 1) := by positivity
  have hlo := Int.le_bmod (x := x) hpos
  have hhi := Int.bmod_lt (x := x) hpos
  simp only [wrapSigned, Nat.add_sub_cancel]
  have hpow : (2 : ℤ) ^ (n + 1) = 2 * 2 ^ n := by rw [pow_succ, mul_comm]
  push_cast at hlo hhi
  rw [hpow] at hlo hhi
  omega

theorem wrapSigned_of_bounds {w : ℕ} (hw : 0 < w) {x : ℤ} (hlo : -2 ^ (w - 1) ≤ x)
    (hhi : x < 2 ^ (w - 1)) : wrapSigned w x = x := by
  obtain ⟨n, rfl⟩ : ∃ n, w = n + 1 := ⟨w - 1, by omega⟩
  simp only [Nat.add_sub_cancel] at hlo hhi
  refine Int.bmod_eq_of_le_mul_two ?_ ?_ <;> push_cast <;> rw [pow_succ] <;> omega

theorem wrapUnsigned_of_bounds {w : ℕ} {x : ℤ} (hlo : 0 ≤ x) (hhi : x < 2 ^ w) :
    wrapUnsigned w x = x :=
  Int.emod_eq_of_lt hlo hhi

/-- The reduction changes a number by a multiple of `2 ^ w`. -/
theorem dvd_sub_wrapSigned (w : ℕ) (v : ℤ) : (2 ^ w : ℤ) ∣ v - wrapSigned w v := by
  have h : ((2 ^ w : ℕ) : ℤ) ∣ v - v.bmod (2 ^ w) := Int.dvd_self_sub_bmod
  rwa [Nat.cast_pow, Nat.cast_ofNat] at h

theorem wrapSigned_congr {w : ℕ} {u v : ℤ} (h : (2 ^ w : ℤ) ∣ u - v) :
    wrapSigned w u = wrapSigned w v := by
  apply Int.bmod_eq_bmod_iff_bmod_sub_eq_zero.mpr
  apply Int.bmod_eq_zero_of_dvd
  rwa [Nat.cast_pow, Nat.cast_ofNat]

theorem wrapSigned_sub_wrapSigned (w : ℕ) (x y : ℤ) :
    wrapSigned w (wrapSigned w x - y) = wrapSigned w (x - y) := by
  unfold wrapSigned
  rw [Int.bmod_sub_bmod]

theorem wrapSigned_wrapUnsigned (w : ℕ) (x : ℤ) :
    wrapSigned w (wrapUnsigned w x) = wrapSigned w x := by
  have hpow : (2 : ℤ) ^ w = ((2 ^ w : ℕ) : ℤ) := by push_cast; rfl
  unfold wrapSigned wrapUnsigned
  rw [hpow, Int.emod_bmod]

theorem wrapUnsigned_wrapSigned (w : ℕ) (x : ℤ) :
    wrapUnsigned w (wrapSigned w x) = wrapUnsigned w x := by
  have hpow : (2 : ℤ) ^ w = ((2 ^ w : ℕ) : ℤ) := by push_cast; rfl
  unfold wrapSigned wrapUnsigned
  rw [hpow, Int.bmod_emod]

/-- What the reduction takes away is the number rounded to a multiple of `2 ^ (w + 1)`. -/
theorem sub_wrapSigned (w : ℕ) (x : ℤ) :
    x - wrapSigned (w + 1) x = (x + 2 ^ w) / 2 ^ (w + 1) * 2 ^ (w + 1) := by
  obtain ⟨q, hq⟩ := dvd_sub_wrapSigned (w + 1) x
  obtain ⟨hlo, hhi⟩ := wrapSigned_bounds (w := w + 1) (Nat.succ_pos w) x
  rw [Nat.add_sub_cancel] at hlo hhi
  have hpow : (2 : ℤ) ^ (w + 1) = 2 * 2 ^ w := pow_succ' 2 w
  have hsplit : x + 2 ^ w = wrapSigned (w + 1) x + 2 ^ w + 2 ^ (w + 1) * q := by
    rw [← hq]
    omega
  rw [hsplit, Int.add_mul_ediv_left _ _ (by positivity),
    Int.ediv_eq_zero_of_lt (by omega) (by omega), Int.zero_add, hq, Int.mul_comm]

/-- An integer type: `bits` bits, read as two's complement when `signed`. -/
structure IntType where
  signed : Bool
  bits : ℕ
  pos : 0 < bits

namespace IntType

variable (t : IntType)

def wrap (x : ℤ) : ℤ := if t.signed then wrapSigned t.bits x else wrapUnsigned t.bits x

def min : ℤ := if t.signed then -2 ^ (t.bits - 1) else 0

def max : ℤ := if t.signed then 2 ^ (t.bits - 1) - 1 else 2 ^ t.bits - 1

/-- `x` is a value of the type. -/
def Contains (x : ℤ) : Prop := t.min ≤ x ∧ x ≤ t.max

instance (x : ℤ) : Decidable (t.Contains x) := inferInstanceAs (Decidable (_ ∧ _))

theorem wrap_contains (x : ℤ) : t.Contains (t.wrap x) := by
  unfold Contains min max wrap
  split
  · have h := wrapSigned_bounds t.pos x
    omega
  · have h := wrapUnsigned_nonneg t.bits x
    have h' := wrapUnsigned_lt t.bits x
    omega

theorem wrap_of_contains {t : IntType} {x : ℤ} (h : t.Contains x) : t.wrap x = x := by
  unfold Contains min max at h
  unfold wrap
  split
  · next hs =>
    simp only [hs, if_true] at h
    exact wrapSigned_of_bounds t.pos h.1 (by omega)
  · next hs =>
    simp only [hs] at h
    exact wrapUnsigned_of_bounds (by simpa using h.1) (by simp at h; omega)

theorem contains_zero : t.Contains 0 := by
  have hpow : (0 : ℤ) < 2 ^ (t.bits - 1) := by positivity
  have hpow' : (0 : ℤ) < 2 ^ t.bits := by positivity
  unfold Contains min max
  split
  · omega
  · omega

theorem wrap_wrapSigned {w : ℕ} (hw : t.bits ≤ w) (x : ℤ) :
    t.wrap (wrapSigned w x) = t.wrap x := by
  have hdvd : 2 ^ t.bits ∣ 2 ^ w := Nat.pow_dvd_pow 2 hw
  unfold wrap
  split
  · exact Int.bmod_bmod_of_dvd hdvd
  · have hmod : (x.bmod (2 ^ w)) % ((2 ^ w : ℕ) : ℤ) = x % ((2 ^ w : ℕ) : ℤ) := Int.bmod_emod
    have hdvd' : ((2 : ℤ) ^ t.bits) ∣ ((2 ^ w : ℕ) : ℤ) := by exact_mod_cast hdvd
    unfold wrapUnsigned wrapSigned
    rw [← Int.emod_emod_of_dvd (x.bmod (2 ^ w)) hdvd', hmod, Int.emod_emod_of_dvd x hdvd']

theorem wrap_wrapUnsigned {w : ℕ} (hw : t.bits ≤ w) (x : ℤ) :
    t.wrap (wrapUnsigned w x) = t.wrap x := by
  have hdvd : 2 ^ t.bits ∣ 2 ^ w := Nat.pow_dvd_pow 2 hw
  unfold wrap
  split
  · unfold wrapSigned wrapUnsigned
    rw [← Int.emod_bmod (x % 2 ^ w), ← Int.emod_bmod x]
    congr 1
    push_cast
    exact Int.emod_emod_of_dvd x (by exact_mod_cast hdvd)
  · exact Int.emod_emod_of_dvd x (by exact_mod_cast hdvd)

end IntType

/-! ## Floor division from truncating division -/

theorem tmod_neg_iff {a b : ℤ} (hr : a.tmod b ≠ 0) : a.tmod b < 0 ↔ a < 0 := by
  by_cases ha : 0 ≤ a
  · have h := Int.tmod_nonneg b ha
    omega
  · have h := Int.tmod_nonneg b (a := -a) (by omega)
    rw [Int.neg_tmod] at h
    omega

theorem fdiv_of_tdiv {a b : ℤ} (hb : b ≠ 0) :
    (if a.tmod b ≠ 0 ∧ decide (a < 0) ≠ decide (b < 0) then a.tdiv b - 1 else a.tdiv b) =
      a.fdiv b := by
  rw [Int.fdiv_eq_tdiv]
  by_cases hr : a.tmod b = 0
  · simp [hr, Int.dvd_of_tmod_eq_zero hr]
  · have hdvd : ¬ b ∣ a := fun h => hr (Int.tmod_eq_zero_of_dvd h)
    simp only [ne_eq, hr, not_false_eq_true, true_and, decide_eq_decide, hdvd, if_false]
    by_cases ha : 0 ≤ a <;> by_cases hb' : 0 ≤ b
    · simp [ha, hb', Int.not_lt.mpr ha, Int.not_lt.mpr hb']
    · simp [ha, hb', Int.not_le.mp hb']
    · have hs : b.sign = 1 := Int.sign_eq_one_of_pos (by omega)
      simp [ha, hb', hs, Int.not_le.mp ha]
    · have hs : b.sign = -1 := Int.sign_eq_neg_one_of_neg (by omega)
      simp [ha, hb', hs, Int.not_le.mp ha, Int.not_le.mp hb']

theorem fmod_of_tmod {a b : ℤ} :
    (if a.tmod b ≠ 0 ∧ decide (a.tmod b < 0) ≠ decide (b < 0) then a.tmod b + b
      else a.tmod b) = a.fmod b := by
  rw [Int.fmod_eq_tmod]
  by_cases hr : a.tmod b = 0
  · simp [hr, Int.dvd_of_tmod_eq_zero hr]
  · have hdvd : ¬ b ∣ a := fun h => hr (Int.tmod_eq_zero_of_dvd h)
    simp only [ne_eq, hr, not_false_eq_true, true_and, decide_eq_decide, hdvd, if_false,
      tmod_neg_iff hr]
    by_cases ha : 0 ≤ a <;> by_cases hb' : 0 ≤ b
    · simp [ha, hb', Int.not_lt.mpr ha, Int.not_lt.mpr hb']
    · simp [ha, hb', Int.not_le.mp hb']
    · simp [ha, hb', Int.not_le.mp ha, abs_of_nonneg hb']
    · simp [ha, hb', Int.not_le.mp ha, Int.not_le.mp hb']
      omega

/-! ## Bitwise operations -/

theorem ldiff_le (m n : ℕ) : m.ldiff n ≤ m := by
  apply Nat.le_of_testBit
  intro i h
  rw [Nat.testBit_ldiff, Bool.and_eq_true] at h
  exact h.1

/-- `&` stays within the width of its operands. -/
theorem land_bounds {N w : ℕ} (hN : N = 2 ^ w) {x y : ℤ} (hx : -N ≤ x ∧ x < N)
    (hy : -N ≤ y ∧ y < N) : -N ≤ x.land y ∧ x.land y < N := by
  rcases x with m | m <;> rcases y with n | n
  · simp only [Int.ofNat_eq_natCast] at hx hy
    have h : m &&& n ≤ m := Nat.and_le_left
    show -(N : ℤ) ≤ (m &&& n : ℕ) ∧ ((m &&& n : ℕ) : ℤ) < N
    omega
  · simp only [Int.ofNat_eq_natCast] at hx
    have h : m.ldiff n ≤ m := ldiff_le m n
    show -(N : ℤ) ≤ (m.ldiff n : ℕ) ∧ ((m.ldiff n : ℕ) : ℤ) < N
    omega
  · simp only [Int.ofNat_eq_natCast] at hy
    have h : n.ldiff m ≤ n := ldiff_le n m
    show -(N : ℤ) ≤ (n.ldiff m : ℕ) ∧ ((n.ldiff m : ℕ) : ℤ) < N
    omega
  · have h : m ||| n < N := hN ▸ Nat.or_lt_two_pow (by omega) (by omega)
    show -(N : ℤ) ≤ Int.negSucc (m ||| n) ∧ Int.negSucc (m ||| n) < N
    omega

/-- `|` stays within the width of its operands. -/
theorem lor_bounds {N w : ℕ} (hN : N = 2 ^ w) {x y : ℤ} (hx : -N ≤ x ∧ x < N)
    (hy : -N ≤ y ∧ y < N) : -N ≤ x.lor y ∧ x.lor y < N := by
  rcases x with m | m <;> rcases y with n | n
  · simp only [Int.ofNat_eq_natCast] at hx hy
    have h : m ||| n < N := hN ▸ Nat.or_lt_two_pow (by omega) (by omega)
    show -(N : ℤ) ≤ (m ||| n : ℕ) ∧ ((m ||| n : ℕ) : ℤ) < N
    omega
  · simp only [Int.ofNat_eq_natCast] at hx
    have h : n.ldiff m ≤ n := ldiff_le n m
    show -(N : ℤ) ≤ Int.negSucc (n.ldiff m) ∧ Int.negSucc (n.ldiff m) < N
    omega
  · simp only [Int.ofNat_eq_natCast] at hy
    have h : m.ldiff n ≤ m := ldiff_le m n
    show -(N : ℤ) ≤ Int.negSucc (m.ldiff n) ∧ Int.negSucc (m.ldiff n) < N
    omega
  · have h : m &&& n ≤ m := Nat.and_le_left
    show -(N : ℤ) ≤ Int.negSucc (m &&& n) ∧ Int.negSucc (m &&& n) < N
    omega

/-- `^` stays within the width of its operands. -/
theorem xor_bounds {N w : ℕ} (hN : N = 2 ^ w) {x y : ℤ} (hx : -N ≤ x ∧ x < N)
    (hy : -N ≤ y ∧ y < N) : -N ≤ x.xor y ∧ x.xor y < N := by
  have hlt (m n : ℕ) (hm : m < N) (hn : n < N) : m ^^^ n < N := by
    subst hN
    exact Nat.xor_lt_two_pow hm hn
  rcases x with m | m <;> rcases y with n | n
  · simp only [Int.ofNat_eq_natCast] at hx hy
    have h := hlt m n (by omega) (by omega)
    show -(N : ℤ) ≤ (m ^^^ n : ℕ) ∧ ((m ^^^ n : ℕ) : ℤ) < N
    omega
  · simp only [Int.ofNat_eq_natCast] at hx
    have h := hlt m n (by omega) (by omega)
    show -(N : ℤ) ≤ Int.negSucc (m ^^^ n) ∧ Int.negSucc (m ^^^ n) < N
    omega
  · simp only [Int.ofNat_eq_natCast] at hy
    have h := hlt m n (by omega) (by omega)
    show -(N : ℤ) ≤ Int.negSucc (m ^^^ n) ∧ Int.negSucc (m ^^^ n) < N
    omega
  · have h := hlt m n (by omega) (by omega)
    show -(N : ℤ) ≤ (m ^^^ n : ℕ) ∧ ((m ^^^ n : ℕ) : ℤ) < N
    omega

theorem xor_nonneg {x y : ℤ} (hx : 0 ≤ x) (hy : 0 ≤ y) : 0 ≤ x.xor y := by
  obtain ⟨m, rfl⟩ := Int.eq_ofNat_of_zero_le hx
  obtain ⟨n, rfl⟩ := Int.eq_ofNat_of_zero_le hy
  exact Int.natCast_nonneg (m ^^^ n)

/-- Integers with the same bits are equal. -/
theorem eq_of_testBit {x y : ℤ} (h : ∀ k, x.testBit k = y.testBit k) : x = y := by
  -- far enough to the left all bits are those of the sign
  have hfar (m n : ℕ) : m.testBit (m + n) = false ∧ n.testBit (m + n) = false :=
    ⟨Nat.testBit_lt_two_pow (lt_of_le_of_lt (Nat.le_add_right m n) Nat.lt_two_pow_self),
      Nat.testBit_lt_two_pow (lt_of_le_of_lt (Nat.le_add_left n m) Nat.lt_two_pow_self)⟩
  rcases x with m | m <;> rcases y with n | n
  · exact congrArg Int.ofNat (Nat.eq_of_testBit_eq h)
  · have hk : m.testBit (m + n) = !n.testBit (m + n) := h (m + n)
    rw [(hfar m n).1, (hfar m n).2] at hk
    cases hk
  · have hk : (!m.testBit (m + n)) = n.testBit (m + n) := h (m + n)
    rw [(hfar m n).1, (hfar m n).2] at hk
    cases hk
  · refine congrArg Int.negSucc (Nat.eq_of_testBit_eq fun k => ?_)
    have hk : (!m.testBit k) = !n.testBit k := h k
    simpa using hk

theorem land_comm (x y : ℤ) : x.land y = y.land x :=
  eq_of_testBit fun k => by rw [Int.testBit_land, Int.testBit_land, Bool.and_comm]

theorem lor_comm (x y : ℤ) : x.lor y = y.lor x :=
  eq_of_testBit fun k => by rw [Int.testBit_lor, Int.testBit_lor, Bool.or_comm]

theorem xor_comm (x y : ℤ) : x.xor y = y.xor x :=
  eq_of_testBit fun k => by rw [Int.testBit_lxor, Int.testBit_lxor, Bool.xor_comm]

theorem land_assoc (x y z : ℤ) : (x.land y).land z = x.land (y.land z) :=
  eq_of_testBit fun k => by simp only [Int.testBit_land, Bool.and_assoc]

theorem lor_assoc (x y z : ℤ) : (x.lor y).lor z = x.lor (y.lor z) :=
  eq_of_testBit fun k => by simp only [Int.testBit_lor, Bool.or_assoc]

theorem xor_assoc (x y z : ℤ) : (x.xor y).xor z = x.xor (y.xor z) :=
  eq_of_testBit fun k => by simp only [Int.testBit_lxor, Bool.xor_assoc]

/-- A mask that is not negative bounds the result of `&`. -/
theorem land_le_mask (x : ℤ) {m : ℤ} (hm : 0 ≤ m) : 0 ≤ x.land m ∧ x.land m ≤ m := by
  obtain ⟨n, rfl⟩ := Int.eq_ofNat_of_zero_le hm
  rcases x with k | k
  · have h : k &&& n ≤ n := Nat.and_le_right
    show 0 ≤ ((k &&& n : ℕ) : ℤ) ∧ ((k &&& n : ℕ) : ℤ) ≤ n
    omega
  · have h : n.ldiff k ≤ n := ldiff_le n k
    show 0 ≤ ((n.ldiff k : ℕ) : ℤ) ∧ ((n.ldiff k : ℕ) : ℤ) ≤ n
    omega

theorem lor_nonneg {x y : ℤ} (hx : 0 ≤ x) (hy : 0 ≤ y) : 0 ≤ x.lor y := by
  obtain ⟨m, rfl⟩ := Int.eq_ofNat_of_zero_le hx
  obtain ⟨n, rfl⟩ := Int.eq_ofNat_of_zero_le hy
  exact Int.natCast_nonneg (m ||| n)

/-! ## Quotients within the width of the dividend -/

/-- A truncated quotient stays in the type, except for the least value over `-1`; when the
    division leaves a remainder, the quotient is at most half the dividend. -/
theorem tdiv_bounds {N x y : ℤ} (hx : -N ≤ x ∧ x < N) (hy : y ≠ 0)
    (hmin : ¬ (x = -N ∧ y = -1)) :
    (-N ≤ x.tdiv y ∧ x.tdiv y < N) ∧ (x.tmod y ≠ 0 → -N < x.tdiv y) := by
  by_cases h1 : y = 1
  · subst h1
    simp only [Int.tdiv_one, Int.tmod_one]
    omega
  · by_cases h2 : y = -1
    · subst h2
      have hq : x.tdiv (-1) = -x := by rw [Int.tdiv_neg, Int.tdiv_one]
      have hr : x.tmod (-1) = 0 := by rw [Int.tmod_neg, Int.tmod_one]
      rw [hq, hr]
      omega
    · have hle : (x.tdiv y).natAbs ≤ x.natAbs / 2 := by
        rw [Int.natAbs_tdiv]
        exact Nat.div_le_div_left (by omega) (by decide)
      omega

theorem ediv_pow_bounds {N x : ℤ} (hx : -N ≤ x ∧ x < N) (k : ℕ) :
    -N ≤ x / 2 ^ k ∧ x / 2 ^ k < N := by
  have hpos : (0 : ℤ) < 2 ^ k := by positivity
  by_cases h : 0 ≤ x
  · have h0 := Int.ediv_nonneg h hpos.le
    have h1 := Int.ediv_le_self (2 ^ k) h
    omega
  · have h0 := Int.ediv_neg_of_neg_of_pos (by omega : x < 0) hpos
    have h1 : x ≤ x / 2 ^ k := by
      rw [Int.le_ediv_iff_mul_le hpos]
      have : x * 2 ^ k ≤ x * 1 := Int.mul_le_mul_of_nonpos_left (by omega) (by omega)
      omega
    omega

/-! ## Powers of two -/

/-- The remainder of a division by a power of two is its low bits. -/
theorem fmod_two_pow (x : ℤ) (k : ℕ) : x.fmod (2 ^ k) = x.land (2 ^ k - 1) := by
  have hpos : 0 < 2 ^ k := Nat.two_pow_pos k
  have hmask : (2 : ℤ) ^ k - 1 = ((2 ^ k - 1 : ℕ) : ℤ) := by
    rw [Nat.cast_sub hpos]
    push_cast
    rfl
  have hpow : (2 : ℤ) ^ k = ((2 ^ k : ℕ) : ℤ) := by push_cast; rfl
  rw [hmask, hpow, Int.fmod_eq_emod_of_nonneg _ (Int.natCast_nonneg _)]
  rcases x with m | m
  · show ((m % 2 ^ k : ℕ) : ℤ) = ((m &&& (2 ^ k - 1) : ℕ) : ℤ)
    rw [Nat.and_two_pow_sub_one_eq_mod]
  · -- the low bits of a negative number are the complements of those of its predecessor's size
    have hlow : (2 ^ k - 1).ldiff m = 2 ^ k - (m % 2 ^ k + 1) := by
      apply Nat.eq_of_testBit_eq
      intro i
      rw [Nat.testBit_ldiff, Nat.testBit_two_pow_sub_one,
        Nat.testBit_two_pow_sub_succ (Nat.mod_lt m hpos), Nat.testBit_mod_two_pow]
      by_cases hi : i < k <;> simp [hi]
    show Int.negSucc m % ((2 ^ k : ℕ) : ℤ) = (((2 ^ k - 1).ldiff m : ℕ) : ℤ)
    have hlt := Nat.mod_lt m hpos
    rw [hlow, Int.negSucc_emod m (Int.natCast_pos.mpr hpos)]
    omega

/-- A truncated quotient by a power of two rounds the dividend up where it is negative. -/
theorem tdiv_two_pow (x : ℤ) (k : ℕ) :
    x.tdiv (2 ^ k) = (x + if x < 0 then 2 ^ k - 1 else 0) / 2 ^ k := by
  have hpos : (0 : ℤ) < 2 ^ k := by positivity
  have hmod := Int.emod_nonneg x hpos.ne'
  have hlt := Int.emod_lt_of_pos x hpos
  have hsplit := Int.mul_ediv_add_emod x (2 ^ k)
  rw [Int.tdiv_eq_ediv]
  by_cases hx : x < 0
  · rw [if_pos hx]
    by_cases hdvd : (2 : ℤ) ^ k ∣ x
    · have hzero : ((2 : ℤ) ^ k - 1) / 2 ^ k = 0 := Int.ediv_eq_zero_of_lt (by omega) (by omega)
      rw [if_pos (Or.inr hdvd), Int.add_zero, Int.add_comm x, Int.add_ediv_of_dvd_right hdvd,
        hzero, Int.zero_add]
    · have hne : x % 2 ^ k ≠ 0 := fun h => hdvd (Int.dvd_of_emod_eq_zero h)
      have hround : x + (2 ^ k - 1) = (x % 2 ^ k - 1) + 2 ^ k * (x / 2 ^ k + 1) := by
        rw [Int.mul_add, Int.mul_one]
        omega
      have hzero : (x % 2 ^ k - 1) / 2 ^ k = 0 := Int.ediv_eq_zero_of_lt (by omega) (by omega)
      have hneg : ¬ (0 ≤ x ∨ (2 : ℤ) ^ k ∣ x) := fun h => h.elim (by omega) hdvd
      rw [if_neg hneg, Int.sign_eq_one_of_pos hpos, hround, Int.add_mul_ediv_left _ _ hpos.ne',
        hzero, Int.zero_add]
  · rw [if_neg hx, if_pos (Or.inl (Int.not_lt.mp hx)), Int.add_zero, Int.add_zero]

end Svod.Lib
