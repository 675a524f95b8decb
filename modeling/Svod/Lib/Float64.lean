/-
  Svod.Lib.Float64

  Double precision numbers as rationals with the two infinities.

  A finite double is an integer of at most 53 bits times a power of two; an
  operation rounds its exact result to the nearest one, ties to even.  The sign
  of a zero is not kept.  An operation is exact where its result needs no more
  than 53 bits, and so are the multiplications of an integer power.
-/

import Mathlib.Algebra.Order.Archimedean.Basic
import Mathlib.Data.Int.Log
import Mathlib.Data.Nat.Factorization.Basic

namespace Svod.Float64

inductive F64 where
  | finite (q : ℚ)
  | inf (negative : Bool)
  | nan
  deriving DecidableEq

/-- The nearest integer, ties to even. -/
def roundEven (q : ℚ) : ℤ :=
  let n := ⌊q⌋
  if q - n < 1 / 2 then n
  else if 1 / 2 < q - n then n + 1
  else if n % 2 = 0 then n
  else n + 1

/-- The exponent of the last place of a number, that of the least double at the bottom. -/
def lastPlace (q : ℚ) : ℤ := max (Int.log 2 |q| - 52) (-1074)

def ofRat (q : ℚ) : F64 :=
  if q = 0 then .finite 0
  else
    let v := (roundEven (q / 2 ^ lastPlace q) : ℚ) * 2 ^ lastPlace q
    if 2 ^ 1024 ≤ |v| then .inf (q < 0) else .finite v

def ofInt (n : ℤ) : F64 := ofRat n

def mul : F64 → F64 → F64
  | .finite a, .finite b => ofRat (a * b)
  | .inf s, .finite b | .finite b, .inf s => if b = 0 then .nan else .inf (s != decide (b < 0))
  | .inf s, .inf s' => .inf (s != s')
  | .nan, _ | _, .nan => .nan

/-- One over a number. -/
def recip : F64 → F64
  | .finite q => if q = 0 then .inf false else ofRat (1 / q)
  | .inf _ => .finite 0
  | .nan => .nan

/-- Towards zero, saturating at the ends of an integer type. -/
def toInt (lo hi : ℤ) : F64 → ℤ
  | .finite q => max lo (min hi (if 0 ≤ q then ⌊q⌋ else ⌈q⌉))
  | .inf s => if s then lo else hi
  | .nan => 0

/-- Repeated squaring: `r` times `a` to the power `n`; as many steps as `n` has bits. -/
def powLoop : ℕ → F64 → F64 → ℕ → F64
  | 0, r, _, _ => r
  | steps + 1, r, a, n =>
    let r := if n % 2 = 1 then mul r a else r
    if n / 2 = 0 then r else powLoop steps r (mul a a) (n / 2)

/-- `powi` with an exponent of 32 bits. -/
def powi (a : F64) (n : ℤ) : F64 :=
  let r := powLoop 32 (.finite 1) a n.natAbs
  if n < 0 then recip r else r

/-! ## Numbers of 53 bits -/

/-- At most 53 significant bits. -/
def Representable (q : ℚ) : Prop := ∃ m e : ℤ, |m| < 2 ^ 53 ∧ q = m * 2 ^ e

theorem roundEven_intCast (n : ℤ) : roundEven n = n := by
  simp [roundEven]

theorem floor_le_roundEven (q : ℚ) : ⌊q⌋ ≤ roundEven q ∧ roundEven q ≤ ⌊q⌋ + 1 := by
  simp only [roundEven]
  split_ifs <;> omega

theorem abs_lt_lastPlace (q : ℚ) : |q| < 2 ^ 53 * 2 ^ lastPlace q := by
  have hlog : |q| < (2 : ℚ) ^ (Int.log 2 |q| + 1) := by
    have := Int.lt_zpow_succ_log_self (R := ℚ) (b := 2) (by decide) |q|
    exact_mod_cast this
  have hle : Int.log 2 |q| + 1 ≤ 53 + lastPlace q := by
    have := le_max_left (Int.log 2 |q| - 52) (-1074)
    rw [lastPlace]
    omega
  calc |q| < (2 : ℚ) ^ (Int.log 2 |q| + 1) := hlog
    _ ≤ 2 ^ (53 + lastPlace q) := zpow_le_zpow_right₀ (by norm_num) hle
    _ = 2 ^ 53 * 2 ^ lastPlace q := by
      rw [zpow_add₀ (by norm_num)]
      norm_num

/-- A number of 53 bits that is not too small is a whole number of its last places. -/
theorem exists_eq_lastPlace {q : ℚ} (hq : q ≠ 0) {m e : ℤ} (hm : |m| < 2 ^ 53)
    (he : -1074 ≤ e) (heq : q = m * 2 ^ e) : ∃ n : ℤ, q = n * 2 ^ lastPlace q := by
  -- the last place is not above `e`
  have hle : lastPlace q ≤ e := by
    rw [lastPlace]
    refine max_le ?_ he
    have hlog : (2 : ℚ) ^ Int.log 2 |q| ≤ |q| := by
      have := Int.zpow_log_le_self (R := ℚ) (b := 2) (by decide) (abs_pos.mpr hq)
      exact_mod_cast this
    have habs : |q| < (2 : ℚ) ^ (53 + e) := by
      rw [heq, abs_mul, abs_of_pos (zpow_pos (by norm_num) e : (0 : ℚ) < 2 ^ e),
        zpow_add₀ (by norm_num)]
      refine mul_lt_mul_of_pos_right ?_ (zpow_pos (by norm_num) e)
      exact_mod_cast hm
    have := (zpow_lt_zpow_iff_right₀ (by norm_num : (1 : ℚ) < 2)).mp (hlog.trans_lt habs)
    omega
  refine ⟨m * 2 ^ (e - lastPlace q).toNat, ?_⟩
  have hsplit : (2 : ℚ) ^ e = 2 ^ (e - lastPlace q).toNat * 2 ^ lastPlace q := by
    rw [← zpow_natCast, Int.toNat_of_nonneg (by omega), ← zpow_add₀ (by norm_num)]
    congr 1
    omega
  push_cast
  rw [mul_assoc, ← hsplit, heq]

/-- A number of 53 bits in range is its own rounding. -/
theorem ofRat_exact {q : ℚ} {m e : ℤ} (hm : |m| < 2 ^ 53) (he : -1074 ≤ e) (heq : q = m * 2 ^ e)
    (hrange : |q| < 2 ^ 1024) : ofRat q = .finite q := by
  rw [ofRat]
  by_cases hq : q = 0
  · rw [if_pos hq, hq]
  · obtain ⟨n, hn⟩ := exists_eq_lastPlace hq hm he heq
    have hdiv : q / 2 ^ lastPlace q = n := by
      rw [div_eq_iff (zpow_ne_zero _ (by norm_num))]
      exact hn
    rw [if_neg hq]
    simp only [hdiv, roundEven_intCast, ← hn]
    rw [if_neg (not_le.mpr hrange)]

/-- A finite result has at most 53 bits. -/
theorem representable_of_ofRat {q v : ℚ} (h : ofRat q = .finite v) : Representable v := by
  rw [ofRat] at h
  by_cases hq : q = 0
  · rw [if_pos hq] at h
    cases h
    exact ⟨0, 0, by norm_num, by norm_num⟩
  · rw [if_neg hq] at h
    simp only at h
    split at h
    · cases h
    · cases h
      -- the rounded significand may be the power of two above 53 bits
      have hpos : (0 : ℚ) < 2 ^ lastPlace q := zpow_pos (by norm_num) _
      have habs : |q / 2 ^ lastPlace q| < 2 ^ 53 := by
        rw [abs_div, abs_of_pos hpos, div_lt_iff₀ hpos]
        exact abs_lt_lastPlace q
      obtain ⟨hlow, hhigh⟩ := abs_lt.mp habs
      obtain ⟨hfloor, hceil⟩ := floor_le_roundEven (q / 2 ^ lastPlace q)
      have hlow' : -2 ^ 53 ≤ ⌊q / 2 ^ lastPlace q⌋ := Int.le_floor.mpr (by push_cast; exact hlow.le)
      have hhigh' : ⌊q / 2 ^ lastPlace q⌋ < 2 ^ 53 := Int.floor_lt.mpr (by push_cast; exact hhigh)
      generalize roundEven (q / 2 ^ lastPlace q) = n at hfloor hceil
      rcases lt_or_ge |n| (2 ^ 53) with hlt | hge
      · exact ⟨n, lastPlace q, hlt, rfl⟩
      · have hn : n = 2 ^ 53 ∨ n = -2 ^ 53 := by
          rcases le_abs.mp hge with h | h
          · left; omega
          · right; omega
        have hone : (2 : ℚ) ^ (53 + lastPlace q) = 2 ^ 53 * 2 ^ lastPlace q := by
          rw [zpow_add₀ (by norm_num)]
          norm_num
        rcases hn with rfl | rfl
        · exact ⟨1, 53 + lastPlace q, by norm_num, by rw [hone]; norm_num⟩
        · exact ⟨-1, 53 + lastPlace q, by norm_num, by rw [hone]; norm_num⟩

/-! ## Integers of 53 bits -/

/-- At most 53 significant bits, of an integer. -/
def Fits (n : ℤ) : Prop := ∃ m s : ℕ, m < 2 ^ 53 ∧ n.natAbs = m * 2 ^ s

theorem fits_of_abs_lt {n : ℤ} (h : |n| < 2 ^ 53) : Fits n :=
  ⟨n.natAbs, 0, by zify; exact h, by simp⟩

theorem fits_of_representable {n : ℤ} (h : Representable n) : Fits n := by
  obtain ⟨m, e, hm, heq⟩ := h
  rcases le_or_gt 0 e with he | he
  · refine ⟨m.natAbs, e.toNat, by zify; exact hm, ?_⟩
    have hint : n = m * 2 ^ e.toNat := by
      have : ((m * 2 ^ e.toNat : ℤ) : ℚ) = n := by
        rw [heq]
        push_cast
        rw [← zpow_natCast, Int.toNat_of_nonneg he]
      exact_mod_cast this.symm
    rw [hint, Int.natAbs_mul, Int.natAbs_pow]
    rfl
  · -- below one the power only makes the number smaller
    refine fits_of_abs_lt ?_
    have hpow : (2 : ℚ) ^ e ≤ 1 := zpow_le_one_of_nonpos₀ (by norm_num) he.le
    have habs : |(n : ℚ)| ≤ |(m : ℚ)| := by
      rw [heq, abs_mul, abs_of_pos (zpow_pos (by norm_num) e : (0 : ℚ) < 2 ^ e)]
      exact mul_le_of_le_one_right (abs_nonneg _) hpow
    have : |n| ≤ |m| := by exact_mod_cast habs
    exact this.trans_lt hm

/-- A smaller power of a number has no more bits. -/
theorem Fits.pow_of_le {a : ℤ} {n j : ℕ} (h : Fits (a ^ n)) (hj : j ≤ n) : Fits (a ^ j) := by
  by_cases ha : a = 0
  · refine fits_of_abs_lt ?_
    subst ha
    rcases Nat.eq_zero_or_pos j with rfl | hpos
    · norm_num
    · rw [zero_pow hpos.ne']
      norm_num
  · obtain ⟨t, u, hodd, hsplit⟩ :=
      Nat.exists_eq_two_pow_mul_odd (n := a.natAbs) (Int.natAbs_ne_zero.mpr ha)
    obtain ⟨m, s, hm, heq⟩ := h
    rw [Int.natAbs_pow] at heq
    -- the odd part of the greater power is in the significand
    have hdvd : u ^ n ∣ m := by
      have hcoprime : Nat.Coprime (u ^ n) (2 ^ s) :=
        Nat.Coprime.pow _ _ (Nat.coprime_two_right.mpr hodd)
      refine hcoprime.dvd_of_dvd_mul_right ?_
      rw [← heq, hsplit, mul_pow]
      exact dvd_mul_left _ _
    have hpos : 0 < m := by
      refine Nat.pos_of_ne_zero fun hm0 => ?_
      rw [hm0, zero_mul] at heq
      exact pow_ne_zero n (Int.natAbs_ne_zero.mpr ha) heq
    have hle : u ^ j ≤ u ^ n := Nat.pow_le_pow_right hodd.pos hj
    refine ⟨u ^ j, t * j, (hle.trans (Nat.le_of_dvd hpos hdvd)).trans_lt hm, ?_⟩
    rw [Int.natAbs_pow, hsplit, mul_pow, ← pow_mul, mul_comm]

theorem ofRat_intCast {n : ℤ} (h : Fits n) (hrange : |n| < 2 ^ 1024) :
    ofRat n = .finite n := by
  obtain ⟨m, s, hm, heq⟩ := h
  have hrange' : |(n : ℚ)| < 2 ^ 1024 := by
    have := Int.cast_lt (R := ℚ).mpr hrange
    rwa [Int.cast_abs, Int.cast_pow, Int.cast_ofNat] at this
  rcases Int.natAbs_eq n with hn | hn
  · refine ofRat_exact (m := m) (e := s) (by simpa using hm) (by omega) ?_ hrange'
    rw [hn, heq]
    push_cast
    rw [zpow_natCast]
  · refine ofRat_exact (m := -m) (e := s) (by simpa using hm) (by omega) ?_ hrange'
    rw [hn, heq]
    push_cast
    rw [zpow_natCast, neg_mul]

/-! ## Integer powers -/

/-- Where every power up to the last is exact, so is repeated squaring. -/
theorem powLoop_exact {a : ℚ} {total : ℕ} (hexact : ∀ j ≤ total, ofRat (a ^ j) = .finite (a ^ j))
    {steps : ℕ} {i k n : ℕ} (hn : n < 2 ^ steps) (htotal : i + k * n ≤ total) :
    powLoop steps (.finite (a ^ i)) (.finite (a ^ k)) n = .finite (a ^ (i + k * n)) := by
  induction steps generalizing i k n with
  | zero =>
    obtain rfl : n = 0 := by simpa using hn
    rfl
  | succ steps ih =>
    have hsplit : n % 2 + 2 * (n / 2) = n := Nat.mod_add_div n 2
    have hmul : k * n = k * (n % 2) + 2 * k * (n / 2) := by
      conv_lhs => rw [← hsplit]
      ring
    have hr : (if n % 2 = 1 then mul (.finite (a ^ i)) (.finite (a ^ k)) else .finite (a ^ i)) =
        .finite (a ^ (i + k * (n % 2))) := by
      rcases Nat.mod_two_eq_zero_or_one n with hbit | hbit
      · simp [hbit]
      · rw [hbit, if_pos rfl, mul, ← pow_add, mul_one]
        refine hexact _ ?_
        rw [hbit, mul_one] at hmul
        omega
    simp only [powLoop, hr]
    by_cases hlast : n / 2 = 0
    · rw [if_pos hlast, hmul, hlast, mul_zero, add_zero]
    · have hsquare : mul (.finite (a ^ k)) (.finite (a ^ k)) = .finite (a ^ (2 * k)) := by
        rw [mul, ← pow_add, ← two_mul]
        refine hexact _ ?_
        have := Nat.le_mul_of_pos_right (2 * k) (Nat.pos_of_ne_zero hlast)
        omega
      rw [if_neg hlast, hsquare, ih (by rw [pow_succ] at hn; omega) (by omega), hmul, add_assoc]

theorem representable_of_mul {a b : F64} {v : ℚ} (h : mul a b = .finite v) : Representable v := by
  cases a with
  | finite x =>
    cases b with
    | finite y => exact representable_of_ofRat h
    | inf s =>
      simp only [mul] at h
      split at h <;> cases h
    | nan => cases h
  | inf s =>
    cases b with
    | finite y =>
      simp only [mul] at h
      split at h <;> cases h
    | inf s' => cases h
    | nan => cases h
  | nan => cases b <;> cases h

/-- A finite result of the loop has at most 53 bits. -/
theorem representable_of_powLoop {steps : ℕ} {r a : F64} {n : ℕ} {v : ℚ}
    (hr : ∀ v, r = .finite v → Representable v) (h : powLoop steps r a n = .finite v) :
    Representable v := by
  induction steps generalizing r a n with
  | zero => exact hr v h
  | succ steps ih =>
    have hnext : ∀ v, (if n % 2 = 1 then mul r a else r) = .finite v → Representable v := by
      intro v hv
      split at hv
      · exact representable_of_mul hv
      · exact hr v hv
    simp only [powLoop] at h
    split at h
    · exact hnext v h
    · exact ih hnext h

/-- A finite power has at most 53 bits. -/
theorem representable_of_powi {a : F64} {n : ℤ} {v : ℚ} (h : powi a n = .finite v) :
    Representable v := by
  have hone : ∀ v, F64.finite 1 = .finite v → Representable v := by
    intro v hv
    cases hv
    exact ⟨1, 0, by norm_num, by norm_num⟩
  simp only [powi] at h
  split at h
  · cases hloop : powLoop 32 (.finite 1) a n.natAbs with
    | finite q =>
      rw [hloop, recip] at h
      split at h
      · cases h
      · exact representable_of_ofRat h
    | inf s =>
      rw [hloop] at h
      cases h
      exact ⟨0, 0, by norm_num, by norm_num⟩
    | nan =>
      rw [hloop] at h
      cases h
  · exact representable_of_powLoop hone h

/-- A power of an integer that has at most 53 bits is exact. -/
theorem powi_exact {a : ℤ} {n : ℕ} (hfits : Fits (a ^ n)) (hrange : |a ^ n| < 2 ^ 1024)
    (hn : n < 2 ^ 31) : powi (ofInt a) n = .finite (a ^ n) := by
  have hexact : ∀ j ≤ n, ofRat ((a : ℚ) ^ j) = .finite ((a : ℚ) ^ j) := by
    intro j hj
    have hle : |a ^ j| < 2 ^ 1024 := by
      rw [abs_pow] at hrange ⊢
      rcases eq_or_ne a 0 with rfl | ha
      · refine lt_of_le_of_lt (pow_le_one₀ (abs_nonneg _) (by norm_num)) ?_
        exact one_lt_pow₀ (by norm_num) (by norm_num)
      · exact (pow_le_pow_right₀ (Int.one_le_abs ha) hj).trans_lt hrange
    have := ofRat_intCast (hfits.pow_of_le hj) hle
    rwa [Int.cast_pow] at this
  rw [powi, if_neg (by omega), Int.natAbs_natCast, ofInt]
  rcases Nat.eq_zero_or_pos n with rfl | hpos
  · rw [pow_zero]
    rfl
  · have hbase := hexact 1 hpos
    rw [pow_one] at hbase
    have hloop := powLoop_exact (i := 0) (k := 1) hexact (hn.trans (by norm_num) : n < 2 ^ 32)
      (by omega)
    rw [pow_zero, pow_one, Nat.zero_add, Nat.one_mul] at hloop
    rw [hbase]
    exact hloop

/-! ## Back to an integer -/

theorem toInt_bounds {lo hi : ℤ} (hlo : lo ≤ 0) (hhi : 0 ≤ hi) (x : F64) :
    lo ≤ toInt lo hi x ∧ toInt lo hi x ≤ hi := by
  cases x with
  | finite q => exact ⟨le_max_left _ _, max_le (hlo.trans hhi) (min_le_left _ _)⟩
  | inf s => cases s <;> simp [toInt, hlo.trans hhi]
  | nan => exact ⟨hlo, hhi⟩

theorem toInt_intCast {lo hi n : ℤ} (hlo : lo ≤ n) (hhi : n ≤ hi) :
    toInt lo hi (.finite n) = n := by
  simp [toInt, hlo, hhi]

/-- A whole number read back is one of 53 bits or an end of the type. -/
theorem fits_of_toInt {lo hi : ℤ} {x : F64} (h : ∀ v, x = .finite v → Representable v) :
    Fits (toInt lo hi x) ∨ toInt lo hi x = lo ∨ toInt lo hi x = hi := by
  cases x with
  | finite q =>
    obtain ⟨m, e, hm, heq⟩ := h q rfl
    simp only [toInt]
    generalize hn : (if 0 ≤ q then ⌊q⌋ else ⌈q⌉) = n
    by_cases hfits : Fits n
    · rcases le_total lo (min hi n) with hlo | hlo
      · rw [max_eq_right hlo]
        rcases le_total hi n with hhi | hhi
        · rw [min_eq_left hhi]
          exact .inr (.inr rfl)
        · rw [min_eq_right hhi]
          exact .inl hfits
      · rw [max_eq_left hlo]
        exact .inr (.inl rfl)
    · -- a number of 53 bits above them is whole
      refine absurd (fits_of_representable ⟨m, e, hm, ?_⟩) hfits
      have hpow : (0 : ℚ) < 2 ^ e := zpow_pos (by norm_num) e
      have hm' : |(m : ℚ)| < 2 ^ 53 := by exact_mod_cast hm
      have he : 0 ≤ e := by
        by_contra hneg
        refine hfits (fits_of_abs_lt ?_)
        have hone : (2 : ℚ) ^ e ≤ 1 := zpow_le_one_of_nonpos₀ (by norm_num) (by omega)
        have habs : |q| < 2 ^ 53 := by
          rw [heq, abs_mul, abs_of_pos hpow]
          exact (mul_le_of_le_one_right (abs_nonneg _) hone).trans_lt hm'
        obtain ⟨hlow, hhigh⟩ := abs_lt.mp habs
        rw [← hn, abs_lt]
        split
        · next hq =>
          have hfloor : (0 : ℤ) ≤ ⌊q⌋ := Int.floor_nonneg.mpr hq
          exact ⟨by omega, Int.floor_lt.mpr (by push_cast; exact hhigh)⟩
        · next hq =>
          have hceil : ⌈q⌉ ≤ (0 : ℤ) := Int.ceil_le.mpr (by push_cast; exact (not_le.mp hq).le)
          exact ⟨Int.lt_ceil.mpr (by push_cast; exact hlow), by omega⟩
      have hwhole : q = ((m * 2 ^ e.toNat : ℤ) : ℚ) := by
        rw [heq]
        push_cast
        rw [← zpow_natCast, Int.toNat_of_nonneg he]
      rw [← heq, ← hn, hwhole, Int.floor_intCast, Int.ceil_intCast, ite_self]
  | inf s =>
    cases s
    · exact .inr (.inr rfl)
    · exact .inr (.inl rfl)
  | nan => exact .inl (fits_of_abs_lt (by norm_num [toInt]))

end Svod.Float64
