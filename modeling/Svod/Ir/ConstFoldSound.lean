/-
  Svod.Ir.ConstFoldSound

  A folded constant is the exact result reduced to the type, but for powers that
  do not pass through a double unchanged.

  `powThroughF64_eq_iff` says which powers do: those of at most 53 significant
  bits in the 64-bit word, the exponent being read as an `i32`.
-/

import Mathlib.Data.Nat.Prime.Int
import Mathlib.Tactic.NormNum.Prime
import Svod.Ir.ConstFold
import Svod.Ir.RangeEvalBinary

namespace Svod.Ir

open Svod.Lib Svod.Float64 ConstValue

/-! ## The exact results -/

/-- The result before it is reduced to the type. -/
def FoldOp.apply : FoldOp → ℤ → ℤ → ℤ
  | .ranged op, x, y => op.apply x y
  | .pow, x, y => x ^ y.toNat
  | .xor, x, y => x.xor y

/-- Divisors are not zero, shift amounts are below the width, exponents are not negative. -/
def FoldOp.defined (op : FoldOp) (t : IntType) (y : ℤ) : Bool :=
  match op with
  | .ranged op => op.defined t y
  | .pow => 0 ≤ y
  | .xor => true

/-- Not a comparison. -/
def FoldOp.isArithmetic : FoldOp → Bool
  | .ranged op => !op.isComparison
  | .pow | .xor => true

theorem wordBits_pos : 0 < 64 := by decide

/-- The 64-bit word that constants of a type are held in. -/
def wordType (s : ScalarDType) : IntType := ⟨!s.isUnsigned, 64, wordBits_pos⟩

/-- A power that passes through a double: it is in the word and has at most 53 significant bits, or
    is the greatest of the word; a power of zero is of an exponent that is positive as an `i32`. -/
def PowThrough (t : IntType) (x y : ℤ) : Prop :=
  t.Contains (x ^ y.toNat) ∧ (Fits (x ^ y.toNat) ∨ x ^ y.toNat = t.max) ∧
    (x = 0 → y = 0 ∨ 0 < wrapSigned 32 y)

/-! ## Powers through doubles -/

theorem wrapSigned_32_bounds (y : ℤ) : -2 ^ 31 ≤ wrapSigned 32 y ∧ wrapSigned 32 y < 2 ^ 31 :=
  wrapSigned_bounds (by decide) y

theorem fits_of_natAbs_le_one {n : ℤ} (h : n.natAbs ≤ 1) : Fits n := by
  refine fits_of_abs_lt ?_
  have : |n| ≤ 1 := by zify at h; exact h
  omega

theorem powi_natCast {x : ℤ} {n : ℕ} (hx : x.natAbs ≤ 1) (hn : n < 2 ^ 31) :
    powi (ofInt x) n = .finite (x ^ n) := by
  have hle : (x ^ n).natAbs ≤ 1 := by
    rw [Int.natAbs_pow]
    exact pow_le_one₀ (Nat.zero_le _) hx
  refine powi_exact (fits_of_natAbs_le_one hle) ?_ hn
  have : |x ^ n| ≤ 1 := by zify at hle; exact hle
  exact this.trans_lt (one_lt_pow₀ (by norm_num) (by norm_num))

/-- A power of a unit, also of an exponent that is negative as an `i32`. -/
theorem powi_unit {x : ℤ} (hx : x = 1 ∨ x = -1) {n : ℤ} (hlo : -2 ^ 31 ≤ n) (hhi : n < 2 ^ 31) :
    powi (ofInt x) n = .finite ((x ^ n.natAbs : ℤ)) := by
  have habs : x.natAbs ≤ 1 := by rcases hx with rfl | rfl <;> decide
  have hunit : ∀ j : ℕ, x ^ j = 1 ∨ x ^ j = -1 := by
    intro j
    rcases hx with rfl | rfl
    · exact .inl (one_pow j)
    · exact neg_one_pow_eq_or ℤ j
  rcases le_or_gt 0 n with hn | hn
  · obtain ⟨k, rfl⟩ := Int.eq_ofNat_of_zero_le hn
    rw [powi_natCast habs (by omega), Int.natAbs_natCast, Int.cast_pow]
  · have hexact : ∀ j ≤ n.natAbs, ofRat ((x : ℚ) ^ j) = .finite ((x : ℚ) ^ j) := by
      intro j _
      have hfits : Fits (x ^ j) := by
        rcases hunit j with h | h <;> rw [h] <;> exact fits_of_abs_lt (by norm_num)
      have hrange : |x ^ j| < 2 ^ 1024 := by
        rcases hunit j with h | h <;> rw [h] <;> simp only [abs_neg, abs_one] <;>
          exact one_lt_pow₀ (by norm_num) (by norm_num)
      have := ofRat_intCast hfits hrange
      rwa [Int.cast_pow] at this
    have hbase := hexact 1 (by omega)
    rw [pow_one] at hbase
    have hloop := powLoop_exact (i := 0) (k := 1) hexact
      (show n.natAbs < 2 ^ 32 by omega) (by omega)
    rw [pow_zero, pow_one, Nat.zero_add, Nat.one_mul] at hloop
    -- one over a unit is the unit
    rw [powi, if_pos hn, ofInt, hbase, hloop, recip]
    rcases hunit n.natAbs with h | h
    · have hq : (x : ℚ) ^ n.natAbs = 1 := by exact_mod_cast h
      rw [hq, h, if_neg one_ne_zero, one_div_one]
      have := hexact 0 (by omega)
      rw [pow_zero] at this
      rw [this, Int.cast_one]
    · have hq : (x : ℚ) ^ n.natAbs = -1 := by exact_mod_cast h
      have := hexact n.natAbs (by omega)
      rw [hq] at this
      rw [hq, h, if_neg (by norm_num), one_div_neg_one_eq_neg_one, this, Int.cast_neg, Int.cast_one]

/-- The parity of an exponent survives its reading as an `i32`. -/
theorem natAbs_wrapSigned_mod_two (y : ℤ) (hy : 0 ≤ y) :
    (wrapSigned 32 y).natAbs % 2 = y.toNat % 2 := by
  obtain ⟨q, hq⟩ := dvd_sub_wrapSigned 32 y
  omega

/-- The greatest value of a 64-bit word is no power but the first. -/
theorem eq_one_of_pow_eq_max {t : IntType} (ht : t.bits = 64) {x : ℤ} {n : ℕ}
    (h : x ^ n = t.max) : n = 1 := by
  have hsingle : ∀ p : ℕ, p.Prime → (p : ℤ) ∣ t.max → ¬ (p : ℤ) ^ 2 ∣ t.max → n ≤ 1 := by
    intro p hp hdvd hsq
    by_contra hn
    have hx : (p : ℤ) ∣ x := (Nat.prime_iff_prime_int.mp hp).dvd_of_dvd_pow (h ▸ hdvd)
    refine hsq ?_
    rw [← h]
    exact (pow_dvd_pow_of_dvd hx 2).trans (pow_dvd_pow x (by omega))
  have hle : n ≤ 1 := by
    by_cases hs : t.signed = true
    · have hmax : t.max = 2 ^ 63 - 1 := by rw [IntType.max, if_pos hs, ht]
      rw [hmax] at hsingle
      exact hsingle 73 (by norm_num) (by norm_num) (by norm_num)
    · have hmax : t.max = 2 ^ 64 - 1 := by rw [IntType.max, if_neg hs, ht]
      rw [hmax] at hsingle
      exact hsingle 3 (by norm_num) (by norm_num) (by norm_num)
  rcases Nat.le_one_iff_eq_zero_or_eq_one.mp hle with rfl | rfl
  · rw [pow_zero, IntType.max, ht] at h
    split at h <;> norm_num at h
  · rfl

theorem natAbs_le_of_contains {t : IntType} (ht : t.bits = 64) {v : ℤ} (h : t.Contains v) :
    v.natAbs ≤ 2 ^ 64 := by
  obtain ⟨hlo, hhi⟩ := h
  rw [IntType.min, ht] at hlo
  rw [IntType.max, ht] at hhi
  split at hlo <;> simp_all <;> omega

theorem fits_min {t : IntType} (ht : t.bits = 64) : Fits t.min := by
  rw [IntType.min, ht]
  split
  · exact ⟨1, 63, by norm_num, by decide⟩
  · exact fits_of_abs_lt (by norm_num)

/-- A power of zero of an exponent that is not positive as an `i32`. -/
theorem powThroughF64_zero_ne {t : IntType} (ht : t.bits = 64) {y : ℤ}
    (hy : wrapSigned 32 y ≤ 0) : powThroughF64 t.min t.max 0 y ≠ 0 := by
  have hmax : 1 ≤ t.max := by
    rw [IntType.max, ht]
    split <;> norm_num
  have hmin : t.min ≤ 0 := t.contains_zero.1
  have hbounds := wrapSigned_32_bounds y
  rw [powThroughF64]
  rcases hy.lt_or_eq with hneg | hzero
  · -- one over zero saturates
    have hexact : ∀ j ≤ (wrapSigned 32 y).natAbs, ofRat ((0 : ℚ) ^ j) = .finite ((0 : ℚ) ^ j) := by
      intro j _
      rcases Nat.eq_zero_or_pos j with rfl | hpos
      · rw [pow_zero]
        exact ofRat_exact (m := 1) (e := 0) (by norm_num) (by norm_num) (by norm_num)
          (by rw [abs_one]; exact one_lt_pow₀ (by norm_num) (by norm_num))
      · rw [zero_pow hpos.ne']
        rfl
    have hloop := powLoop_exact (i := 0) (k := 1) hexact
      (show (wrapSigned 32 y).natAbs < 2 ^ 32 by omega) (by omega)
    rw [pow_zero, pow_one, Nat.zero_add, Nat.one_mul, zero_pow (by omega)] at hloop
    have hinf : powi (ofInt 0) (wrapSigned 32 y) = .inf false := by
      rw [powi, if_pos hneg, show ofInt 0 = .finite 0 from rfl, hloop, recip, if_pos rfl]
    rw [hinf, toInt, if_neg (by decide)]
    omega
  · have hone : powi (ofInt 0) (wrapSigned 32 y) = .finite ((1 : ℤ) : ℚ) := by
      rw [hzero]
      rfl
    rw [hone, toInt_intCast (by omega) hmax]
    decide

/-- A power of at least two in absolute value whose result is in the word. -/
theorem powi_of_two_le {t : IntType} (ht : t.bits = 64) {x y : ℤ} (hx : 2 ≤ x.natAbs)
    (hy : 0 ≤ y) (h : t.Contains (x ^ y.toNat)) (hfits : Fits (x ^ y.toNat)) :
    powi (ofInt x) (wrapSigned 32 y) = .finite ((x ^ y.toNat : ℤ) : ℚ) := by
  have habs := natAbs_le_of_contains ht h
  have hn : y.toNat ≤ 64 := by
    rw [Int.natAbs_pow] at habs
    exact (Nat.pow_le_pow_iff_right (by decide)).mp
      ((Nat.pow_le_pow_left hx y.toNat).trans habs)
  obtain ⟨n, rfl⟩ := Int.eq_ofNat_of_zero_le hy
  rw [Int.toNat_natCast] at hn habs hfits ⊢
  rw [wrapSigned_of_bounds (by decide) (by omega) (by omega), Int.cast_pow]
  refine powi_exact hfits ?_ (by omega)
  have hlt : ((x ^ n).natAbs : ℤ) < 2 ^ 1024 :=
    lt_of_le_of_lt (Int.ofNat_le.mpr habs)
      (by exact_mod_cast Nat.pow_lt_pow_right (by decide) (by decide))
  rwa [Int.natCast_natAbs] at hlt

/-- The powers that come back exact. -/
theorem powThroughF64_eq_iff {t : IntType} (ht : t.bits = 64) {x y : ℤ} (hy : 0 ≤ y) :
    powThroughF64 t.min t.max x y = x ^ y.toNat ↔ PowThrough t x y := by
  have hmin : t.min ≤ 0 := t.contains_zero.1
  have hmax : 0 ≤ t.max := t.contains_zero.2
  have hbounds := wrapSigned_32_bounds y
  constructor
  · intro h
    refine ⟨h ▸ toInt_bounds hmin hmax _, ?_, ?_⟩
    · rcases @fits_of_toInt t.min t.max _
        fun v hv => representable_of_powi (a := ofInt x) (n := wrapSigned 32 y) hv with hf | hf | hf
      · exact .inl (h ▸ hf)
      · left
        rw [← h, powThroughF64, hf]
        exact fits_min ht
      · exact .inr (h.symm.trans hf)
    · rintro rfl
      by_contra hne
      push Not at hne
      refine powThroughF64_zero_ne ht hne.2 ?_
      rw [h, zero_pow (by omega)]
  · rintro ⟨hcontains, hfits, hzero⟩
    rcases le_or_gt 2 x.natAbs with hx | hx
    · rcases hfits with hfits | hlast
      · rw [powThroughF64, powi_of_two_le ht hx hy hcontains hfits]
        exact toInt_intCast hcontains.1 hcontains.2
      · -- the greatest value rounds up and saturates
        have hone := eq_one_of_pow_eq_max ht hlast
        obtain rfl : y = 1 := by omega
        rw [hone, pow_one] at hlast ⊢
        rw [hlast]
        by_cases hs : t.signed = true
        · rw [IntType.max, IntType.min, if_pos hs, if_pos hs, ht]
          decide +kernel
        · rw [IntType.max, IntType.min, if_neg hs, if_neg hs, ht]
          decide +kernel
    · suffices hpow : powi (ofInt x) (wrapSigned 32 y) = .finite ((x ^ y.toNat : ℤ) : ℚ) by
        rw [powThroughF64, hpow]
        exact toInt_intCast hcontains.1 hcontains.2
      by_cases hx0 : x = 0
      · subst hx0
        have hexp : 0 ≤ wrapSigned 32 y ∧ (0 : ℤ) ^ (wrapSigned 32 y).toNat = 0 ^ y.toNat := by
          rcases hzero rfl with rfl | hpos
          · exact ⟨le_rfl, rfl⟩
          · refine ⟨hpos.le, ?_⟩
            have hy0 : y ≠ 0 := by
              rintro rfl
              exact lt_irrefl _ hpos
            rw [zero_pow (by omega), zero_pow (by omega)]
        obtain ⟨k, hk⟩ := Int.eq_ofNat_of_zero_le hexp.1
        rw [← hexp.2, hk, powi_natCast (by decide) (by omega), Int.toNat_natCast, Int.cast_pow]
      · have hunit : x = 1 ∨ x = -1 := by omega
        rw [powi_unit hunit hbounds.1 hbounds.2]
        -- a power of a unit depends on the parity of the exponent alone
        have hparity : x ^ (wrapSigned 32 y).natAbs = x ^ y.toNat := by
          rcases hunit with rfl | rfl
          · rw [one_pow, one_pow]
          · rw [neg_one_pow_eq_pow_mod_two (R := ℤ) (wrapSigned 32 y).natAbs,
              natAbs_wrapSigned_mod_two y hy, ← neg_one_pow_eq_pow_mod_two]
        rw [hparity]

/-! ## Folds -/

theorem wordType_min_max (s : ScalarDType) :
    ((wordType s).min, (wordType s).max) =
      if s.isUnsigned then (0, 2 ^ 64 - 1) else (-2 ^ 63, 2 ^ 63 - 1) := by
  cases h : s.isUnsigned <;> simp [wordType, IntType.min, IntType.max, h]

/-- The power of two constants of one type, before it is committed. -/
theorem evalPow_eq {s : ScalarDType} (hs : s ≠ .bool) {a b : ConstValue} {x y : ℤ}
    (ha : HasType s a x) (hb : HasType s b y) (hy : 0 ≤ y) :
    evalFoldOp .pow a b =
      some (constOf (wordType s) (powThroughF64 (wordType s).min (wordType s).max x y)) := by
  have hmm := wordType_min_max s
  rcases ha.kind with ⟨hbool, -⟩ | ⟨-, hu, rfl⟩ | ⟨-, hu, rfl⟩
  · exact absurd hbool hs
  · rcases hb.kind with ⟨hbool, -⟩ | ⟨-, -, rfl⟩ | ⟨-, hu', -⟩
    · exact absurd hbool hs
    · rw [if_pos hu, Prod.mk.injEq] at hmm
      rw [hmm.1, hmm.2]
      simp [evalFoldOp, evalPow, evalPair, constOf, wordType, hu]
    · exact absurd (hu.symm.trans hu') (by decide)
  · rcases hb.kind with ⟨hbool, -⟩ | ⟨-, hu', -⟩ | ⟨-, -, rfl⟩
    · exact absurd hbool hs
    · exact absurd (hu.symm.trans hu') (by decide)
    · rw [hu, if_neg (by decide), Prod.mk.injEq] at hmm
      rw [hmm.1, hmm.2]
      simp [evalFoldOp, evalPow, evalPair, constOf, wordType, hu, hy]

theorem machine_constOf {s : ScalarDType} {v : ℤ} (h : (wordType s).Contains v) :
    (constOf (wordType s) v).Machine ∧ (constOf (wordType s) v).integerValue = some v := by
  have hmm := wordType_min_max s
  obtain ⟨hlo, hhi⟩ := h
  cases hu : s.isUnsigned <;> simp [hu] at hmm <;> rw [hmm.1] at hlo <;> rw [hmm.2] at hhi <;>
    simp [constOf, wordType, hu, Machine, integerValue] <;> omega

theorem evalXor_value {s : ScalarDType} (hs : s ≠ .bool) {a b c : ConstValue} {x y : ℤ}
    (ha : HasType s a x) (hb : HasType s b y) (h : evalFoldOp .xor a b = some c) :
    c.Machine ∧ c.integerValue = some (x.xor y) := by
  have hma := ha.machine
  have hmb := hb.machine
  rcases ha.kind with ⟨hbool, -⟩ | ⟨-, hu, rfl⟩ | ⟨-, hu, rfl⟩
  · exact absurd hbool hs
  · rcases hb.kind with ⟨hbool, -⟩ | ⟨-, -, rfl⟩ | ⟨-, hu', -⟩
    · exact absurd hbool hs
    · obtain rfl := Option.some.inj h
      have hbounds := xor_bounds (N := 2 ^ 64) rfl (x := x) (y := y)
        (by push_cast; exact ⟨by have := hma.1; omega, hma.2⟩)
        (by push_cast; exact ⟨by have := hmb.1; omega, hmb.2⟩)
      exact ⟨⟨xor_nonneg hma.1 hmb.1, by exact_mod_cast hbounds.2⟩, rfl⟩
    · exact absurd (hu.symm.trans hu') (by decide)
  · rcases hb.kind with ⟨hbool, -⟩ | ⟨-, hu', -⟩ | ⟨-, -, rfl⟩
    · exact absurd hbool hs
    · exact absurd (hu.symm.trans hu') (by decide)
    · obtain rfl := Option.some.inj h
      exact ⟨xor_bounds (N := 2 ^ 63) rfl hma hmb, rfl⟩

/-- The value of a fold agrees with the operation at every width. -/
theorem evalFoldOp_value {op : FoldOp} (hop : op.isArithmetic = true) {s : ScalarDType}
    (hs : s ≠ .bool) {a b c : ConstValue} {x y : ℤ} (ha : HasType s a x) (hb : HasType s b y)
    (hy : op = .pow → 0 ≤ y) (hpow : op = .pow → PowThrough (wordType s) x y)
    (h : evalFoldOp op a b = some c) :
    ∃ z, c.Machine ∧ c.integerValue = some z ∧
      ∀ t : IntType, t.bits ≤ 64 → t.wrap z = t.wrap (op.apply x y) := by
  cases op with
  | ranged op => exact evalBinaryOp_value (by simpa [FoldOp.isArithmetic] using hop) ha hb h
  | pow =>
    rw [evalPow_eq hs ha hb (hy rfl), (powThroughF64_eq_iff rfl (hy rfl)).mpr (hpow rfl)] at h
    obtain rfl := Option.some.inj h
    obtain ⟨hm, hv⟩ := machine_constOf (hpow rfl).1
    exact ⟨_, hm, hv, fun _ _ => rfl⟩
  | xor =>
    obtain ⟨hm, hv⟩ := evalXor_value hs ha hb h
    exact ⟨_, hm, hv, fun _ _ => rfl⟩

/-- A folded constant is the exact result reduced to the type. -/
theorem evalFoldOpTyped_exact {op : FoldOp} (hop : op.isArithmetic = true) {s : ScalarDType}
    {t : IntType} (ht : intType s = some t) (hs : s ≠ .bool) {a b c : ConstValue} {x y : ℤ}
    (ha : HasType s a x) (hb : HasType s b y) (hdef : op.defined t y = true)
    (hpow : op = .pow → PowThrough (wordType s) x y) (h : evalFoldOpTyped op a b s = some c) :
    HasType s c (t.wrap (op.apply x y)) := by
  obtain ⟨c₀, hc₀, hcast⟩ := Option.bind_eq_some_iff.mp h
  have hy : op = .pow → 0 ≤ y := by
    rintro rfl
    simpa [FoldOp.defined] using hdef
  obtain ⟨z, hm, hz, hwrap⟩ := evalFoldOp_value hop hs ha hb hy hpow hc₀
  obtain ⟨c', hc', hty⟩ := cast_hasType ht hm hz
  obtain rfl : c = c' := Option.some.inj (hcast.symm.trans hc')
  rwa [castTo, if_neg hs, hwrap t (intType_bits_le ht)] at hty

/-- `3 ^ 5` as an `i8`. -/
theorem evalFoldOpTyped_exact_int8 :
    evalFoldOpTyped .pow (.int 3) (.int 5) .int8 = some (.int (-13)) ∧
      HasType .int8 (.int (-13)) ((⟨true, 8, by decide⟩ : IntType).wrap (3 ^ 5)) := by
  have hrun : evalFoldOpTyped .pow (.int 3) (.int 5) .int8 = some (.int (-13)) := by decide +kernel
  have hthrough : PowThrough (wordType .int8) 3 5 :=
    ⟨by decide, .inl ⟨3 ^ 5, 0, by decide, by decide⟩, by decide⟩
  exact ⟨hrun, @evalFoldOpTyped_exact .pow rfl _ _ rfl (by decide) _ _ _ 3 5
    ⟨_, rfl, by decide, by decide⟩ ⟨_, rfl, by decide, by decide⟩ rfl (fun _ => hthrough) hrun⟩

/-- `3 ^ 34` fits an `i64` and takes 54 bits. -/
theorem evalFoldOpTyped_pow_inexact :
    (intType .int64).isSome ∧ HasType .int64 (.int 3) 3 ∧ HasType .int64 (.int 34) 34 ∧
      evalFoldOpTyped .pow (.int 3) (.int 34) .int64 = some (.int 16677181699666568) ∧
      ¬ HasType .int64 (.int 16677181699666568)
        ((⟨true, 64, by decide⟩ : IntType).wrap (3 ^ 34)) := by
  refine ⟨rfl, ⟨_, rfl, by decide, by decide⟩, ⟨_, rfl, by decide, by decide⟩, by decide +kernel, ?_⟩
  rintro ⟨t, ht, -, hc⟩
  obtain rfl := Option.some.inj ht
  exact absurd hc (by decide)

end Svod.Ir
