/-
  Svod.Symbolic.FastDivSound

  The product and the shift that replace a division compute its quotient.

  The multiplier is chosen for the largest magnitude of the dividend; the check
  that the product fits the type excludes the one value whose magnitude the
  search does not see, the least value of 64 bits.
-/

import Mathlib.Data.Nat.Prime.Basic
import Mathlib.Tactic.IntervalCases
import Svod.Ir.EvalNode
import Svod.Ir.RangeEvalBinary
import Svod.Lib.MagicDiv
import Svod.Symbolic.FastDiv

namespace Svod.Symbolic.FastDiv

open Svod.Ir Svod.Lib

/-! ## The meaning of the replacement -/

/-- No product overflows, and no shift amount reaches the width. -/
def NoOverflow (env : UOp.Env) (lane : List ℕ) : UOp → Prop
  | .binary op a b d =>
    (op = .mul → ∀ p q t, a.eval env lane = some p → b.eval env lane = some q →
      intType d.base = some t → t.Contains (p * q)) ∧
    (op = .shl ∨ op = .shr → ∀ n t, b.eval env lane = some n →
      intType a.dtype.base = some t → 0 ≤ n ∧ n < t.bits)
  | _ => True

/-- A divisor for which the replacement is made, an `i64`. -/
structure Divisor (d : ℤ) : Prop where
  one_lt : 1 < d
  machine : d < 2 ^ 63
  not_pow : ∀ k : ℕ, d ≠ 2 ^ k

/-! ## Magic numbers -/

theorem magicError_bounds {d : ℤ} (hd : 0 < d) (power : ℤ) :
    0 ≤ magicError d power ∧ magicError d power < d := by
  have hlo := Int.emod_nonneg (power - 1) hd.ne'
  have hhi := Int.emod_lt_of_pos (power - 1) hd
  unfold magicError
  omega

theorem dvd_add_magicError (d power : ℤ) : d ∣ power + magicError d power := by
  have hdiv := Int.emod_add_mul_ediv (power - 1) d
  refine ⟨(power - 1) / d + 1, ?_⟩
  unfold magicError
  rw [Int.mul_add]
  omega

/-- No power of two is a multiple of the divisor, so the error is positive. -/
theorem Divisor.magicError_pos {d : ℤ} (h : Divisor d) (k : ℕ) : 0 < magicError d (2 ^ k) := by
  have hd : 0 < d := lt_trans one_pos h.one_lt
  rcases (magicError_bounds hd (2 ^ k)).1.lt_or_eq with hlt | heq
  · exact hlt
  · have hdvd := dvd_add_magicError d (2 ^ k)
    rw [← heq, Int.add_zero] at hdvd
    obtain ⟨n, rfl⟩ : ∃ n : ℕ, d = n := ⟨d.toNat, by omega⟩
    have hdvd' : n ∣ 2 ^ k := by exact_mod_cast hdvd
    obtain ⟨i, -, hi⟩ := (Nat.dvd_prime_pow Nat.prime_two).mp hdvd'
    exact absurd (by rw [hi]; push_cast; rfl) (h.not_pow i)

/-- What the search for a magic number has found. -/
structure MagicFor (N d m : ℤ) (s : ℕ) : Prop where
  mul_eq : m * d = 2 ^ s + magicError d (2 ^ s)
  bound : ((N + 1) / d * d - 1) * magicError d (2 ^ s) < 2 ^ s

theorem magicUnsigned_eq_some {N d m : ℤ} {s : ℕ} (h : magicUnsigned N d = some (m, s)) :
    MagicFor N d m s := by
  unfold magicUnsigned at h
  split at h
  · cases h
  · obtain ⟨shift, hfind, h⟩ := Option.bind_eq_some_iff.mp h
    simp only at h
    split at h
    · cases h
      have hgt := List.find?_some hfind
      refine ⟨Int.ediv_mul_cancel (dvd_add_magicError d _), ?_⟩
      simpa using hgt
    · cases h

/-- A magic number is at least two. -/
theorem MagicFor.two_le {N d m : ℤ} {s : ℕ} (h : MagicFor N d m s) (hd : Divisor d)
    (hN : d ≤ N) : 2 ≤ m := by
  have hpos : 0 < d := lt_trans one_pos hd.one_lt
  have he := hd.magicError_pos s
  have heb := magicError_bounds hpos (2 ^ s)
  have hmul := h.mul_eq
  have hpow : (0 : ℤ) < 2 ^ s := by positivity
  by_contra hlt
  have hm : 0 < m := by
    by_contra hneg
    have : m * d ≤ 0 := Int.mul_nonpos_of_nonpos_of_nonneg (by omega) hpos.le
    omega
  have hone : m = 1 := by omega
  rw [hone, Int.one_mul] at hmul
  -- the power would be the divisor itself
  have hq : 1 ≤ (N + 1) / d := Int.le_ediv_of_mul_le hpos (by omega)
  have hnc : d ≤ (N + 1) / d * d := by nlinarith
  have hbound := h.bound
  have hle : (d - 1) * 1 ≤ ((N + 1) / d * d - 1) * magicError d (2 ^ s) :=
    Int.mul_le_mul (by omega) he (by omega) (by omega)
  have heq : d = 2 ^ s := by omega
  exact hd.not_pow s heq

/-- The shifted product is the quotient, for every magnitude the search covers. -/
theorem MagicFor.shift_eq {N d m : ℤ} {s : ℕ} (h : MagicFor N d m s) (hd : Divisor d)
    (hN : d ≤ N) {v : ℤ} (hv : |v| ≤ N) :
    v * m / 2 ^ s + (if v < 0 then 1 else 0) = v.tdiv d := by
  have hpos : 0 < d := lt_trans one_pos hd.one_lt
  have hm := h.two_le hd hN
  have he := hd.magicError_pos s
  have heb := magicError_bounds hpos (2 ^ s)
  have hmul := h.mul_eq
  have hbound := h.bound
  generalize magicError d (2 ^ s) = e at he heb hmul hbound
  obtain ⟨d, rfl⟩ : ∃ n : ℕ, d = n := ⟨d.toNat, by omega⟩
  obtain ⟨m, rfl⟩ : ∃ n : ℕ, m = n := ⟨m.toNat, by omega⟩
  obtain ⟨e, rfl⟩ : ∃ n : ℕ, e = n := ⟨e.toNat, by omega⟩
  obtain ⟨N, rfl⟩ : ∃ n : ℕ, N = n := ⟨N.toNat, by omega⟩
  have hd' : 0 < d := by exact_mod_cast hpos
  have hN' : d ≤ N := by exact_mod_cast hN
  have hresidue : MagicDiv.lastResidue N d * e < 2 ^ s := by
    have hone : 1 ≤ (N + 1) / d * d := by
      have : 1 ≤ (N + 1) / d := (Nat.le_div_iff_mul_le hd').mpr (by omega)
      calc 1 ≤ 1 * d := by omega
        _ ≤ (N + 1) / d * d := Nat.mul_le_mul_right d this
    unfold MagicDiv.lastResidue
    zify [hone]
    exact hbound
  have habs : (v.natAbs : ℤ) = |v| := Int.natCast_natAbs v
  have herror := MagicDiv.errorFits_of_lastResidue hd' hN' (by exact_mod_cast heb.2) hresidue
    (n := v.natAbs) (by omega)
  have hshift := MagicDiv.shift_eq_tdiv (v := v) hd' (m := m) (e := e) (P := 2 ^ s)
    (by exact_mod_cast hmul) (by exact_mod_cast he) herror
  push_cast at hshift
  exact hshift

/-! ## Types -/

theorem dtypeBoundsI128_eq {s : ScalarDType} {t : IntType} (ht : intType s = some t)
    (hs : s ≠ .bool) : dtypeBoundsI128 s = some (t.min, t.max) := by
  cases s <;> simp only [intType, reduceCtorEq, Option.some.injEq] at ht <;> subst ht
  case bool => exact absurd rfl hs
  all_goals rfl

/-- What a type holds: the values below a power of two, of either sign or not. -/
theorem intType_bounds {s : ScalarDType} {t : IntType} (ht : intType s = some t)
    (hs : s ≠ .bool) : 8 ≤ t.bits ∧ t.bits ≤ 64 ∧
      ((s.isUnsigned = true ∧ t.min = 0 ∧ t.max = 2 ^ t.bits - 1) ∨
        (s.isUnsigned = false ∧ t.min = -2 ^ (t.bits - 1) ∧ t.max = 2 ^ (t.bits - 1) - 1)) := by
  cases s <;> simp only [intType, reduceCtorEq, Option.some.injEq] at ht <;> subst ht
  case bool => exact absurd rfl hs
  case uint8 | uint16 | uint32 | uint64 =>
    exact ⟨by decide, by decide, Or.inl ⟨rfl, rfl, rfl⟩⟩
  all_goals exact ⟨by decide, by decide, Or.inr ⟨rfl, rfl, rfl⟩⟩

theorem eval_constLike {x : UOp} {t : IntType} (ht : intType x.dtype.base = some t) {v : ℤ}
    (hv : t.Contains v) (env : UOp.Env) (lane : List ℕ) :
    (constLike x v).eval env lane = some v := by
  have hty : HasType x.dtype.base (Expr.committed x.dtype.base v) v := by
    refine ⟨t, ht, hv, ?_⟩
    unfold Expr.committed
    rw [ht]
    show constOf t (castTo x.dtype.base t v) = _
    rw [castTo_of_contains ht hv]
  exact hty.integerValue

/-! ## The parts of the replacement -/

theorem contains_between {t : IntType} {a b x : ℤ} (ha : t.Contains a) (hb : t.Contains b)
    (h : a ≤ x ∧ x ≤ b) : t.Contains x := ⟨ha.1.trans h.1, h.2.trans hb.2⟩

/-- A value of a type, shifted to the right, is one of the type. -/
theorem contains_shift {t : IntType} {x : ℤ} (hx : t.Contains x) (s : ℕ) :
    t.Contains (x / 2 ^ s) := by
  have hpow : (1 : ℤ) ≤ 2 ^ s := one_le_pow₀ (by decide)
  rcases lt_or_ge x 0 with hneg | hpos
  · refine contains_between hx t.contains_zero ⟨?_, ?_⟩
    · rw [Int.le_ediv_iff_mul_le (by omega)]
      nlinarith
    · exact (Int.ediv_neg_of_neg_of_pos hneg (by omega)).le
  · refine contains_between t.contains_zero hx ⟨?_, ?_⟩
    · exact Int.ediv_nonneg hpos (by omega)
    · exact Int.ediv_le_self _ hpos

/-- A quotient rounded towards zero is of the type of the dividend. -/
theorem contains_tdiv {t : IntType} {v d : ℤ} (hv : t.Contains v) (hd : 0 < d) :
    t.Contains (v.tdiv d) := by
  rcases lt_or_ge v 0 with hneg | hpos
  · obtain ⟨n, rfl⟩ : ∃ n, v = -n := ⟨-v, by omega⟩
    rw [Int.neg_tdiv, Int.tdiv_eq_ediv_of_nonneg (by omega)]
    have hle := Int.ediv_le_self d (show 0 ≤ n by omega)
    have hnonneg := Int.ediv_nonneg (show 0 ≤ n by omega) hd.le
    exact contains_between hv t.contains_zero ⟨by omega, by omega⟩
  · rw [Int.tdiv_eq_ediv_of_nonneg hpos]
    exact contains_between t.contains_zero hv ⟨Int.ediv_nonneg hpos hd.le, Int.ediv_le_self _ hpos⟩

theorem withScalar_base (d : DType) (s : ScalarDType) : (withScalar d s).base = s := by
  cases d <;> rfl

section

variable {env : UOp.Env} {lane : List ℕ} {x : UOp} {t : IntType} {v : ℤ}

theorem constLike_noOverflow (x : UOp) (v : ℤ) : (constLike x v).All (NoOverflow env lane) :=
  trivial

/-- The product and the shift, when the product is of the type. -/
theorem eval_multiplyShift (ht : intType x.dtype.base = some t) (hv : x.eval env lane = some v)
    {m : ℤ} {s : ℕ} (hm : t.Contains m) (hs : t.Contains s) (hbits : s < t.bits)
    (hmul : t.Contains (v * m)) :
    (multiplyShift x m s).eval env lane = some (v * m / 2 ^ s) ∧
      (x.All (NoOverflow env lane) → (multiplyShift x m s).All (NoOverflow env lane)) := by
  have hcm := eval_constLike ht hm env lane
  have hcs := eval_constLike ht hs env lane
  have hprod : (UOp.binary .mul x (constLike x m) x.dtype).eval env lane = some (v * m) :=
    (UOp.eval_binary_of hv hcm ht rfl).trans (congrArg some (IntType.wrap_of_contains hmul))
  have hdef : BinaryOp.defined .shr t s = true := by
    simp only [BinaryOp.defined, decide_eq_true_eq]
    omega
  constructor
  · refine (UOp.eval_binary_of hprod hcs ht hdef).trans (congrArg some ?_)
    exact IntType.wrap_of_contains (contains_shift hmul s)
  · intro hx
    refine ⟨⟨fun h => (nomatch h), fun _ n t' hn ht' => ?_⟩, ⟨⟨fun _ p q t' hp hq ht' => ?_,
      fun h => ?_⟩, hx, constLike_noOverflow x m⟩, constLike_noOverflow x s⟩
    · rw [hcs] at hn
      rw [show (UOp.binary .mul x (constLike x m) x.dtype).dtype = x.dtype from rfl, ht] at ht'
      cases hn
      cases ht'
      omega
    · rw [hv] at hp
      rw [hcm] at hq
      rw [ht] at ht'
      cases hp
      cases hq
      cases ht'
      exact hmul
    · rcases h with h | h <;> cases h

/-- One below zero, and zero elsewhere. -/
theorem eval_signedAdjustment (ht : intType x.dtype.base = some t) (hone : t.Contains 1)
    (hv : x.eval env lane = some v) :
    (signedAdjustment x).eval env lane = some (if v < 0 then 1 else 0) := by
  have h0 := eval_constLike ht t.contains_zero env lane
  have h1 := eval_constLike ht hone env lane
  have hbool : intType (withScalar x.dtype .bool).base = some ⟨false, 1, by decide⟩ := by
    rw [withScalar_base]
    rfl
  have hcond : (UOp.binary .lt x (constLike x 0) (withScalar x.dtype .bool)).eval env lane =
      some (if v < 0 then 1 else 0) := by
    rw [UOp.eval_binary_of hv h0 hbool rfl]
    show some (IntType.wrap _ (if v < 0 then 1 else 0)) = _
    split <;> rfl
  by_cases hneg : v < 0
  · rw [if_pos hneg] at hcond ⊢
    refine (UOp.eval_where_of hcond ht ((if_pos one_ne_zero).trans h1)).trans ?_
    rw [IntType.wrap_of_contains hone]
  · rw [if_neg hneg] at hcond ⊢
    refine (UOp.eval_where_of hcond ht ((if_neg (by decide)).trans h0)).trans ?_
    rw [IntType.wrap_of_contains t.contains_zero]

/-- The corrected quotient. -/
theorem eval_adjusted (ht : intType x.dtype.base = some t) (hone : t.Contains 1)
    (hv : x.eval env lane = some v) {result : UOp} {q r : ℤ}
    (hq : result.eval env lane = some q) (hr : q + (if v < 0 then 1 else 0) = r)
    (hrt : t.Contains r) {u : Bool} (hu : u = true → 0 ≤ v) :
    (adjusted u x result).eval env lane = some r ∧
      (x.All (NoOverflow env lane) → result.All (NoOverflow env lane) →
        (adjusted u x result).All (NoOverflow env lane)) := by
  unfold adjusted
  split
  · next hu' =>
    have hpos := hu hu'
    rw [if_neg (by omega), Int.add_zero] at hr
    exact ⟨hr ▸ hq, fun _ h => h⟩
  · constructor
    · have hadj := eval_signedAdjustment ht hone hv
      refine (UOp.eval_binary_of hq hadj ht rfl).trans (congrArg some ?_)
      show t.wrap (q + _) = r
      rw [hr, IntType.wrap_of_contains hrt]
    · intro hx hres
      refine ⟨⟨fun h => (nomatch h), fun h => ?_⟩, hres, trivial,
        ⟨⟨fun h => (nomatch h), fun h => ?_⟩, hx, constLike_noOverflow x 0⟩,
        constLike_noOverflow x 1, constLike_noOverflow x 0⟩
      · rcases h with h | h <;> cases h
      · rcases h with h | h <;> cases h

end

/-! ## The choice of the type -/

/-- A magic number for the clamped range of a dividend. -/
structure Magic.For (m : Magic) (t : IntType) (d v : ℤ) : Prop where
  magic : MagicFor (max m.vmax (saturatingAbs m.vmin)) d m.multiplier m.shift
  large : d ≤ max m.vmax (saturatingAbs m.vmin)
  range : m.vmin ≤ v ∧ v ≤ m.vmax
  clamp : t.min ≤ m.vmin ∧ m.vmax ≤ t.max
  nonneg : m.isUnsigned = true → 0 ≤ v

/-- What follows when the product fits a type. -/
structure Magic.Fits (m : Magic) (t : IntType) (v : ℤ) : Prop where
  magnitude : |v| ≤ max m.vmax (saturatingAbs m.vmin)
  value : t.Contains v
  product : t.Contains (v * m.multiplier)
  multiplier : t.Contains m.multiplier
  shift : t.Contains m.shift
  width : m.shift < t.bits

theorem saturatingAbs_of_lt {v : ℤ} (h : -2 ^ 63 < v ∧ v < 2 ^ 63) : saturatingAbs v = |v| := by
  unfold saturatingAbs
  rcases abs_cases v with ⟨ha, -⟩ | ⟨ha, -⟩
  · omega
  · omega

/-- The check on the product bounds everything else. -/
theorem Magic.For.fits {m : Magic} {s s' : ScalarDType} {t t' : IntType}
    (ht : intType s = some t) (hs : s ≠ .bool) (ht' : intType s' = some t') (hs' : s' ≠ .bool)
    {d v : ℤ} (hd : Divisor d) (h : m.For t d v)
    (hfits : multiplicationFits m.multiplier m.vmin m.vmax s' = true) : m.Fits t' v := by
  obtain ⟨hmagic, hlarge, ⟨hvlo, hvhi⟩, ⟨hclo, hchi⟩, -⟩ := h
  have htwo := hmagic.two_le hd hlarge
  have hpos : 0 < d := lt_trans one_pos hd.one_lt
  have he := hd.magicError_pos m.shift
  have hmul := hmagic.mul_eq
  obtain ⟨hbits, -, hsign⟩ := intType_bounds ht hs
  obtain ⟨hbits', hbits64, hsign'⟩ := intType_bounds ht' hs'
  simp only [multiplicationFits, dtypeBoundsI128_eq ht' hs', Bool.and_eq_true,
    decide_eq_true_eq] at hfits
  obtain ⟨hlo, hhi⟩ := hfits
  -- sizes of the wider type
  have hhalf : (2 : ℤ) ^ t'.bits = 2 * 2 ^ (t'.bits - 1) := by
    rw [← pow_succ']
    congr 1
    omega
  have hbyte : (2 : ℤ) ^ 7 ≤ 2 ^ (t'.bits - 1) := pow_le_pow_right₀ (by decide) (by omega)
  have htop : (2 : ℤ) ^ (t'.bits - 1) ≤ 2 ^ 63 := pow_le_pow_right₀ (by decide) (by omega)
  have hmin' : t'.min = 0 ∧ t'.max = 2 * 2 ^ (t'.bits - 1) - 1 ∨
      t'.min = -2 ^ (t'.bits - 1) ∧ t'.max = 2 ^ (t'.bits - 1) - 1 := by
    rcases hsign' with ⟨-, h1, h2⟩ | ⟨-, h1, h2⟩
    · exact Or.inl ⟨h1, by rw [h2, hhalf]⟩
    · exact Or.inr ⟨h1, h2⟩
  generalize hH : (2 : ℤ) ^ (t'.bits - 1) = H at hhalf hbyte htop hmin'
  -- the least value of 64 bits does not pass the check
  have hleast : -2 ^ 63 < m.vmin := by
    by_contra hle
    have : m.multiplier * m.vmin ≤ 2 * m.vmin := by nlinarith
    omega
  have habs : v < 0 → saturatingAbs m.vmin = -m.vmin := by
    intro hneg
    rw [saturatingAbs_of_lt ⟨hleast, by omega⟩, abs_of_neg (by omega)]
  have hprod_lo : m.multiplier * m.vmin ≤ m.multiplier * v :=
    Int.mul_le_mul_of_nonneg_left hvlo (by omega)
  have hprod_hi : m.multiplier * v ≤ m.multiplier * m.vmax :=
    Int.mul_le_mul_of_nonneg_left hvhi (by omega)
  -- the divisor is within the range, so its product is within the type
  have hdprod : m.multiplier * d ≤ t'.max ∨ m.multiplier * d ≤ -t'.min := by
    rcases le_max_iff.mp hlarge with hle | hle
    · left
      have := Int.mul_le_mul_of_nonneg_left hle (show 0 ≤ m.multiplier by omega)
      omega
    · rcases lt_or_ge m.vmin 0 with hneg | hnonneg
      · right
        rw [saturatingAbs_of_lt ⟨hleast, by omega⟩, abs_of_neg hneg] at hle
        have := Int.mul_le_mul_of_nonneg_left hle (show 0 ≤ m.multiplier by omega)
        rw [Int.mul_neg] at this
        omega
      · left
        have hle' : d ≤ m.vmax := by
          have habs : saturatingAbs m.vmin ≤ |m.vmin| := min_le_left _ _
          rw [abs_of_nonneg hnonneg] at habs
          omega
        have := Int.mul_le_mul_of_nonneg_left hle' (show 0 ≤ m.multiplier by omega)
        omega
  have hthree : m.multiplier * 2 ≤ m.multiplier * d :=
    Int.mul_le_mul_of_nonneg_left (by have := hd.one_lt; omega) (by omega)
  have hpower : (2 : ℤ) ^ m.shift < 2 ^ t'.bits := by
    rw [hhalf]
    omega
  have hwidth : m.shift < t'.bits := (pow_lt_pow_iff_right₀ (by decide)).mp hpower
  refine ⟨?_, ⟨?_, ?_⟩, ⟨?_, ?_⟩, ⟨?_, ?_⟩, ⟨?_, ?_⟩, hwidth⟩
  · rcases abs_cases v with ⟨ha, -⟩ | ⟨ha, hneg⟩
    · rw [ha]
      exact hvhi.trans (le_max_left _ _)
    · rw [ha]
      refine le_trans ?_ (le_max_right _ _)
      rw [habs hneg]
      omega
  · rcases lt_or_ge v 0 with hneg | hnonneg
    · have : m.multiplier * v ≤ v := by nlinarith
      omega
    · omega
  · rcases lt_or_ge v 0 with hneg | hnonneg
    · omega
    · have : v ≤ m.multiplier * v := by nlinarith
      omega
  · rw [Int.mul_comm]
    omega
  · rw [Int.mul_comm]
    omega
  · omega
  · omega
  · omega
  · omega

section

variable {env : UOp.Env} {lane : List ℕ} {x : UOp} {t : IntType} {v d : ℤ}

theorem contains_one {s : ScalarDType} {t : IntType} (ht : intType s = some t) : t.Contains 1 := by
  cases s <;> simp only [intType, reduceCtorEq, Option.some.injEq] at ht <;> subst ht <;> decide

/-- The product in the type of the dividend. -/
theorem eval_inType (ht : intType x.dtype.base = some t) (hs : x.dtype.base ≠ .bool)
    (hv : x.eval env lane = some v) (hvt : t.Contains v) (hd : Divisor d) {m : Magic}
    (hm : m.For t d v)
    (hfits : multiplicationFits m.multiplier m.vmin m.vmax x.dtype.base = true) :
    (adjusted m.isUnsigned x (multiplyShift x m.multiplier m.shift)).eval env lane =
        some (v.tdiv d) ∧
      (x.All (NoOverflow env lane) → (adjusted m.isUnsigned x
        (multiplyShift x m.multiplier m.shift)).All (NoOverflow env lane)) := by
  have hpos : 0 < d := lt_trans one_pos hd.one_lt
  have hf := hm.fits ht hs ht hs hd hfits
  obtain ⟨heval, hall⟩ := eval_multiplyShift ht hv hf.multiplier hf.shift hf.width hf.product
  obtain ⟨hadj, hadjall⟩ := eval_adjusted ht (contains_one ht) hv heval
    (hm.magic.shift_eq hd hm.large hf.magnitude) (contains_tdiv hvt hpos) hm.nonneg
  exact ⟨hadj, fun hx => hadjall hx (hall hx)⟩

/-- The quotient rounded down is of the type of the dividend. -/
theorem contains_floor (hv : t.Contains v) (hd : 1 < d) {q : ℤ}
    (hq : q + (if v < 0 then 1 else 0) = v.tdiv d) : t.Contains q := by
  rcases lt_or_ge v 0 with hneg | hpos
  · obtain ⟨n, rfl⟩ : ∃ n, v = -n := ⟨-v, by omega⟩
    rw [if_pos hneg, Int.neg_tdiv, Int.tdiv_eq_ediv_of_nonneg (by omega)] at hq
    have hlt : n / d < n := Int.ediv_lt_self_of_pos_of_ne_one (by omega) (by omega)
    have hnonneg := Int.ediv_nonneg (show 0 ≤ n by omega) (show 0 ≤ d by omega)
    exact contains_between hv t.contains_zero ⟨by omega, by omega⟩
  · rw [if_neg (by omega), Int.add_zero] at hq
    rw [hq]
    exact contains_tdiv hv (by omega)

theorem nextIntegerDtype_intType {s next : ScalarDType} (h : nextIntegerDtype s = some next) :
    (∃ t, intType next = some t) ∧ next ≠ .bool := by
  cases s <;> simp only [nextIntegerDtype, reduceCtorEq, Option.some.injEq] at h <;> subst h <;>
    exact ⟨⟨_, rfl⟩, by decide⟩

/-- The product in the next wider type. -/
theorem eval_widened (ht : intType x.dtype.base = some t) (hs : x.dtype.base ≠ .bool)
    (hv : x.eval env lane = some v) (hvt : t.Contains v) (hd : Divisor d) {m : Magic}
    (hm : m.For t d v) {supported : ScalarDType → Bool} {e : UOp}
    (h : widened supported x m = some e) :
    e.eval env lane = some (v.tdiv d) ∧
      (x.All (NoOverflow env lane) → e.All (NoOverflow env lane)) := by
  have hpos : 0 < d := lt_trans one_pos hd.one_lt
  obtain ⟨next, hnext, h⟩ := Option.bind_eq_some_iff.mp h
  split at h
  · next hfits =>
    cases h
    obtain ⟨⟨t', ht'⟩, hs'⟩ := nextIntegerDtype_intType hnext
    have hf := hm.fits ht hs ht' hs' hd hfits.2
    have hbase : intType (withScalar x.dtype next).base = some t' := by rw [withScalar_base, ht']
    have hcast : (UOp.cast x (withScalar x.dtype next)).eval env lane = some v := by
      rw [UOp.eval_cast_of hv hbase, castTo_of_contains hbase hf.value]
    obtain ⟨heval, hall⟩ := eval_multiplyShift (x := .cast x (withScalar x.dtype next)) hbase hcast
      hf.multiplier hf.shift hf.width hf.product
    have hshift := hm.magic.shift_eq hd hm.large hf.magnitude
    have hback : (UOp.cast (multiplyShift (.cast x (withScalar x.dtype next)) m.multiplier m.shift)
        x.dtype).eval env lane = some (v * m.multiplier / 2 ^ m.shift) := by
      rw [UOp.eval_cast_of heval ht, castTo_of_contains ht (contains_floor hvt hd.one_lt hshift)]
    obtain ⟨hadj, hadjall⟩ := eval_adjusted ht (contains_one ht) hv hback hshift
      (contains_tdiv hvt hpos) hm.nonneg
    exact ⟨hadj, fun hx => hadjall hx ⟨trivial, hall ⟨trivial, hx⟩⟩⟩
  · cases h

theorem valueAsI64_eq {c : ConstValue} {n : ℤ} (h : valueAsI64 c = some n) :
    c.integerValue = some n := by
  cases c with
  | int z => exact h
  | uint z =>
    simp only [valueAsI64] at h
    split at h
    · exact h
    · cases h
  | bool _ => cases h
  | invalid => cases h

/-- Every attempt is a quotient already, or a magic number for the range. -/
theorem attempt_cases (ht : intType x.dtype.base = some t) (hs : x.dtype.base ≠ .bool)
    (hv : x.eval env lane = some v) (hvt : t.Contains v) (hd : Divisor d)
    {b : RangeEval.Bounds} (hb : RangeEval.InBounds b v) {r : Attempt}
    (h : attempt x b d = some r) :
    (∃ e, r = .done e ∧ e.eval env lane = some (v.tdiv d) ∧
      (x.All (NoOverflow env lane) → e.All (NoOverflow env lane))) ∨
    ∃ m, r = .tooWide m ∧ m.For t d v := by
  have hpos : 0 < d := lt_trans one_pos hd.one_lt
  obtain ⟨bl, bu, hbl, hbu, hvlo, hvhi⟩ := hb
  obtain ⟨lo, hlo, h⟩ := Option.bind_eq_some_iff.mp h
  simp only [dtypeBoundsI128_eq ht hs, Option.bind_eq_bind, Option.bind_some] at h
  obtain ⟨hi, hhi, h⟩ := Option.bind_eq_some_iff.mp h
  obtain rfl : bl = lo := Option.some.inj (hbl.symm.trans (valueAsI64_eq hlo))
  obtain rfl : bu = hi := Option.some.inj (hbu.symm.trans (valueAsI64_eq hhi))
  have hrange : max bl t.min ≤ v ∧ v ≤ min bu t.max :=
    ⟨max_le hvlo hvt.1, le_min hvhi hvt.2⟩
  split at h
  · next hsmall =>
    cases h
    refine Or.inl ⟨_, rfl, ?_, fun _ => constLike_noOverflow x 0⟩
    rw [eval_constLike ht t.contains_zero]
    congr 1
    -- a dividend smaller than the divisor
    symm
    rcases lt_or_ge v 0 with hneg | hnonneg
    · obtain ⟨n, rfl⟩ : ∃ n, v = -n := ⟨-v, by omega⟩
      rw [Int.neg_tdiv, Int.tdiv_eq_zero_of_lt (by omega) (by omega)]
      rfl
    · exact Int.tdiv_eq_zero_of_lt hnonneg (by omega)
  · next hlarge =>
    obtain ⟨⟨multiplier, shift⟩, hmagic, h⟩ := Option.bind_eq_some_iff.mp h
    have hfor : Magic.For ⟨bl ≥ 0 ∨ x.dtype.base.isUnsigned, max bl t.min, min bu t.max,
        multiplier, shift⟩ t d v := by
      refine ⟨magicUnsigned_eq_some hmagic, ?_, hrange, ⟨le_max_right _ _, min_le_right _ _⟩, ?_⟩
      · simp only
        by_contra hlt
        refine hlarge ⟨?_, ?_⟩
        · have hsat : saturatingAbs (max bl t.min) < d := lt_of_le_of_lt (le_max_right _ _)
            (not_le.mp hlt)
          unfold saturatingAbs at hsat
          have hneg : -(max bl t.min) ≤ |max bl t.min| := neg_le_abs _
          have hmachine := hd.machine
          omega
        · exact lt_of_le_of_lt (le_max_left _ _) (not_le.mp hlt)
      · intro hu
        simp only [decide_eq_true_eq] at hu
        rcases hu with hu | hu
        · omega
        · obtain ⟨-, -, ⟨-, hmin, -⟩ | ⟨hsigned, -⟩⟩ := intType_bounds ht hs
          · have := hvt.1
            omega
          · rw [hu] at hsigned
            cases hsigned
    split at h
    · next hfits =>
      cases h
      obtain ⟨heval, hall⟩ := eval_inType ht hs hv hvt hd hfor hfits
      exact Or.inl ⟨_, rfl, heval, hall⟩
    · cases h
      exact Or.inr ⟨_, rfl, hfor⟩

end

/-! ## The power of two of a divisor -/

theorem lowestOne_dvd (d : ℤ) : lowestOne d ∣ d := Int.gcd_dvd_left _ _

/-- The lowest power of two is a power of two. -/
theorem lowestOne_eq_pow (d : ℤ) : ∃ k : ℕ, lowestOne d = 2 ^ k := by
  have hdvd : Int.gcd d (2 ^ 63) ∣ 2 ^ 63 := by
    have h := Int.gcd_dvd_right (a := d) (b := 2 ^ 63)
    exact_mod_cast h
  obtain ⟨k, -, hk⟩ := (Nat.dvd_prime_pow Nat.prime_two).mp hdvd
  refine ⟨k, ?_⟩
  unfold lowestOne
  rw [hk]
  push_cast
  rfl

/-- What is left of a divisor is a divisor again. -/
theorem Divisor.reduce {d : ℤ} (hd : Divisor d) : Divisor (d / lowestOne d) := by
  have hpos : 0 < d := lt_trans one_pos hd.one_lt
  obtain ⟨hlo, hhi⟩ := lowestOne_bounds hpos
  obtain ⟨j, hj⟩ := lowestOne_eq_pow d
  have hmul : d / lowestOne d * lowestOne d = d := Int.ediv_mul_cancel (lowestOne_dvd d)
  have hpow : ∀ k : ℕ, d / lowestOne d ≠ 2 ^ k := by
    intro k hk
    refine hd.not_pow (k + j) ?_
    rw [← hmul, hk, hj, pow_add]
  have hone : d / lowestOne d ≠ 1 := fun h => hpow 0 (by rw [h]; rfl)
  have hge : 1 ≤ d / lowestOne d := Int.le_ediv_of_mul_le (by omega) (by omega)
  have hle : d / lowestOne d ≤ d := Int.ediv_le_self _ hpos.le
  have hmachine := hd.machine
  exact ⟨by omega, by omega, hpow⟩

/-- The power of two of a divisor within the range is of the type. -/
theorem Magic.For.contains_lowestOne {m : Magic} {s : ScalarDType} {t : IntType}
    (ht : intType s = some t) (hs : s ≠ .bool) {d v : ℤ} (hd : Divisor d) (h : m.For t d v) :
    t.Contains (lowestOne d) := by
  have hpos : 0 < d := lt_trans one_pos hd.one_lt
  obtain ⟨hlo, hhi⟩ := lowestOne_bounds hpos
  obtain ⟨j, hj⟩ := lowestOne_eq_pow d
  have hne : lowestOne d ≠ d := by
    rw [hj]
    exact (hd.not_pow j).symm
  have hzero := t.contains_zero
  have hrange := h.range
  have hclamp := h.clamp
  refine ⟨hzero.1.trans (by omega), ?_⟩
  rcases le_max_iff.mp h.large with hle | hle
  · omega
  · have habs : saturatingAbs m.vmin ≤ |m.vmin| := min_le_left _ _
    rcases abs_cases m.vmin with ⟨ha, -⟩ | ⟨ha, hneg⟩
    · omega
    · obtain ⟨-, -, ⟨-, hmin, -⟩ | ⟨-, hmin, hmax⟩⟩ := intType_bounds ht hs
      · omega
      · omega

section

variable {env : UOp.Env} {lane : List ℕ} {x : UOp} {t : IntType} {v d : ℤ}

theorem tdiv_tdiv {v f g : ℤ} (hf : 0 < f) : (v.tdiv f).tdiv g = v.tdiv (f * g) := by
  rcases lt_or_ge v 0 with hneg | hpos
  · obtain ⟨n, rfl⟩ : ∃ n, v = -n := ⟨-v, by omega⟩
    have hn : 0 ≤ n := by omega
    rw [Int.neg_tdiv, Int.neg_tdiv, Int.neg_tdiv, Int.tdiv_eq_ediv_of_nonneg hn,
      Int.tdiv_eq_ediv_of_nonneg (Int.ediv_nonneg hn hf.le), Int.tdiv_eq_ediv_of_nonneg hn,
      Int.ediv_ediv_of_nonneg hf.le]
  · rw [Int.tdiv_eq_ediv_of_nonneg hpos, Int.tdiv_eq_ediv_of_nonneg (Int.ediv_nonneg hpos hf.le),
      Int.tdiv_eq_ediv_of_nonneg hpos, Int.ediv_ediv_of_nonneg hf.le]

/-- The quotient of two constants, when it is defined. -/
theorem evalBinaryOp_cdiv (ht : intType x.dtype.base = some t) (hs : x.dtype.base ≠ .bool)
    (hvt : t.Contains v) {f : ℤ} (hft : t.Contains f) {c r : ConstValue}
    (hc : c.integerValue = some v)
    (h : ConstValue.evalBinaryOp .cdiv c (constOf t f) = some r) :
    r.integerValue = some (v.tdiv f) ∧ r.Machine := by
  have hvm : HasType x.dtype.base (constOf t v) v := ⟨t, ht, hvt, rfl⟩
  have hfm : HasType x.dtype.base (constOf t f) f := ⟨t, ht, hft, rfl⟩
  rcases hfm.kind with ⟨hb, -⟩ | ⟨-, hu, hkind⟩ | ⟨-, hu, hkind⟩
  · exact absurd hb hs
  · have hfmach := hfm.machine
    rw [hkind] at h hfmach
    cases c with
    | uint z =>
      obtain rfl : z = v := Option.some.inj hc
      have hz : (ConstValue.uint z).Machine := by
        rcases hvm.kind with ⟨hb, -⟩ | ⟨-, -, hk⟩ | ⟨-, hu', -⟩
        · exact absurd hb hs
        · exact hk ▸ hvm.machine
        · rw [hu] at hu'
          cases hu'
      obtain ⟨w, rfl, hm, hw⟩ :=
        evalBinaryOp_uint (show BinaryOp.cdiv.isComparison = false from rfl) hz hfmach h
      obtain ⟨q, hq, hqw⟩ := Option.map_eq_some_iff.mp h
      simp only [Option.ite_none_left_eq_some, Option.some.injEq] at hq
      obtain ⟨-, rfl⟩ := hq
      cases hqw
      exact ⟨congrArg some (Int.tdiv_eq_ediv_of_nonneg hz.1).symm, hm⟩
    | int z | bool z => cases h
    | invalid => cases hc
  · have hfmach := hfm.machine
    rw [hkind] at h hfmach
    cases c with
    | int z =>
      obtain rfl : z = v := Option.some.inj hc
      have hz : (ConstValue.int z).Machine := by
        rcases hvm.kind with ⟨hb, -⟩ | ⟨-, hu', -⟩ | ⟨-, -, hk⟩
        · exact absurd hb hs
        · rw [hu] at hu'
          cases hu'
        · exact hk ▸ hvm.machine
      obtain ⟨w, rfl, hm, hw⟩ :=
        evalBinaryOp_int (show BinaryOp.cdiv.isComparison = false from rfl) hz hfmach h
      obtain ⟨q, hq, hqw⟩ := Option.map_eq_some_iff.mp h
      obtain ⟨-, -, rfl⟩ := checkedDivI64_eq_some hq
      cases hqw
      exact ⟨rfl, hm⟩
    | uint z | bool z => cases h
    | invalid => cases hc

/-- The best-effort range of the reduced dividend holds its value. -/
theorem cdivBounds_inBounds (ht : intType x.dtype.base = some t) (hvt : t.Contains v) {f : ℤ}
    (hf : 0 < f) (hft : t.Contains f) (hs : x.dtype.base ≠ .bool) {b : RangeEval.Bounds}
    (hb : RangeEval.InBounds b v) :
    RangeEval.InBounds (cdivBounds b (Expr.committed x.dtype.base f) x.dtype) (v.tdiv f) := by
  have hres := contains_tdiv hvt hf
  have hfull : RangeEval.InBounds (RangeEval.dtypeBounds x.dtype.base) (v.tdiv f) := by
    have h := dtypeBounds_hasType ht
    exact ⟨t.min, t.max, h.1.integerValue, h.2.integerValue, hres⟩
  unfold cdivBounds
  split
  · next heq =>
    have hcommit : Expr.committed x.dtype.base f = constOf t f := by
      unfold Expr.committed
      rw [ht]
      show constOf t (castTo x.dtype.base t f) = _
      rw [castTo_of_contains ht hft]
    unfold RangeEval.computeBinaryRange
    rw [if_pos ⟨heq, rfl, rfl⟩]
    cases hval : ConstValue.evalBinaryOpTyped .cdiv b.1 (Expr.committed x.dtype.base f)
        x.dtype.base with
    | none => exact hfull
    | some c =>
      obtain ⟨lo, hi, hlo, hhi, hvlo, hvhi⟩ := hb
      rw [← heq, hlo] at hhi
      cases hhi
      obtain rfl : v = lo := by omega
      obtain ⟨r, hr, hc⟩ := Option.bind_eq_some_iff.mp hval
      -- the constants are of one kind, and their quotient is exact
      have hrv := evalBinaryOp_cdiv ht hs hvt hft hlo (hcommit ▸ hr)
      obtain ⟨c', hc', hty⟩ := cast_hasType ht hrv.2 hrv.1
      obtain rfl : c = c' := Option.some.inj (hc.symm.trans hc')
      rw [castTo_of_contains ht hres] at hty
      exact ⟨_, _, hty.integerValue, hty.integerValue, le_rfl, le_rfl⟩
  · exact hfull

/-- The replacement computes the quotient, without overflow. -/
theorem fastIdiv_eval {supported : ScalarDType → Bool} {dontCast : Bool}
    {b : RangeEval.Bounds} {e : UOp} (hs : x.dtype.base ≠ .bool)
    (ht : intType x.dtype.base = some t) (hd : Divisor d) (hv : x.eval env lane = some v)
    (hvt : t.Contains v) (hb : RangeEval.InBounds b v)
    (h : fastIdiv supported x b d dontCast = some e) :
    e.eval env lane = some (v.tdiv d) ∧
      (x.All (NoOverflow env lane) → e.All (NoOverflow env lane)) := by
  have hpos : 0 < d := lt_trans one_pos hd.one_lt
  induction hn : d.toNat using Nat.strong_induction_on generalizing x v d b dontCast e with
  | _ n ih =>
    subst hn
    rw [fastIdiv, dif_neg (by omega)] at h
    rcases hatt : attempt x b d with _ | r
    · rw [hatt] at h
      cases h
    · rw [hatt] at h
      rcases attempt_cases ht hs hv hvt hd hb hatt with ⟨e', rfl, heval, hall⟩ | ⟨m, rfl, hm⟩
      · cases h
        exact ⟨heval, hall⟩
      · simp only at h
        rcases Option.or_eq_some_iff.mp h with hfac | ⟨-, hwide⟩
        · split at hfac
          · next hf =>
            obtain ⟨hflo, hfhi⟩ := lowestOne_bounds hpos
            have hft := hm.contains_lowestOne ht hs hd
            have hfactor := eval_constLike ht hft env lane
            have hdef : BinaryOp.defined .cdiv t (lowestOne d) = true := by
              simp only [BinaryOp.defined, decide_eq_true_eq]
              omega
            have hred : (UOp.binary .cdiv x (constLike x (lowestOne d)) x.dtype).eval env lane =
                some (v.tdiv (lowestOne d)) := by
              rw [UOp.eval_binary_of hv hfactor ht hdef]
              exact congrArg some (IntType.wrap_of_contains (contains_tdiv hvt (by omega)))
            obtain ⟨heval, hall⟩ := ih _ (ediv_lowestOne_lt hpos hf) (x := .binary .cdiv x
              (constLike x (lowestOne d)) x.dtype) hs ht hd.reduce hred
              (contains_tdiv hvt (by omega)) (cdivBounds_inBounds ht hvt (by omega) hft hs hb) hfac
              (lt_trans one_pos hd.reduce.one_lt) rfl
            rw [tdiv_tdiv (by omega), Int.mul_ediv_cancel' (lowestOne_dvd d)] at heval
            refine ⟨heval, fun hx => hall ⟨⟨fun h => (nomatch h), fun h => ?_⟩, hx,
              constLike_noOverflow x _⟩⟩
            rcases h with h | h <;> cases h
          · cases hfac
        · split at hwide
          · cases hwide
          · exact eval_widened ht hs hv hvt hd hm hwide

end

/-! ## The claims of the rewrite -/

theorem intType_of_isInt_scalar {s : ScalarDType} (h : s.isInt = true) :
    (∃ t, intType s = some t) ∧ s ≠ .bool := by
  cases s <;> first | exact ⟨⟨_, rfl⟩, by decide⟩ | cases h

theorem intType_of_isInt {d : DType} (h : d.isInt = true) :
    (∃ t, intType d.base = some t) ∧ d.base ≠ .bool := by
  cases d with
  | scalar s => exact intType_of_isInt_scalar h
  | vector s n => exact intType_of_isInt_scalar h
  | ptr | image => cases h

/-- The pattern rewrites a division to an expression of the same value. -/
theorem fastDivision_eval {supported : ScalarDType → Bool} {x : UOp} {b : RangeEval.Bounds}
    {divisor : ConstValue} {e : UOp} {env : UOp.Env} {lane : List ℕ} {v d : ℤ} {t : IntType}
    (hdiv : HasType x.dtype.base divisor d) (ht : intType x.dtype.base = some t)
    (hv : x.eval env lane = some v) (hvt : t.Contains v) (hb : RangeEval.InBounds b v)
    (h : fastDivision supported x b divisor = some e) :
    e.eval env lane = (UOp.binary .cdiv x (.const divisor x.dtype) x.dtype).eval env lane := by
  unfold fastDivision at h
  split at h
  · next hguard =>
    obtain ⟨n, hn, h⟩ := Option.bind_eq_some_iff.mp h
    obtain rfl : d = n := Option.some.inj (hdiv.integerValue.symm.trans (valueAsI64_eq hn))
    split at h
    · next hd =>
      have hmachine : d < 2 ^ 63 := by
        cases divisor with
        | int z =>
          cases hn
          exact hdiv.machine.2
        | uint z =>
          simp only [valueAsI64] at hn
          split at hn
          · cases hn
            assumption
          · cases hn
        | bool z => cases hn
        | invalid => cases hn
      have hpow : ∀ k : ℕ, d ≠ 2 ^ k := by
        rintro k rfl
        refine hd.2 ?_
        have hk : k ≤ 63 := by
          by_contra hlt
          have : (2 : ℤ) ^ 63 ≤ 2 ^ k := pow_le_pow_right₀ (by decide) (by omega)
          omega
        unfold lowestOne
        exact Int.gcd_eq_left (by positivity) (pow_dvd_pow 2 hk)
      have hone : d ≠ 1 := hpow 0
      have heval := (fastIdiv_eval (intType_of_isInt hguard.1).2 ht
        ⟨by omega, hmachine, hpow⟩ hv hvt hb h).1
      have hdef : BinaryOp.defined .cdiv t d = true := by
        simp only [BinaryOp.defined, decide_eq_true_eq]
        omega
      rw [heval, UOp.eval_binary_of hv (UOp.eval_const_of hdiv) ht hdef]
      exact congrArg some (IntType.wrap_of_contains (contains_tdiv hvt (by omega))).symm
    · cases h
  · cases h

/-- A signed byte, whose division by seven needs the wider type. -/
def signedByte : UOp := .defineVar "x" (-128) 127 (.scalar .int8)

theorem fastDivision_eval_signedByte : ∃ e,
    fastDivision (fun _ => true) signedByte (.int 0, .int 127) (.int 7) = some e ∧
      e.eval (fun _ => 100) [] = some 14 := by
  have hseven : (7 : ℤ) > 0 ∧ lowestOne 7 ≠ 7 := ⟨by decide, by decide +kernel⟩
  obtain ⟨e, he⟩ : ∃ e,
      fastDivision (fun _ => true) signedByte (.int 0, .int 127) (.int 7) = some e := by
    rw [← Option.isSome_iff_exists, fastDivision, if_pos (by decide)]
    simp only [valueAsI64, Option.bind_eq_bind, Option.bind_some, if_pos hseven]
    rw [fastIdiv]
    rfl
  exact ⟨e, he, (fastDivision_eval (x := signedByte) (v := 100) (d := 7) ⟨_, rfl, by decide, rfl⟩
    rfl rfl (by decide) ⟨0, 127, rfl, rfl, by decide, by decide⟩ he).trans rfl⟩

/-- The division by a constant is exact: the replacement has the value of the truncated quotient,
    no product overflows and no shift amount reaches the width. -/
theorem fastIdiv_exact (supported : ScalarDType → Bool) (x : UOp) (b : RangeEval.Bounds)
    (divisor : ℤ) (dontCast : Bool) (env : UOp.Env) (lane : List ℕ) (v : ℤ) (e : UOp)
    (hx : x.dtype.isInt = true) (hone : 1 < divisor) (hmachine : divisor < 2 ^ 63)
    (hpow : ∀ k : ℕ, divisor ≠ 2 ^ k) (hv : x.eval env lane = some v)
    (hb : RangeEval.InBounds b v)
    (hclamp : ∀ t, intType x.dtype.base = some t → t.Contains v)
    (h : fastIdiv supported x b divisor dontCast = some e) :
    e.eval env lane = some (v.tdiv divisor) ∧
      (x.All (NoOverflow env lane) → e.All (NoOverflow env lane)) := by
  obtain ⟨⟨t, ht⟩, hs⟩ := intType_of_isInt hx
  exact fastIdiv_eval hs ht ⟨hone, hmachine, hpow⟩ hv (hclamp t ht) hb h

theorem fastIdiv_exact_signedByte :
    ∃ e, fastIdiv (fun _ => true) signedByte (.int (-128), .int 127) 7 false = some e ∧
      e.eval (fun _ => -100) [] = some (-14) := by
  have hwide : (fastIdiv (fun _ => true) signedByte (.int (-128), .int 127) 7 false).isSome := by
    rw [fastIdiv]
    rfl
  obtain ⟨e, he⟩ := Option.isSome_iff_exists.mp hwide
  refine ⟨e, he, ?_⟩
  refine (fastIdiv_exact (fun _ => true) signedByte (.int (-128), .int 127) 7 false
    (fun _ => -100) [] (-100) e rfl (by decide) (by decide) ?_ rfl ?_ ?_ he).1
  · intro k hk
    rcases Nat.lt_or_ge k 3 with hlt | hge
    · interval_cases k <;> cases hk
    · have := pow_le_pow_right₀ (show (1 : ℤ) ≤ 2 by decide) hge
      omega
  · exact ⟨-128, 127, rfl, rfl, by decide, by decide⟩
  · intro t ht
    cases ht
    decide

end Svod.Symbolic.FastDiv
