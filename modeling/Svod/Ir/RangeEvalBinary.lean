/-
  Svod.Ir.RangeEvalBinary

  The binary operations of the interval analysis: intervals that cover
  the values of the operands give an interval that covers the values of the
  result.
-/

import Svod.Ir.RangeEvalTyped
import Svod.Lib.Corners
import Svod.Lib.Fallible

namespace Svod.Ir

open Svod.Lib ConstValue

variable {v x y : ℤ} {op : BinaryOp} {s : ScalarDType} {t : IntType} {d : DType}

/-! ## Interval arithmetic -/

theorem checkedI64_eq_some (h : RangeEval.checkedI64 x = some y) : y = x := by
  unfold RangeEval.checkedI64 at h
  split at h
  · exact (Option.some.inj h).symm
  · cases h

theorem checkedI128_eq_some (h : RangeEval.checkedI128 x = some y) : y = x := by
  unfold RangeEval.checkedI128 at h
  split at h
  · exact (Option.some.inj h).symm
  · cases h

theorem checkedDivI128_eq_some {a b v : ℤ} (h : RangeEval.checkedDivI128 a b = some v) :
    b ≠ 0 ∧ v = a.tdiv b := by
  unfold RangeEval.checkedDivI128 at h
  split at h
  · cases h
  · next hb => exact ⟨hb, checkedI128_eq_some h⟩

theorem floorDivI128_eq_some {a b v : ℤ} (h : RangeEval.floorDivI128 a b = some v) :
    v = a.fdiv b := by
  simp only [RangeEval.floorDivI128, bind_eq_some] at h
  obtain ⟨q, hq, h⟩ := h
  obtain ⟨hb, rfl⟩ := checkedDivI128_eq_some hq
  rw [← fdiv_of_tdiv hb]
  split at h
  · next hr => rw [if_pos hr, checkedI128_eq_some h]
  · next hr => rw [if_neg hr, Option.some.inj h]

/-- The corner values bound the operation on the box. -/
theorem integerCornerRange_encloses {amin amax bmin bmax x y : ℤ} {eval : ℤ → ℤ → Option ℤ}
    {f : ℤ → ℤ → ℤ} (heval : ∀ a b v, eval a b = some v → v = f a b)
    (hf : BoxOneWay f amin amax bmin bmax) (hx : amin ≤ x ∧ x ≤ amax) (hy : bmin ≤ y ∧ y ≤ bmax)
    {r : ℤ × ℤ} (h : RangeEval.integerCornerRange amin amax bmin bmax eval = some r) :
    r.1 ≤ f x y ∧ f x y ≤ r.2 := by
  simp only [RangeEval.integerCornerRange, bind_eq_some,
    Option.some.injEq] at h
  obtain ⟨v₁, h₁, v₂, h₂, v₃, h₃, v₄, h₄, rfl⟩ := h
  obtain rfl := heval _ _ _ h₁
  obtain rfl := heval _ _ _ h₂
  obtain rfl := heval _ _ _ h₃
  obtain rfl := heval _ _ _ h₄
  refine ⟨?_, ?_⟩
  · apply hf.le_of_corners hx hy <;> simp
  · apply hf.ge_of_corners hx hy <;> simp

theorem fmod_bounds_pos (x : ℤ) (hy : 0 < y) : 0 ≤ x.fmod y ∧ x.fmod y ≤ y - 1 := by
  have h := Int.fmod_nonneg_of_pos x hy
  have h' := Int.fmod_lt_of_pos x hy
  omega

theorem fmod_bounds_neg (x : ℤ) (hy : y < 0) : y + 1 ≤ x.fmod y ∧ x.fmod y ≤ 0 := by
  have h := fmod_bounds_pos (-x) (y := -y) (by omega)
  rw [Int.neg_fmod_neg] at h
  omega

/-- A truncated remainder takes the sign of the dividend; it is below the divisor in size and
    no larger than the dividend. -/
theorem tmod_bounds (x : ℤ) (hy : y ≠ 0) :
    (x.tmod y).natAbs < y.natAbs ∧ (x.tmod y).natAbs ≤ x.natAbs ∧ (0 ≤ x → 0 ≤ x.tmod y) ∧
      (x ≤ 0 → x.tmod y ≤ 0) := by
  rw [Int.natAbs_tmod]
  refine ⟨Nat.mod_lt _ (Int.natAbs_pos.mpr hy), Nat.mod_le _ _, Int.tmod_nonneg y, ?_⟩
  intro hx
  have h := Int.tmod_nonneg y (a := -x) (by omega)
  rw [Int.neg_tmod] at h
  omega

/-- The interval of a binary operation before commitment encloses the mathematical results. -/
theorem integerMathRange_encloses {amin amax bmin bmax x y : ℤ} {r : ℤ × ℤ}
    (h : RangeEval.integerMathRange op amin amax bmin bmax s = some (some r))
    (hx : amin ≤ x ∧ x ≤ amax) (hy : bmin ≤ y ∧ y ≤ bmax) :
    r.1 ≤ op.apply x y ∧ op.apply x y ≤ r.2 := by
  cases op with
  | add =>
    simp only [RangeEval.integerMathRange, Option.some.injEq, bind_eq_some] at h
    obtain ⟨lo, hlo, hi, hhi, rfl⟩ := h
    obtain rfl := checkedI128_eq_some hlo
    obtain rfl := checkedI128_eq_some hhi
    show amin + bmin ≤ x + y ∧ x + y ≤ amax + bmax
    omega
  | sub =>
    simp only [RangeEval.integerMathRange, Option.some.injEq, bind_eq_some] at h
    obtain ⟨lo, hlo, hi, hhi, rfl⟩ := h
    obtain rfl := checkedI128_eq_some hlo
    obtain rfl := checkedI128_eq_some hhi
    show amin - bmax ≤ x - y ∧ x - y ≤ amax - bmin
    omega
  | mul =>
    simp only [RangeEval.integerMathRange, Option.some.injEq] at h
    exact integerCornerRange_encloses (fun _ _ _ => checkedI128_eq_some) boxOneWay_mul hx hy h
  | max =>
    simp only [RangeEval.integerMathRange, Option.some.injEq] at h
    subst h
    exact ⟨max_le_max hx.1 hy.1, max_le_max hx.2 hy.2⟩
  | floorDiv =>
    simp only [RangeEval.integerMathRange, Option.some.injEq] at h
    split at h
    · cases h
    · exact integerCornerRange_encloses (fun _ _ _ => floorDivI128_eq_some)
        (boxOneWay_fdiv (by omega)) hx hy h
  | cdiv =>
    simp only [RangeEval.integerMathRange, Option.some.injEq] at h
    split at h
    · cases h
    · exact integerCornerRange_encloses (fun _ _ _ hv => (checkedDivI128_eq_some hv).2)
        (boxOneWay_tdiv (by omega)) hx hy h
  | floorMod =>
    simp only [RangeEval.integerMathRange, Option.some.injEq] at h
    show r.1 ≤ x.fmod y ∧ x.fmod y ≤ r.2
    simp only [Int.abs_eq_natAbs] at h
    split at h
    · cases h
    · split at h
      · obtain rfl := Option.some.inj h
        have hmod := fmod_bounds_pos x (y := y) (by omega)
        show 0 ≤ x.fmod y ∧ x.fmod y ≤ Max.max (bmin.natAbs : ℤ) bmax.natAbs - 1
        omega
      · obtain rfl := Option.some.inj h
        have hmod := fmod_bounds_neg x (y := y) (by omega)
        show -(Max.max (bmin.natAbs : ℤ) bmax.natAbs - 1) ≤ x.fmod y ∧ x.fmod y ≤ 0
        omega
  | cmod =>
    simp only [RangeEval.integerMathRange, Option.some.injEq] at h
    show r.1 ≤ x.tmod y ∧ x.tmod y ≤ r.2
    split at h
    · cases h
    · have hmod := tmod_bounds x (y := y) (by omega)
      simp only [Int.abs_eq_natAbs] at h
      split at h
      · obtain rfl := Option.some.inj h
        show 0 ≤ x.tmod y ∧ x.tmod y ≤ Min.min amax (Max.max (bmin.natAbs : ℤ) bmax.natAbs - 1)
        omega
      · split at h
        · obtain rfl := Option.some.inj h
          show Max.max amin (-(Max.max (bmin.natAbs : ℤ) bmax.natAbs - 1)) ≤ x.tmod y ∧ x.tmod y ≤ 0
          omega
        · obtain rfl := Option.some.inj h
          show Max.max amin (-(Max.max (bmin.natAbs : ℤ) bmax.natAbs - 1)) ≤ x.tmod y ∧
            x.tmod y ≤ Min.min amax (Max.max (bmin.natAbs : ℤ) bmax.natAbs - 1)
          omega
  | shl =>
    simp only [RangeEval.integerMathRange, bind_eq_some,
      Option.some.injEq] at h
    obtain ⟨w, -, h⟩ := h
    split at h
    · cases h
    · exact integerCornerRange_encloses (fun _ _ _ => checkedI128_eq_some) boxOneWay_shl hx hy h
  | shr =>
    simp only [RangeEval.integerMathRange, bind_eq_some,
      Option.some.injEq] at h
    obtain ⟨w, -, h⟩ := h
    split at h
    · cases h
    · exact integerCornerRange_encloses (fun _ _ _ hv => (Option.some.inj hv).symm) boxOneWay_shr
        hx hy h
  | and | or | lt | le | eq | ne | gt | ge => cases h

/-! ## Constant operands -/

theorem checkedDivI64_eq_some (h : checkedDivI64 x y = some v) :
    y ≠ 0 ∧ ¬ (x = -2 ^ 63 ∧ y = -1) ∧ v = x.tdiv y := by
  unfold checkedDivI64 at h
  split at h
  · cases h
  · next hy => exact ⟨by omega, by omega, (Option.some.inj h).symm⟩

theorem checkedRemI64_eq_some (h : checkedRemI64 x y = some v) :
    y ≠ 0 ∧ ¬ (x = -2 ^ 63 ∧ y = -1) ∧ v = x.tmod y := by
  unfold checkedRemI64 at h
  split at h
  · cases h
  · next hy => exact ⟨by omega, by omega, (Option.some.inj h).symm⟩

theorem floorDivI64_eq_some (h : floorDivI64 x y = some v) :
    y ≠ 0 ∧ ¬ (x = -2 ^ 63 ∧ y = -1) ∧ v = x.fdiv y := by
  simp only [floorDivI64, bind_eq_some, Option.some.injEq] at h
  obtain ⟨q, hq, r, hr, rfl⟩ := h
  obtain ⟨hy, hmin, rfl⟩ := checkedDivI64_eq_some hq
  obtain ⟨-, -, rfl⟩ := checkedRemI64_eq_some hr
  exact ⟨hy, hmin, fdiv_of_tdiv hy⟩

theorem floorModI64_eq_some (h : floorModI64 x y = some v) : y ≠ 0 ∧ v = x.fmod y := by
  simp only [floorModI64, bind_eq_some, Option.some.injEq] at h
  obtain ⟨r, hr, rfl⟩ := h
  obtain ⟨hy, -, rfl⟩ := checkedRemI64_eq_some hr
  exact ⟨hy, fmod_of_tmod⟩

/-- The result on two `i64` values: exact, or wrapped at 64 bits. -/
theorem evalBinaryOp_int (hop : op.isComparison = false) (hx : -2 ^ 63 ≤ x ∧ x < 2 ^ 63)
    (hy : -2 ^ 63 ≤ y ∧ y < 2 ^ 63) {c : ConstValue}
    (h : evalBinaryOp op (.int x) (.int y) = some c) :
    ∃ z, c = .int z ∧ (-2 ^ 63 ≤ z ∧ z < 2 ^ 63) ∧
      (z = op.apply x y ∨ z = wrapSigned 64 (op.apply x y)) := by
  have hwrap : ∀ z, -2 ^ 63 ≤ wrapSigned 64 z ∧ wrapSigned 64 z < 2 ^ 63 := fun z =>
    wrapSigned_bounds (by decide) z
  have hbits : -((2 ^ 63 : ℕ) : ℤ) ≤ x ∧ x < ((2 ^ 63 : ℕ) : ℤ) := by omega
  have hbits' : -((2 ^ 63 : ℕ) : ℤ) ≤ y ∧ y < ((2 ^ 63 : ℕ) : ℤ) := by omega
  cases op with
  | add | sub | mul =>
    obtain rfl := Option.some.inj h
    exact ⟨_, rfl, hwrap _, Or.inr rfl⟩
  | max =>
    obtain rfl := Option.some.inj h
    exact ⟨_, rfl, by omega, Or.inl rfl⟩
  | cdiv =>
    obtain ⟨z, hz, rfl⟩ := Option.map_eq_some_iff.mp h
    obtain ⟨hy0, hmin, rfl⟩ := checkedDivI64_eq_some hz
    exact ⟨_, rfl, (tdiv_bounds hx hy0 hmin).1, Or.inl rfl⟩
  | floorDiv =>
    obtain ⟨z, hz, rfl⟩ := Option.map_eq_some_iff.mp h
    obtain ⟨hy0, hmin, rfl⟩ := floorDivI64_eq_some hz
    have hq := tdiv_bounds hx hy0 hmin
    refine ⟨_, rfl, ?_, Or.inl rfl⟩
    rw [← fdiv_of_tdiv hy0]
    split
    · next hr =>
      have hlt := hq.2 hr.1
      omega
    · exact hq.1
  | cmod =>
    obtain ⟨z, hz, rfl⟩ := Option.map_eq_some_iff.mp h
    obtain ⟨hy0, -, rfl⟩ := checkedRemI64_eq_some hz
    have hmod := tmod_bounds x hy0
    exact ⟨_, rfl, by omega, Or.inl rfl⟩
  | floorMod =>
    obtain ⟨z, hz, rfl⟩ := Option.map_eq_some_iff.mp h
    obtain ⟨hy0, rfl⟩ := floorModI64_eq_some hz
    refine ⟨_, rfl, ?_, Or.inl rfl⟩
    by_cases hpos : 0 < y
    · have hmod := fmod_bounds_pos x hpos
      omega
    · have hmod := fmod_bounds_neg x (y := y) (by omega)
      omega
  | shl =>
    obtain ⟨z, hz, rfl⟩ := Option.map_eq_some_iff.mp h
    simp only [Option.ite_none_right_eq_some, Option.some.injEq] at hz
    obtain ⟨-, rfl⟩ := hz
    exact ⟨_, rfl, hwrap _, Or.inr rfl⟩
  | shr =>
    obtain ⟨z, hz, rfl⟩ := Option.map_eq_some_iff.mp h
    simp only [Option.ite_none_right_eq_some, Option.some.injEq] at hz
    obtain ⟨-, rfl⟩ := hz
    exact ⟨_, rfl, ediv_pow_bounds hx _, Or.inl rfl⟩
  | and =>
    obtain rfl := Option.some.inj h
    have hle := land_bounds rfl hbits hbits'
    exact ⟨_, rfl, by omega, Or.inl rfl⟩
  | or =>
    obtain rfl := Option.some.inj h
    have hle := lor_bounds rfl hbits hbits'
    exact ⟨_, rfl, by omega, Or.inl rfl⟩
  | lt | le | eq | ne | gt | ge => cases hop

/-- The result on two `u64` values: exact, or wrapped at 64 bits. -/
theorem evalBinaryOp_uint (hop : op.isComparison = false) (hx : 0 ≤ x ∧ x < 2 ^ 64)
    (hy : 0 ≤ y ∧ y < 2 ^ 64) {c : ConstValue} (h : evalBinaryOp op (.uint x) (.uint y) = some c) :
    ∃ z, c = .uint z ∧ (0 ≤ z ∧ z < 2 ^ 64) ∧
      (z = op.apply x y ∨ z = wrapUnsigned 64 (op.apply x y)) := by
  have hwrap : ∀ z, 0 ≤ wrapUnsigned 64 z ∧ wrapUnsigned 64 z < 2 ^ 64 := fun z =>
    ⟨wrapUnsigned_nonneg 64 z, wrapUnsigned_lt 64 z⟩
  have hbits : -((2 ^ 64 : ℕ) : ℤ) ≤ x ∧ x < ((2 ^ 64 : ℕ) : ℤ) := by omega
  have hbits' : -((2 ^ 64 : ℕ) : ℤ) ≤ y ∧ y < ((2 ^ 64 : ℕ) : ℤ) := by omega
  cases op with
  | add | sub | mul =>
    obtain rfl := Option.some.inj h
    exact ⟨_, rfl, hwrap _, Or.inr rfl⟩
  | max =>
    obtain rfl := Option.some.inj h
    exact ⟨_, rfl, by omega, Or.inl rfl⟩
  | cdiv =>
    obtain ⟨z, hz, rfl⟩ := Option.map_eq_some_iff.mp h
    simp only [Option.ite_none_left_eq_some, Option.some.injEq] at hz
    obtain ⟨-, rfl⟩ := hz
    have hnn := Int.ediv_nonneg hx.1 hy.1
    have hle := Int.ediv_le_self y hx.1
    exact ⟨_, rfl, by omega, Or.inl (Int.tdiv_eq_ediv_of_nonneg hx.1).symm⟩
  | floorDiv =>
    obtain ⟨z, hz, rfl⟩ := Option.map_eq_some_iff.mp h
    simp only [Option.ite_none_left_eq_some, Option.some.injEq] at hz
    obtain ⟨-, rfl⟩ := hz
    have hnn := Int.ediv_nonneg hx.1 hy.1
    have hle := Int.ediv_le_self y hx.1
    exact ⟨_, rfl, by omega, Or.inl (Int.fdiv_eq_ediv_of_nonneg x hy.1).symm⟩
  | cmod =>
    obtain ⟨z, hz, rfl⟩ := Option.map_eq_some_iff.mp h
    simp only [Option.ite_none_left_eq_some, Option.some.injEq] at hz
    obtain ⟨hy0, rfl⟩ := hz
    have hnn := Int.emod_nonneg x hy0
    have hlt := Int.emod_lt_of_pos x (b := y) (by omega)
    exact ⟨_, rfl, by omega, Or.inl (Int.tmod_eq_emod_of_nonneg hx.1).symm⟩
  | floorMod =>
    obtain ⟨z, hz, rfl⟩ := Option.map_eq_some_iff.mp h
    simp only [Option.ite_none_left_eq_some, Option.some.injEq] at hz
    obtain ⟨hy0, rfl⟩ := hz
    have hnn := Int.emod_nonneg x hy0
    have hlt := Int.emod_lt_of_pos x (b := y) (by omega)
    exact ⟨_, rfl, by omega, Or.inl (Int.fmod_eq_emod_of_nonneg x hy.1).symm⟩
  | shl =>
    obtain ⟨z, hz, rfl⟩ := Option.map_eq_some_iff.mp h
    simp only [Option.ite_none_right_eq_some, Option.some.injEq] at hz
    obtain ⟨-, rfl⟩ := hz
    exact ⟨_, rfl, hwrap _, Or.inr rfl⟩
  | shr =>
    obtain ⟨z, hz, rfl⟩ := Option.map_eq_some_iff.mp h
    simp only [Option.ite_none_right_eq_some, Option.some.injEq] at hz
    obtain ⟨-, rfl⟩ := hz
    have hnn : 0 ≤ x / 2 ^ y.toNat := Int.ediv_nonneg hx.1 (by positivity)
    have hle := Int.ediv_le_self (2 ^ y.toNat) hx.1
    exact ⟨_, rfl, by omega, Or.inl rfl⟩
  | and =>
    obtain rfl := Option.some.inj h
    have hle := land_le_mask x hy.1
    exact ⟨_, rfl, by omega, Or.inl rfl⟩
  | or =>
    obtain rfl := Option.some.inj h
    have hnn := lor_nonneg hx.1 hy.1
    have hlt := (lor_bounds rfl hbits hbits').2
    exact ⟨_, rfl, by omega, Or.inl rfl⟩
  | lt | le | eq | ne | gt | ge => cases hop

theorem intType_bits_le (ht : intType s = some t) : t.bits ≤ 64 := by
  cases s <;> simp only [intType, reduceCtorEq, Option.some.injEq] at ht <;> subst ht <;> decide

theorem hasType_ofBool (b : Bool) : HasType .bool (.bool b) (if b then 1 else 0) := by
  cases b
  · exact ⟨_, rfl, by decide, rfl⟩
  · exact ⟨_, rfl, by decide, rfl⟩

/-- Truth values as constants. -/
theorem hasType_bool (p : Prop) [Decidable p] :
    HasType .bool (.bool p) (if p then 1 else 0) := by
  have h := hasType_ofBool (decide p)
  simp only [decide_eq_true_eq] at h
  exact h

/-- `eval_binary_op` agrees with the operation at every width. -/
theorem evalBinaryOp_value (hop : op.isComparison = false) {sa sb : ScalarDType}
    {a b c : ConstValue} (ha : HasType sa a x) (hb : HasType sb b y)
    (h : evalBinaryOp op a b = some c) :
    ∃ z, c.Machine ∧ c.integerValue = some z ∧
      ∀ t : IntType, t.bits ≤ 64 → t.wrap z = t.wrap (op.apply x y) := by
  have hma := ha.machine
  have hmb := hb.machine
  rcases ha.kind with ⟨-, p, rfl, rfl⟩ | ⟨-, -, rfl⟩ | ⟨-, -, rfl⟩ <;>
    rcases hb.kind with ⟨-, q, rfl, rfl⟩ | ⟨-, -, rfl⟩ | ⟨-, -, rfl⟩
  case inl.inl =>
    cases op with
    | and | or =>
      obtain rfl := Option.some.inj h
      refine ⟨_, trivial, rfl, fun t _ => ?_⟩
      cases p <;> cases q <;> rfl
    | lt | le | eq | ne | gt | ge => cases hop
    | add | sub | mul | max | floorDiv | cdiv | floorMod | cmod | shl | shr => cases h
  case inr.inl.inr.inl =>
    obtain ⟨z, rfl, hm, hz⟩ := evalBinaryOp_uint hop hma hmb h
    refine ⟨z, hm, rfl, fun t ht => ?_⟩
    rcases hz with rfl | rfl
    · rfl
    · exact t.wrap_wrapUnsigned ht _
  case inr.inr.inr.inr =>
    obtain ⟨z, rfl, hm, hz⟩ := evalBinaryOp_int hop hma hmb h
    refine ⟨z, hm, rfl, fun t ht => ?_⟩
    rcases hz with rfl | rfl
    · rfl
    · exact t.wrap_wrapSigned ht _
  -- operands of different kinds have no result
  all_goals cases op <;> cases h

/-- A boolean operation on booleans stays boolean. -/
theorem evalBinaryOp_bool {p q : Bool} {c : ConstValue}
    (h : evalBinaryOp op (.bool p) (.bool q) = some c) : ∃ r, c = .bool r := by
  cases op <;> first | exact ⟨_, (Option.some.inj h).symm⟩ | cases h

theorem evalBinaryOpTyped_hasType (hop : op.isComparison = false) {sa sb s : ScalarDType}
    (ht : intType s = some t) (hs : s = .bool → sa = .bool ∧ sb = .bool) {a b c : ConstValue}
    (ha : HasType sa a x) (hb : HasType sb b y) (h : evalBinaryOpTyped op a b s = some c) :
    HasType s c (t.wrap (op.apply x y)) := by
  obtain ⟨c₀, hc₀, hcast⟩ := Option.bind_eq_some_iff.mp h
  obtain ⟨z, hm, hz, hwrap⟩ := evalBinaryOp_value hop ha hb hc₀
  obtain ⟨c', hc', hty⟩ := cast_hasType ht hm hz
  obtain rfl : c = c' := Option.some.inj (hcast.symm.trans hc')
  suffices hval : castTo s t z = t.wrap (op.apply x y) by rwa [hval] at hty
  rw [← hwrap t (intType_bits_le ht)]
  by_cases hb' : s = .bool
  · -- the result of a boolean operation is zero or one already
    obtain ⟨rfl, rfl⟩ := hs hb'
    subst hb'
    obtain rfl : _ = t := Option.some.inj ht
    rcases ha.kind with ⟨-, p, rfl, -⟩ | ⟨hn, -⟩ | ⟨hn, -⟩
    · rcases hb.kind with ⟨-, q, rfl, -⟩ | ⟨hn, -⟩ | ⟨hn, -⟩
      · obtain ⟨r, rfl⟩ := evalBinaryOp_bool hc₀
        obtain rfl := Option.some.inj hz
        cases r <;> rfl
      · exact absurd rfl hn
      · exact absurd rfl hn
    · exact absurd rfl hn
    · exact absurd rfl hn
  · exact if_neg hb'

theorem evalBinaryOp_comparison (hop : op.isComparison = true) {sa sb : ScalarDType}
    {a b c : ConstValue} (ha : HasType sa a x) (hb : HasType sb b y)
    (h : evalBinaryOp op a b = some c) : HasType .bool c (op.apply x y) := by
  rcases ha.kind with ⟨-, p, rfl, rfl⟩ | ⟨-, -, rfl⟩ | ⟨-, -, rfl⟩ <;>
    rcases hb.kind with ⟨-, q, rfl, rfl⟩ | ⟨-, -, rfl⟩ | ⟨-, -, rfl⟩ <;>
    cases op <;>
    first
    | (obtain rfl := Option.some.inj h; exact hasType_bool _)
    | (cases hop; done)
    | cases h

/-! ## Binary operations -/

/-- The results of a binary operation at type `t`. -/
def binaryValues (op : BinaryOp) (t : IntType) (A B : ℤ → Prop) (v : ℤ) : Prop :=
  ∃ x y, A x ∧ B y ∧ v = t.wrap (op.apply x y)

theorem binaryValues_contains {A B : ℤ → Prop} (h : binaryValues op t A B v) : t.Contains v := by
  obtain ⟨x, y, -, -, rfl⟩ := h
  exact t.wrap_contains _

theorem computeTypedIntegerBinaryRange_covers {sa sb s : ScalarDType} (ht : intType s = some t)
    {a b c : RangeEval.Bounds} {A B : ℤ → Prop} (ha : Covers sa a A) (hb : Covers sb b B)
    (h : RangeEval.computeTypedIntegerBinaryRange op a b s = some c) :
    Covers s c (binaryValues op t A B) := by
  obtain ⟨amin, amax, hamin, hamax, hA⟩ := ha
  obtain ⟨bmin, bmax, hbmin, hbmax, hB⟩ := hb
  simp only [RangeEval.computeTypedIntegerBinaryRange, hamin.integerValue, hamax.integerValue,
    hbmin.integerValue, hbmax.integerValue, integerDtypeBounds_eq ht, Option.bind_eq_bind,
    Option.bind_some] at h
  split at h
  · -- the least value over `-1`
    obtain rfl := Option.some.inj h
    exact Covers.full ht fun v => binaryValues_contains
  · simp only [Option.bind_eq_some_iff, Option.some.injEq] at h
    obtain ⟨math, hmath, rfl⟩ := h
    have hcov : Covers s _ _ := Covers.commit ht (r := math)
      (S := fun z => ∃ x y, A x ∧ B y ∧ z = op.apply x y) (by
        intro lo hi hr z hz
        obtain ⟨x, y, hx, hy, rfl⟩ := hz
        subst hr
        exact integerMathRange_encloses hmath (hA x hx) (hB y hy))
    apply hcov.mono
    intro v hv
    obtain ⟨x, y, hx, hy, rfl⟩ := hv
    exact ⟨_, ⟨x, y, hx, hy, rfl⟩, rfl⟩

/-- The typed analysis handles all integer operations but the bitwise ones. -/
theorem computeTypedIntegerBinaryRange_isSome (hop : op.isComparison = false) (hand : op ≠ .and)
    (hor : op ≠ .or) {sa sb s : ScalarDType} (ht : intType s = some t) (hs : s.isInt = true)
    {a b : RangeEval.Bounds} {A B : ℤ → Prop} (ha : Covers sa a A) (hb : Covers sb b B) :
    ∃ c, RangeEval.computeTypedIntegerBinaryRange op a b s = some c := by
  obtain ⟨amin, amax, hamin, hamax, -⟩ := ha
  obtain ⟨bmin, bmax, hbmin, hbmax, -⟩ := hb
  have hwidth : ∃ w, RangeEval.integerBitWidth s = some w := by
    cases s <;> first | exact ⟨_, rfl⟩ | cases hs
  obtain ⟨w, hw⟩ := hwidth
  simp only [RangeEval.computeTypedIntegerBinaryRange, hamin.integerValue, hamax.integerValue,
    hbmin.integerValue, hbmax.integerValue, integerDtypeBounds_eq ht, Option.bind_eq_bind,
    Option.bind_some]
  split
  · exact ⟨_, rfl⟩
  · cases op with
    | and => exact absurd rfl hand
    | or => exact absurd rfl hor
    | lt | le | eq | ne | gt | ge => cases hop
    | shl | shr => exact ⟨_, by simp only [RangeEval.integerMathRange, hw]; rfl⟩
    | add | sub | mul | max | floorDiv | cdiv | floorMod | cmod => exact ⟨_, rfl⟩

/-- On booleans only `&` and `|` are more precise than the bounds of the dtype. -/
theorem computeBinaryRange_bool (hop : op.isComparison = false) (hand : op ≠ .and)
    (hor : op ≠ .or) (p₁ p₂ q₁ q₂ : Bool) :
    RangeEval.computeUntypedBinaryRange op (.bool p₁, .bool p₂) (.bool q₁, .bool q₂) d =
      RangeEval.dtypeBounds d.base := by
  cases op with
  | and => exact absurd rfl hand
  | or => exact absurd rfl hor
  | lt | le | eq | ne | gt | ge => cases hop
  | shl | shr =>
    simp only [RangeEval.computeUntypedBinaryRange, RangeEval.computeShiftRange]
    split
    · next h => cases h
    · next h => cases h
    · rfl
  | add | sub | mul | max | floorDiv | cdiv | floorMod | cmod => rfl

/-- The four corners of a conjunction or a disjunction. -/
theorem evalFourCorners_bool (hop : op = .and ∨ op = .or) (p₁ p₂ q₁ q₂ : Bool) :
    ∃ r₁ r₂ : Bool,
      RangeEval.evalFourCorners op (.bool p₁, .bool p₂) (.bool q₁, .bool q₂) .bool =
        (.bool r₁, .bool r₂) ∧
      ∀ p q : Bool, p₁ ≤ p ∧ p ≤ p₂ → q₁ ≤ q ∧ q ≤ q₂ → ∃ r : Bool,
        (⟨false, 1, by decide⟩ : IntType).wrap
          (op.apply (if p then 1 else 0) (if q then 1 else 0)) = (if r then 1 else 0) ∧
        r₁ ≤ r ∧ r ≤ r₂ := by
  rcases hop with rfl | rfl <;> revert p₁ p₂ q₁ q₂ <;> decide

/-- Ends of one constant cover one value. -/
theorem Covers.eq_of_const {b : RangeEval.Bounds} {S : ℤ → Prop} (h : Covers s b S)
    (hb : b.1 = b.2) : ∃ l, HasType s b.1 l ∧ ∀ v, S v → v = l := by
  obtain ⟨l, u, hl, hu, hcov⟩ := h
  refine ⟨l, hl, ?_⟩
  intro v hv
  have hlu : l = u := hl.unique (hb ▸ hu)
  have hv' := hcov v hv
  omega

theorem Covers.bool {b : RangeEval.Bounds} {S : ℤ → Prop} (h : Covers .bool b S) :
    ∃ p q : Bool, b = (.bool p, .bool q) ∧
      ∀ v, S v → ∃ r : Bool, (v = if r then 1 else 0) ∧ p ≤ r ∧ r ≤ q := by
  obtain ⟨l, u, hl, hu, hcov⟩ := h
  obtain ⟨b₁, b₂⟩ := b
  rcases hl.kind with ⟨-, p, hp, rfl⟩ | ⟨hn, -⟩ | ⟨hn, -⟩
  · rcases hu.kind with ⟨-, q, hq, rfl⟩ | ⟨hn, -⟩ | ⟨hn, -⟩
    · refine ⟨p, q, by rw [← hp, ← hq], ?_⟩
      intro v hv
      have h := hcov v hv
      refine ⟨decide (v = 1), ?_⟩
      cases p <;> cases q <;> simp only [if_true, if_false, reduceCtorEq] at h
      · obtain rfl : v = 0 := by omega
        decide
      · have hv01 : v = 0 ∨ v = 1 := by omega
        rcases hv01 with rfl | rfl <;> decide
      · omega
      · obtain rfl : v = 1 := by omega
        decide
    · exact absurd rfl hn
    · exact absurd rfl hn
  · exact absurd rfl hn
  · exact absurd rfl hn

theorem Covers.ofBool {p q : Bool} {S : ℤ → Prop}
    (h : ∀ v, S v → ∃ r : Bool, (v = if r then 1 else 0) ∧ p ≤ r ∧ r ≤ q) :
    Covers .bool (.bool p, .bool q) S := by
  refine ⟨_, _, hasType_ofBool p, hasType_ofBool q, ?_⟩
  intro v hv
  obtain ⟨r, rfl, hp, hq⟩ := h v hv
  revert hp hq
  cases p <;> cases r <;> cases q <;> decide

theorem isInt_of_ne_bool (ht : intType s = some t) (hs : s ≠ .bool) : s.isInt = true := by
  cases s <;> first | rfl | exact absurd rfl hs | cases ht

/-- `compute_binary_range` off the constants, for the operations with a mathematical
    interval. -/
theorem computeBinaryRange_covers (hop : op.isComparison = false) (hand : op ≠ .and)
    (hor : op ≠ .or) {sa sb : ScalarDType} (ht : intType d.base = some t)
    (hbool : d.base = .bool → sa = .bool ∧ sb = .bool) {a b : RangeEval.Bounds} {A B : ℤ → Prop}
    (ha : Covers sa a A) (hb : Covers sb b B) (hconst : ¬ (a.1 = a.2 ∧ b.1 = b.2)) :
    Covers d.base (RangeEval.computeBinaryRange op a b d) (binaryValues op t A B) := by
  have hif : ¬ (a.1 = a.2 ∧ b.1 = b.2 ∧ (!op.isComparison) = true) := fun h =>
    hconst ⟨h.1, h.2.1⟩
  unfold RangeEval.computeBinaryRange
  rw [if_neg hif]
  by_cases hs : d.base = .bool
  · -- booleans
    have hint : ¬ d.base.isInt = true := by rw [hs]; decide
    rw [if_neg hint]
    obtain ⟨rfl, rfl⟩ := hbool hs
    obtain ⟨p₁, p₂, rfl, -⟩ := ha.bool
    obtain ⟨q₁, q₂, rfl, -⟩ := hb.bool
    show Covers d.base (RangeEval.computeUntypedBinaryRange op _ _ d) _
    rw [computeBinaryRange_bool hop hand hor]
    exact Covers.full ht fun v => binaryValues_contains
  · -- integers
    have hint : d.base.isInt = true := isInt_of_ne_bool ht hs
    rw [if_pos hint]
    obtain ⟨c, hc⟩ := computeTypedIntegerBinaryRange_isSome hop hand hor ht hint ha hb
    rw [hc]
    exact computeTypedIntegerBinaryRange_covers ht ha hb hc

/-- A conjunction or a disjunction of booleans. -/
theorem computeBinaryRange_bool_covers (hop : op = .and ∨ op = .or) {a b : RangeEval.Bounds}
    {A B : ℤ → Prop} (ha : Covers .bool a A) (hb : Covers .bool b B) (ht : intType .bool = some t)
    (hconst : ¬ (a.1 = a.2 ∧ b.1 = b.2)) :
    Covers .bool (RangeEval.computeBinaryRange op a b (.scalar .bool))
      (binaryValues op t A B) := by
  have hif : ¬ (a.1 = a.2 ∧ b.1 = b.2 ∧ (!op.isComparison) = true) := fun h =>
    hconst ⟨h.1, h.2.1⟩
  have hcomp : RangeEval.computeBinaryRange op a b (.scalar .bool) =
      RangeEval.evalFourCorners op a b .bool := by
    unfold RangeEval.computeBinaryRange
    rw [if_neg hif]
    rcases hop with rfl | rfl <;> rfl
  rw [hcomp]
  obtain ⟨p₁, p₂, rfl, hA⟩ := ha.bool
  obtain ⟨q₁, q₂, rfl, hB⟩ := hb.bool
  obtain ⟨r₁, r₂, hr, hcorner⟩ := evalFourCorners_bool hop p₁ p₂ q₁ q₂
  obtain rfl : _ = t := Option.some.inj ht
  rw [hr]
  apply Covers.ofBool
  intro v hv
  obtain ⟨x, y, hx, hy, rfl⟩ := hv
  obtain ⟨p, rfl, hp⟩ := hA x hx
  obtain ⟨q, rfl, hq⟩ := hB y hy
  exact hcorner p q hp hq

/-- A conjunction with a constant mask that is not negative lies below the mask. -/
theorem binaryValues_mask {m : ℤ} (hm : 0 ≤ m) (hmt : m ≤ t.max ∨ t.min = 0) {A B : ℤ → Prop}
    (hB : ∀ y, B y → y = m) (hv : binaryValues .and t A B v) : 0 ≤ v ∧ v ≤ m := by
  obtain ⟨x, y, -, hy, rfl⟩ := hv
  obtain rfl := hB y hy
  have hle := land_le_mask x hm
  show 0 ≤ t.wrap (x.land y) ∧ t.wrap (x.land y) ≤ y
  by_cases hmax : y ≤ t.max
  · have hwrap : t.wrap (x.land y) = x.land y :=
      IntType.wrap_of_contains ⟨t.contains_zero.1.trans hle.1, hle.2.trans hmax⟩
    rw [hwrap]
    exact hle
  · -- the mask lies above the type
    have hin := t.wrap_contains (x.land y)
    exact ⟨hmt.resolve_left hmax ▸ hin.1, hin.2.trans (not_le.mp hmax).le⟩

theorem mask_covers (ht : intType s = some t) {m : ℤ} (hm : 0 ≤ m) {A B : ℤ → Prop}
    (hb : Covers s (.int m, .int m) B) : Covers s (.int 0, .int m) (binaryValues .and t A B) := by
  obtain ⟨l, hl, hB⟩ := hb.eq_of_const rfl
  obtain rfl : m = l := Option.some.inj hl.integerValue
  have h0 : HasType s (.int 0) 0 := by
    obtain ⟨t', ht', hc, heq⟩ := hl
    refine ⟨t', ht', t'.contains_zero, ?_⟩
    -- the kind of the mask is the kind of the type
    unfold constOf at heq ⊢
    split
    · rfl
    · next hs =>
      rw [if_neg hs] at heq
      split at heq <;> cases heq
  exact ⟨0, m, h0, hl, fun v => binaryValues_mask hm (Or.inl (hl.contains ht).2) hB⟩

theorem computeBinaryRange_mask {a : RangeEval.Bounds} {m : ℤ} (hm : 0 ≤ m)
    (hd : d ≠ .scalar .bool) (ha : a.1 ≠ a.2) :
    RangeEval.computeBinaryRange .and a (.int m, .int m) d = (.int 0, .int m) := by
  have htyped : RangeEval.computeTypedIntegerBinaryRange .and a (.int m, .int m) d.base = none := by
    cases h : RangeEval.computeTypedIntegerBinaryRange .and a (.int m, .int m) d.base with
    | none => rfl
    | some c =>
      simp only [RangeEval.computeTypedIntegerBinaryRange, bind_eq_some, BinaryOp.isDivision,
        Bool.false_eq_true, false_and, if_false,
        RangeEval.integerMathRange, reduceCtorEq, exists_false, and_false] at h
  have hif : ¬ (a.1 = a.2 ∧ (ConstValue.int m, ConstValue.int m).1 = .int m ∧
      (!BinaryOp.and.isComparison) = true) := fun h => ha h.1
  unfold RangeEval.computeBinaryRange
  rw [if_neg hif, htyped, ite_self]
  show RangeEval.computeBitwiseRange .and a (.int m, .int m) d = _
  simp only [RangeEval.computeBitwiseRange, hd, if_false, ge_iff_le, hm, and_self, if_true]

/-- `Op::Binary` for the operations that are not comparisons.  The constant mask of an integer
    conjunction must have bounds of the type of the node. -/
theorem soundBinaryRange_covers (hop : op.isComparison = false) {same : Bool}
    {sa sb : ScalarDType} (ht : intType d.base = some t)
    (hbool : d.base = .bool → sa = .bool ∧ sb = .bool) {a b c : RangeEval.Bounds} {A B : ℤ → Prop}
    (ha : Covers sa a A) (hb : Covers sb b B)
    (hmask : op = .and → ∀ m, 0 ≤ m → b = (.int m, .int m) → Covers d.base b B ∨ a.1 = a.2)
    (h : RangeEval.soundBinaryRange op same a b d = some c) :
    Covers d.base c (binaryValues op t A B) := by
  unfold RangeEval.soundBinaryRange at h
  by_cases hconst : a.1 = a.2 ∧ b.1 = b.2
  · -- both operands are constant
    rw [if_pos hconst] at h
    simp only [hop, Bool.false_eq_true, if_false, bind_eq_some] at h
    obtain ⟨value, hvalue, h⟩ := h
    simp only [Option.ite_none_right_eq_some, Option.some.injEq] at h
    obtain ⟨-, rfl⟩ := h
    obtain ⟨x, hx, hA⟩ := ha.eq_of_const hconst.1
    obtain ⟨y, hy, hB⟩ := hb.eq_of_const hconst.2
    have hty := evalBinaryOpTyped_hasType hop ht hbool hx hy hvalue
    apply (Covers.point hty).mono
    intro v hv
    obtain ⟨x', y', hx', hy', rfl⟩ := hv
    rw [hA x' hx', hB y' hy']
  · rw [if_neg hconst] at h
    simp only [hop, Bool.false_and, Bool.false_eq_true, if_false] at h
    cases op with
    | lt | le | eq | ne | gt | ge => cases hop
    | and =>
      by_cases hd : d = .scalar .bool
      · subst hd
        obtain ⟨rfl, rfl⟩ := hbool rfl
        simp only [if_true, Option.some.injEq] at h
        subst h
        exact computeBinaryRange_bool_covers (Or.inl rfl) ha hb ht hconst
      · simp only [hd, if_false] at h
        split at h
        · next bmin bmax =>
          simp only [Option.ite_none_right_eq_some, Option.some.injEq] at h
          obtain ⟨⟨hint, rfl, hm⟩, rfl⟩ := h
          -- the mask is constant, so the other operand is not
          have hb' : Covers d.base (.int bmin, .int bmin) B := by
            rcases hmask rfl bmin hm rfl with hb' | ha'
            · exact hb'
            · exact absurd ⟨ha', rfl⟩ hconst
          rw [computeBinaryRange_mask hm hd fun ha' => hconst ⟨ha', rfl⟩]
          exact mask_covers ht hm hb'
        · cases h
    | or =>
      simp only [Option.ite_none_right_eq_some, Option.some.injEq] at h
      obtain ⟨rfl, rfl⟩ := h
      obtain ⟨rfl, rfl⟩ := hbool rfl
      exact computeBinaryRange_bool_covers (Or.inr rfl) ha hb ht hconst
    | add | sub | mul | max | floorDiv | cdiv | floorMod | cmod | shl | shr =>
      obtain rfl := Option.some.inj h
      exact computeBinaryRange_covers hop (by decide) (by decide) ht hbool ha hb hconst

theorem intType_min_unsigned (ht : intType s = some t) (hs : s.isUnsigned = true) : t.min = 0 := by
  cases s with
  | uint8 | uint16 | uint32 | uint64 =>
    obtain rfl : _ = t := Option.some.inj ht
    rfl
  | _ => cases hs

/-- A conjunction with a constant mask of any type, which lies in a signed dtype. -/
theorem soundBinaryRange_mask {same : Bool} {sa sb : ScalarDType} (ht : intType d.base = some t)
    (hbool : d.base = .bool → sa = .bool ∧ sb = .bool) {a c : RangeEval.Bounds} {m : ℤ}
    (hm : 0 ≤ m) {A B : ℤ → Prop} (hb : Covers sb (.int m, .int m) B)
    (hin : d.base.isUnsigned ∨ RangeEval.Within (.int m, .int m) d.base) (ha : a.1 ≠ a.2)
    (h : RangeEval.soundBinaryRange .and same a (.int m, .int m) d = some c) :
    Encloses d.base c (binaryValues .and t A B) := by
  obtain ⟨l, hl, hB⟩ := hb.eq_of_const rfl
  obtain rfl : m = l := Option.some.inj hl.integerValue
  have hsb : sb ≠ .bool := by
    rcases hl.kind with ⟨-, p, hp, -⟩ | ⟨hs, -⟩ | ⟨hs, -⟩
    · cases hp
    · exact hs
    · exact hs
  have hd : d.base ≠ .bool := fun hd => hsb (hbool hd).2
  have hd' : d ≠ .scalar .bool := fun h => hd (by rw [h]; rfl)
  unfold RangeEval.soundBinaryRange at h
  rw [if_neg fun hconst => ha hconst.1] at h
  simp only [BinaryOp.isComparison, Bool.false_and, Bool.false_eq_true, if_false, hd',
    Option.ite_none_right_eq_some, Option.some.injEq] at h
  obtain ⟨-, rfl⟩ := h
  rw [computeBinaryRange_mask hm hd' ha]
  refine ⟨iff_of_false (show ¬ ScalarDType.int64 = .bool by decide) hd, 0, m, ?_, hl.wide.1, ?_⟩
  · exact ⟨_, rfl, by decide, rfl⟩
  · have hmt : m ≤ t.max ∨ t.min = 0 := by
      rcases hin with hu | hin
      · exact Or.inr (intType_min_unsigned ht hu)
      · exact Or.inl (hin.ends ht hl hl).2
    exact fun v => binaryValues_mask hm hmt hB

/-- `Op::Binary` for the operations that are not comparisons, on operands of any type. -/
theorem soundBinaryRange_encloses (hop : op.isComparison = false) {same : Bool}
    {sa sb : ScalarDType} (ht : intType d.base = some t)
    (hbool : d.base = .bool → sa = .bool ∧ sb = .bool) {a b c : RangeEval.Bounds} {A B : ℤ → Prop}
    (ha : Covers sa a A) (hb : Covers sb b B) (hmask : op = .and → a.1 = a.2 ∧ b.1 = b.2 ∨
      ∀ m, 0 ≤ m → b = (.int m, .int m) → d.base.isUnsigned ∨ RangeEval.Within b d.base)
    (h : RangeEval.soundBinaryRange op same a b d = some c) :
    Encloses d.base c (binaryValues op t A B) := by
  by_cases hm : op = .and ∧ a.1 ≠ a.2 ∧ ∃ m, 0 ≤ m ∧ b = (.int m, .int m)
  · obtain ⟨rfl, hne, m, hm, rfl⟩ := hm
    have hin := (hmask rfl).resolve_left (fun hconst => hne hconst.1) m hm rfl
    exact soundBinaryRange_mask ht hbool hm hb hin hne h
  · apply (soundBinaryRange_covers hop ht hbool ha hb ?_ h).encloses Iff.rfl
    intro hand m hm0 hbm
    exact Or.inr (not_not.mp fun hne => hm ⟨hand, hne, m, hm0, hbm⟩)

/-! ## Comparisons -/

section Comparison

variable {sa sb : ScalarDType} {a b : RangeEval.Bounds} {A B : ℤ → Prop}

theorem analyzeLt_sound (hk : sameKind sa sb) (ha : Covers sa a A) (hb : Covers sb b B) {r : Bool}
    (h : RangeEval.analyzeLt a b = some r) (hx : A x) (hy : B y) : decide (x < y) = r := by
  obtain ⟨la, ua, hla, hua, hA⟩ := ha
  obtain ⟨lb, ub, hlb, hub, hB⟩ := hb
  have hAx := hA x hx
  have hBy := hB y hy
  simp only [RangeEval.analyzeLt, compare_hasType hua hlb hk, compare_hasType hla hub hk,
    compare_lt_iff_lt, ne_eq] at h
  split at h
  · obtain rfl := Option.some.inj h
    exact decide_eq_true (by omega)
  · split at h
    · obtain rfl := Option.some.inj h
      exact decide_eq_false (by omega)
    · cases h

theorem analyzeLe_sound (hk : sameKind sa sb) (ha : Covers sa a A) (hb : Covers sb b B) {r : Bool}
    (h : RangeEval.analyzeLe a b = some r) (hx : A x) (hy : B y) : decide (x ≤ y) = r := by
  obtain ⟨la, ua, hla, hua, hA⟩ := ha
  obtain ⟨lb, ub, hlb, hub, hB⟩ := hb
  have hAx := hA x hx
  have hBy := hB y hy
  simp only [RangeEval.analyzeLe, compare_hasType hua hlb hk, compare_hasType hla hub hk,
    compare_gt_iff_gt, ne_eq] at h
  split at h
  · obtain rfl := Option.some.inj h
    exact decide_eq_true (by omega)
  · split at h
    · obtain rfl := Option.some.inj h
      exact decide_eq_false (by omega)
    · cases h

/-- Equality is decided right for all kinds: constants of different kinds are neither disjoint
    nor equal. -/
theorem analyzeEq_sound (ha : Covers sa a A) (hb : Covers sb b B) {r : Bool}
    (h : RangeEval.analyzeEq a b = some r) (hx : A x) (hy : B y) : decide (x = y) = r := by
  obtain ⟨la, ua, hla, hua, hA⟩ := ha
  obtain ⟨lb, ub, hlb, hub, hB⟩ := hb
  have hAx := hA x hx
  have hBy := hB y hy
  unfold RangeEval.analyzeEq RangeEval.rangesDisjoint at h
  by_cases hk : sameKind sa sb
  · simp only [compare_hasType hua hlb hk, compare_hasType hla hub hk, compare_lt_iff_lt,
      compare_gt_iff_gt, Bool.or_eq_true, decide_eq_true_eq] at h
    split at h
    · obtain rfl := Option.some.inj h
      exact decide_eq_false (by omega)
    · split at h
      · next heq =>
        obtain rfl := Option.some.inj h
        obtain ⟨h₁, h₂, h₃⟩ := heq
        have hl : la = ua := hla.unique (h₁ ▸ hua)
        have hu : lb = ub := hlb.unique (h₂ ▸ hub)
        have hlu : la = lb := hla.unique (h₃ ▸ hlb)
        exact decide_eq_true (by omega)
      · cases h
  · have hcmp := (compare_of_not_sameKind hua hlb hk).1
    have hcmp' := (compare_of_not_sameKind hla hub hk).1
    have hne := (compare_of_not_sameKind hla hlb hk).2.2
    simp [hcmp, hcmp', hne] at h

/-- A decided comparison has the value the analyzer gives. -/
theorem analyzeWithRanges_sound (hk : op = .eq ∨ op = .ne ∨ sameKind sa sb) (ha : Covers sa a A)
    (hb : Covers sb b B) {r : Bool} (h : RangeEval.analyzeWithRanges op a b = some r) (hx : A x)
    (hy : B y) : op.apply x y = if r then 1 else 0 := by
  have hkind : op ≠ .eq → op ≠ .ne → sameKind sa sb := fun h₁ h₂ =>
    (hk.resolve_left h₁).resolve_left h₂
  cases op with
  | lt =>
    obtain rfl := analyzeLt_sound (hkind (by decide) (by decide)) ha hb h hx hy
    simp [BinaryOp.apply]
  | le =>
    obtain rfl := analyzeLe_sound (hkind (by decide) (by decide)) ha hb h hx hy
    simp [BinaryOp.apply]
  | gt =>
    have hk' := hkind (by decide) (by decide)
    obtain rfl := analyzeLt_sound ⟨hk'.1.symm, hk'.2.symm⟩ hb ha h hy hx
    simp [BinaryOp.apply]
  | ge =>
    have hk' := hkind (by decide) (by decide)
    obtain rfl := analyzeLe_sound ⟨hk'.1.symm, hk'.2.symm⟩ hb ha h hy hx
    simp [BinaryOp.apply]
  | eq =>
    obtain rfl := analyzeEq_sound ha hb h hx hy
    simp [BinaryOp.apply]
  | ne =>
    obtain ⟨r', hr', rfl⟩ := Option.map_eq_some_iff.mp h
    obtain rfl := analyzeEq_sound ha hb hr' hx hy
    simp [BinaryOp.apply]
  | add | sub | mul | max | floorDiv | cdiv | floorMod | cmod | shl | shr | and | or => cases h

/-- A comparison is zero or one. -/
theorem apply_comparison (hop : op.isComparison = true) (x y : ℤ) :
    ∃ r : Bool, op.apply x y = if r then 1 else 0 := by
  cases op with
  | lt => exact ⟨decide (x < y), by simp [BinaryOp.apply]⟩
  | le => exact ⟨decide (x ≤ y), by simp [BinaryOp.apply]⟩
  | eq => exact ⟨decide (x = y), by simp [BinaryOp.apply]⟩
  | ne => exact ⟨decide (x ≠ y), by simp [BinaryOp.apply]⟩
  | gt => exact ⟨decide (x > y), by simp [BinaryOp.apply]⟩
  | ge => exact ⟨decide (x ≥ y), by simp [BinaryOp.apply]⟩
  | add | sub | mul | max | floorDiv | cdiv | floorMod | cmod | shl | shr | and | or => cases hop

theorem reflexiveComparisonRange_eq (hop : op.isComparison = true) (x : ℤ) :
    ∃ r : Bool, RangeEval.reflexiveComparisonRange op = (.bool r, .bool r) ∧
      op.apply x x = if r then 1 else 0 := by
  cases op with
  | lt | ne | gt => exact ⟨false, rfl, by simp [BinaryOp.apply]⟩
  | le | eq | ge => exact ⟨true, rfl, by simp [BinaryOp.apply]⟩
  | add | sub | mul | max | floorDiv | cdiv | floorMod | cmod | shl | shr | and | or => cases hop

/-- `Op::Binary` for the comparisons.  `R` relates the values the operands take together; a
    node compared with itself takes one value on both sides. -/
theorem soundBinaryRange_comparison (hop : op.isComparison = true) {same : Bool}
    (hd : d.base = .bool)
    (hk : op = .eq ∨ op = .ne ∨ sameKind sa sb ∨ a.1 = a.2 ∧ b.1 = b.2 ∨ same = true)
    (ha : Covers sa a A) (hb : Covers sb b B) {R : ℤ → ℤ → Prop} (hR : ∀ x y, R x y → A x ∧ B y)
    (hsame : same = true → ∀ x y, R x y → x = y) {c : RangeEval.Bounds}
    (h : RangeEval.soundBinaryRange op same a b d = some c) :
    Covers .bool c (fun v => ∃ x y, R x y ∧ v = op.apply x y) := by
  unfold RangeEval.soundBinaryRange at h
  by_cases hconst : a.1 = a.2 ∧ b.1 = b.2
  · -- both operands are constant
    rw [if_pos hconst] at h
    simp only [hop, if_true, bind_eq_some] at h
    obtain ⟨value, hvalue, h⟩ := h
    simp only [Option.ite_none_right_eq_some, Option.some.injEq] at h
    obtain ⟨-, rfl⟩ := h
    obtain ⟨x, hx, hA⟩ := ha.eq_of_const hconst.1
    obtain ⟨y, hy, hB⟩ := hb.eq_of_const hconst.2
    apply (Covers.point (evalBinaryOp_comparison hop hx hy hvalue)).mono
    intro v hv
    obtain ⟨x', y', hxy, rfl⟩ := hv
    rw [hA x' (hR x' y' hxy).1, hB y' (hR x' y' hxy).2]
  · rw [if_neg hconst] at h
    by_cases hs : same = true
    · -- one node on both sides
      simp only [hop, hs, Bool.true_and, if_true, Option.some.injEq] at h
      subst h
      obtain ⟨r, hr, -⟩ := reflexiveComparisonRange_eq hop 0
      rw [hr]
      apply Covers.ofBool
      intro v hv
      obtain ⟨x, y, hxy, rfl⟩ := hv
      obtain rfl := hsame hs x y hxy
      obtain ⟨r', hr', hv⟩ := reflexiveComparisonRange_eq hop x
      obtain rfl : r = r' := by
        rw [hr] at hr'
        exact ConstValue.bool.inj (Prod.mk.inj hr').1
      exact ⟨r, hv, le_refl r, le_refl r⟩
    · have hcomp : c = RangeEval.getComparisonRange op a b := by
        have hint : ¬ d.base.isInt = true := by rw [hd]; decide
        simp only [hop, hs, Bool.and_false, Bool.false_eq_true, if_false] at h
        cases op with
        | lt | le | eq | ne | gt | ge =>
          simp only [RangeEval.computeBinaryRange, BinaryOp.isComparison, Bool.not_true,
            Bool.false_eq_true, and_false, if_false, hint, Option.some.injEq,
            RangeEval.computeUntypedBinaryRange] at h
          exact h.symm
        | add | sub | mul | max | floorDiv | cdiv | floorMod | cmod | shl | shr | and | or =>
          cases hop
      subst hcomp
      have hk' : op = .eq ∨ op = .ne ∨ sameKind sa sb := by
        rcases hk with hk | hk | hk | hk | hk
        · exact Or.inl hk
        · exact Or.inr (Or.inl hk)
        · exact Or.inr (Or.inr hk)
        · exact absurd hk hconst
        · exact absurd hk hs
      unfold RangeEval.getComparisonRange
      cases hr : RangeEval.analyzeWithRanges op a b with
      | some r =>
        apply Covers.ofBool
        intro v hv
        obtain ⟨x, y, hxy, rfl⟩ := hv
        exact ⟨r, analyzeWithRanges_sound hk' ha hb hr (hR x y hxy).1 (hR x y hxy).2, le_refl r,
          le_refl r⟩
      | none =>
        apply Covers.ofBool
        intro v hv
        obtain ⟨x, y, hxy, rfl⟩ := hv
        obtain ⟨r, hr⟩ := apply_comparison hop x y
        exact ⟨r, hr, Bool.false_le r, Bool.le_true r⟩

end Comparison

end Svod.Ir
