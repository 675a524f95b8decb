/-
  Svod.Symbolic.FastDiv

  Strength reduction of integer division (`symbolic/fast_div.rs`).

  A division by a constant becomes a product and a shift: in the type of the
  dividend where the product fits, after the lowest power of two of the divisor
  is divided out, or in the next wider type.
-/

import Svod.Lib.Checked
import Svod.Symbolic.Expr

namespace Svod.Symbolic.FastDiv

open Svod.Ir Svod.Lib

/-! ## Magic numbers -/

/-- How far a power of two is from the next multiple of the divisor. -/
def magicError (divisor power : ℤ) : ℤ := divisor - 1 - (power - 1) % divisor

/-- `magic_unsigned`: the multiplier and the shift. -/
def magicUnsigned (vmax divisor : ℤ) : Option (ℤ × ℕ) :=
  if divisor ≤ 0 ∨ vmax < 0 then none
  else do
    let nc := (vmax + 1) / divisor * divisor - 1
    let nbits := Checked.bitLength vmax.toNat
    let shift ← (List.range (2 * nbits + 1)).find? fun shift =>
      2 ^ shift > nc * magicError divisor (2 ^ shift)
    let multiplier := (2 ^ shift + magicError divisor (2 ^ shift)) / divisor
    if multiplier < 2 ^ 63 then some (multiplier, shift) else none

/-! ## Ranges -/

/-- `value_as_i64`. -/
def valueAsI64 : ConstValue → Option ℤ
  | .int v => some v
  | .uint v => if v < 2 ^ 63 then some v else none
  | _ => none

/-- `dtype_bounds_i128`. -/
def dtypeBoundsI128 (s : ScalarDType) : Option (ℤ × ℤ) :=
  match RangeEval.dtypeBounds s with
  | (.int lo, .int hi) => some (lo, hi)
  | (.uint lo, .uint hi) => some (lo, hi)
  | _ => none

/-- `multiplication_fits`. -/
def multiplicationFits (multiplier vmin vmax : ℤ) (s : ScalarDType) : Bool :=
  match dtypeBoundsI128 s with
  | some (dtypeMin, dtypeMax) => multiplier * vmin ≥ dtypeMin && multiplier * vmax ≤ dtypeMax
  | none => false

/-- `next_integer_dtype`. -/
def nextIntegerDtype : ScalarDType → Option ScalarDType
  | .int8 => some .int16
  | .int16 => some .int32
  | .int32 => some .int64
  | .int64 => some .uint64
  | .uint8 => some .uint16
  | .uint16 => some .uint32
  | .uint32 => some .uint64
  | _ => none

/-- `saturating_abs` of an `i64`. -/
def saturatingAbs (v : ℤ) : ℤ := min |v| (2 ^ 63 - 1)

/-- `isolate_lowest_one` of a positive `i64`. -/
def lowestOne (v : ℤ) : ℤ := Int.gcd v (2 ^ 63)

/-- The best-effort range of a division by a constant: that of the type, unless the dividend
    is constant too. -/
def cdivBounds (b : RangeEval.Bounds) (divisor : ConstValue) (dtype : DType) : RangeEval.Bounds :=
  if b.1 = b.2 then RangeEval.computeBinaryRange .cdiv b (divisor, divisor) dtype
  else RangeEval.dtypeBounds dtype.base

/-! ## The replacement -/

/-- A type with another scalar and as many lanes. -/
def withScalar (d : DType) (s : ScalarDType) : DType :=
  match d with
  | .vector _ n => .vector s n
  | _ => .scalar s

/-- `const_like`. -/
def constLike (x : UOp) (v : ℤ) : UOp := .const (Expr.committed x.dtype.base v) x.dtype

def multiplyShift (value : UOp) (multiplier : ℤ) (shift : ℕ) : UOp :=
  .binary .shr (.binary .mul value (constLike value multiplier) value.dtype)
    (constLike value shift) value.dtype

def signedAdjustment (x : UOp) : UOp :=
  .where_ (.binary .lt x (constLike x 0) (withScalar x.dtype .bool)) (constLike x 1)
    (constLike x 0) x.dtype

/-- A quotient rounded down, corrected for negative dividends. -/
def adjusted (isUnsigned : Bool) (x result : UOp) : UOp :=
  if isUnsigned then result else .binary .add result (signedAdjustment x) x.dtype

/-- The clamped range of a dividend and the magic number for it. -/
structure Magic where
  isUnsigned : Bool
  vmin : ℤ
  vmax : ℤ
  multiplier : ℤ
  shift : ℕ

/-- The product in the next wider type. -/
def widened (supported : ScalarDType → Bool) (x : UOp) (m : Magic) : Option UOp := do
  let next ← nextIntegerDtype x.dtype.base
  if supported next ∧ multiplicationFits m.multiplier m.vmin m.vmax next then
    some (adjusted m.isUnsigned x
      (.cast (multiplyShift (.cast x (withScalar x.dtype next)) m.multiplier m.shift) x.dtype))
  else none

inductive Attempt where
  | done (e : UOp)
  /-- The product does not fit the type of the dividend. -/
  | tooWide (m : Magic)

/-- `fast_idiv` up to the product in the type of the dividend. -/
def attempt (x : UOp) (b : RangeEval.Bounds) (divisor : ℤ) : Option Attempt := do
  let lo ← valueAsI64 b.1
  let (dtypeMin, dtypeMax) ← dtypeBoundsI128 x.dtype.base
  let hi ← valueAsI64 b.2
  let vmin := max lo dtypeMin
  let vmax := min hi dtypeMax
  if vmin > -divisor ∧ vmax < divisor then some (.done (constLike x 0))
  else do
    let (multiplier, shift) ← magicUnsigned (max vmax (saturatingAbs vmin)) divisor
    let m : Magic := ⟨lo ≥ 0 ∨ x.dtype.base.isUnsigned, vmin, vmax, multiplier, shift⟩
    if multiplicationFits multiplier vmin vmax x.dtype.base then
      some (.done (adjusted m.isUnsigned x (multiplyShift x multiplier shift)))
    else some (.tooWide m)

theorem lowestOne_bounds {d : ℤ} (hd : 0 < d) : 1 ≤ lowestOne d ∧ lowestOne d ≤ d := by
  have hpos : 0 < Int.gcd d (2 ^ 63) := Int.gcd_pos_of_ne_zero_left _ hd.ne'
  have hle := Int.le_of_dvd hd (Int.gcd_dvd_left (a := d) (b := 2 ^ 63))
  unfold lowestOne
  omega

theorem ediv_lowestOne_lt {d : ℤ} (hd : 0 < d) (h : 1 < lowestOne d) :
    (d / lowestOne d).toNat < d.toNat := by
  have hlt : d / lowestOne d < d := Int.ediv_lt_self_of_pos_of_ne_one hd (by omega)
  omega

/-- `fast_idiv`, of an expression with its best-effort range. -/
def fastIdiv (supported : ScalarDType → Bool) (x : UOp) (b : RangeEval.Bounds) (divisor : ℤ)
    (dontCast : Bool) : Option UOp :=
  if _hd : divisor ≤ 0 then none
  else
    match attempt x b divisor with
    | none => none
    | some (.done e) => some e
    | some (.tooWide m) =>
      -- the lowest power of two first, without another widening
      Option.or
        (if _hf : 1 < lowestOne divisor then
          fastIdiv supported (.binary .cdiv x (constLike x (lowestOne divisor)) x.dtype)
            (cdivBounds b (Expr.committed x.dtype.base (lowestOne divisor)) x.dtype)
            (divisor / lowestOne divisor) true
        else none)
        (if dontCast then none else widened supported x m)
termination_by divisor.toNat
decreasing_by exact ediv_lowestOne_lt (by omega) _hf

/-- The pattern of `fast_division_patterns`: a dividend that is never negative, and a divisor
    that is no power of two. -/
def fastDivision (supported : ScalarDType → Bool) (x : UOp) (b : RangeEval.Bounds)
    (divisor : ConstValue) : Option UOp :=
  if x.dtype.isInt ∧ (x.dtype.base.isUnsigned ∨ (valueAsI64 b.1).any (· ≥ 0)) then do
    let d ← valueAsI64 divisor
    if d > 0 ∧ lowestOne d ≠ d then fastIdiv supported x b d false else none
  else none

end Svod.Symbolic.FastDiv
