/-
  Svod.FloatBits

  Conversions between `f64` and the narrow float formats (`dtype/src/cast.rs`).

  An `f64` is its 64 bits.  What the decoders return is exact, so a finite result
  is a rational; the sign of a zero is then lost, and infinities and NaNs are
  `none`.
-/

import Svod.DType
import Mathlib.Algebra.Field.Rat

namespace Svod.FloatBits

/-! ## Bits of an `f64` -/

/-- `(bits >> 52) & 0x7ff`. -/
def rawExp (bits : ℕ) : ℕ := bits >>> 52 &&& 0x7ff

def fraction (bits : ℕ) : ℕ := bits &&& 0xfffffffffffff

def isFinite (bits : ℕ) : Bool := rawExp bits != 0x7ff

def isNan (bits : ℕ) : Bool := rawExp bits == 0x7ff && fraction bits != 0

/-! ## binary16 -/

/-- `round_shift` of `float_to_f16_bits`. -/
def roundShift (value shift : ℕ) : ℕ :=
  if 64 ≤ shift then 0
  else
    let quotient := value >>> shift
    let remainder := value &&& (2 ^ shift - 1)
    let half := 2 ^ (shift - 1)
    quotient + (half < remainder || (remainder == half && quotient &&& 1 != 0)).toNat

/-- `float_to_f16_bits`. -/
def floatToF16Bits (bits : ℕ) : ℕ :=
  let sign := bits >>> 48 &&& 0x8000
  if rawExp bits = 0x7ff then sign ||| if fraction bits = 0 then 0x7c00 else 0x7e00
  else if rawExp bits = 0 ∧ fraction bits = 0 then sign
  else
    let exponent : ℤ := rawExp bits - 1023
    let significand := if rawExp bits = 0 then fraction bits else fraction bits ||| 1 <<< 52
    if 15 < exponent ∨
        exponent = 15 ∧ (1 <<< 52 ||| 0x3ff <<< 42 ||| 1 <<< 41) ≤ significand then sign ||| 0x7c00
    else if -14 ≤ exponent then
      let rounded := roundShift significand 42
      if rounded = 0x800 then sign ||| (exponent + 16).toNat <<< 10
      else sign ||| (exponent + 15).toNat <<< 10 ||| (rounded &&& 0x3ff)
    else if exponent < -25 then sign
    else sign ||| roundShift significand (28 - exponent).toNat

/-- `f16_bits_to_float`. -/
def f16BitsToFloat (bits : ℕ) : Option ℚ :=
  let exponent := bits >>> 10 &&& 0x1f
  let mantissa := bits &&& 0x3ff
  let value : Option ℚ :=
    if exponent = 0x1f then none
    else if exponent = 0 then some (mantissa * (2 ^ 24)⁻¹)
    else some ((1 + mantissa / 1024) * 2 ^ ((exponent : ℤ) - 15))
  if bits &&& 0x8000 ≠ 0 then value.map (-·) else value

/-! ## FP8 -/

/-- The constants of a conversion to FP8. -/
structure Fp8Format where
  bias : ℕ
  sigBits : ℕ
  mantMask : ℕ
  minDenormHalf : ℕ
  ovfThreshold : ℕ
  maxNorm : ℕ
  minNorm : ℕ

def fp8Format : ScalarDType → Option Fp8Format
  | .fp8e4m3 => some ⟨7, 4, 0x7, 0x3f50000000000000, 0x407d000000000000, 0x7e, 0x3f90000000000000⟩
  | .fp8e5m2 =>
    some ⟨15, 3, 0x3, 0x3ee0000000000000, 0x40ee000000000000 - 1, 0x7b, 0x3f10000000000000⟩
  | .fp8e4m3fnuz =>
    some ⟨8, 4, 0x7, 0x3f40000000000000, 0x406f000000000000 - 1, 0x7f, 0x3f80000000000000⟩
  | .fp8e5m2fnuz =>
    some ⟨16, 3, 0x3, 0x3ed0000000000000, 0x40ee000000000000 - 1, 0x7f, 0x3f00000000000000⟩
  | _ => none

/-- `result` of `float_to_fp8`, before the sign. -/
def Fp8Format.result (f : Fp8Format) (bits : ℕ) : ℕ :=
  let halfUlp := 1 <<< (52 - f.sigBits)
  let exp : ℤ := rawExp bits - 1023 + f.bias
  let mantissa := bits >>> (53 - f.sigBits) &&& f.mantMask
  let abs := bits &&& 0x7fffffffffffffff
  if abs ≤ f.minDenormHalf then 0
  else if f.ovfThreshold < abs then f.maxNorm
  else if f.minNorm ≤ abs then
    let result := exp.toNat <<< (f.sigBits - 1) ||| mantissa
    let roundBits := bits &&& ((halfUlp <<< 1) - 1)
    result + (halfUlp < roundBits || (roundBits == halfUlp && mantissa &&& 1 != 0)).toNat
  else
    let shift := (1 - exp).toNat
    let mantissa := mantissa ||| 1 <<< (f.sigBits - 1)
    let result := mantissa >>> shift
    let half := halfUlp <<< shift
    let roundBits := (bits ||| 1 <<< 52) &&& ((half <<< 1) - 1)
    result + (half < roundBits || (roundBits == half && result &&& 1 != 0)).toNat

def isFnuz (dtype : ScalarDType) : Bool := dtype == .fp8e4m3fnuz || dtype == .fp8e5m2fnuz

/-- `float_to_fp8`; NaNs have been made `f64::NAN`, which is positive. -/
def floatToFp8 (bits : ℕ) (dtype : ScalarDType) : Option ℕ :=
  let bits := if isNan bits then 0x7ff8000000000000 else bits
  let fnuz := isFnuz dtype
  let positive := bits >>> 63 == 0
  if fnuz && !isFinite bits then some 0x80
  else if fnuz && bits &&& 0x7fffffffffffffff == 0 then some 0
  else if dtype == .fp8e4m3 && !isFinite bits then some (if positive then 0x7f else 0xff)
  else if dtype == .fp8e5m2 && !isFinite bits then
    some ((if positive then 0 else 0x80) ||| if isNan bits then 0x7f else 0x7c)
  else
    (fp8Format dtype).map fun f =>
      let sign := (bits >>> 63 &&& 1) <<< 7
      let result := f.result bits
      if fnuz && result == 0 then 0 else result % 256 ||| sign

/-- `fp8_to_float`. -/
def fp8ToFloat (value : ℕ) (dtype : ScalarDType) : Option ℚ := do
  let (bias, sigBits, fnuz) ← match dtype with
    | .fp8e4m3 => some (7, 4, false)
    | .fp8e5m2 => some (15, 3, false)
    | .fp8e4m3fnuz => some (8, 4, true)
    | .fp8e5m2fnuz => some (16, 3, true)
    | _ => none
  if fnuz && value == 0x80 then none
  else if value &&& 0x7f = 0 then some 0
  else
    let mantBits := sigBits - 1
    let expBits := 8 - sigBits
    let expMax := (1 <<< expBits) - 1
    let mantMax := (1 <<< mantBits) - 1
    let exp := value >>> mantBits &&& expMax
    let mantissa := value &&& mantMax
    if !fnuz && exp == expMax && (dtype == .fp8e5m2 || mantissa == mantMax) then none
    else
      let magnitude : ℚ :=
        if exp = 0 then mantissa / (mantMax + 1) * 2 ^ ((1 : ℤ) - bias)
        else (1 + mantissa / (mantMax + 1)) * 2 ^ ((exp : ℤ) - bias)
      some (if value >>> 7 ≠ 0 then -magnitude else magnitude)

end Svod.FloatBits
