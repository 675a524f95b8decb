/-
  Svod.Symbolic.Recombine

  Recombination of a scaled remainder with the quotient of the same division
  (`fold_add_divmod_recombine` of `symbolic/patterns.rs`).

  A sum holds `(base % div) * mul` and `q * (div * mul)`, in any order and with
  any terms between.  When `q` is the quotient of `base` by `div`, up to
  constants that were moved through the division, the two are `b * mul`; when
  `q` is that quotient modulo `d`, they are `(b % (div * d)) * mul`.
-/

import Svod.Symbolic.DivMod

namespace Svod.Symbolic

open Svod.Ir Svod.Lib

namespace Expr

/-- `get_const_value`. -/
def constValue : Expr → Option ConstValue
  | const c => some c.value
  | _ => none

/-- The number of a constant operand: `get_const_value` and `integer_value`. -/
def operandInt (e : Expr) : Option ℤ := e.constValue.bind integerValue

section

/-- The merged quotient of `quotient_base`: `num` is `x // c` and `q` divides by `c * div`. -/
def mergedQuotient (num : Expr) (a div qDiv : ℤ) : Option (Option (Expr × ℤ × ℤ)) :=
  match num with
  | binary .floorDiv nNum nDiv _ =>
    if 0 < div then
      match nDiv.operandInt with
      | some c =>
        if RangeEval.checkedI128 (c * div) = some qDiv then
          -- an overflow of `a * c` leaves the function
          (RangeEval.checkedI128 (a * c)).map fun ac => some (nNum, ac, qDiv)
        else some none
      | none => some none
    else some none
  | _ => some none

/-- The numerator of the quotient, its constant and its divisor: those of a merged quotient, or
    those of `base` itself. -/
def quotientNumerator (num : Expr) (a div qDiv : ℤ) : Option (Expr × ℤ × ℤ) :=
  match mergedQuotient num a div qDiv with
  | none => none
  | some (some merged) => some merged
  | some none => if qDiv = div ∧ div ≠ 0 then some (num, a, div) else none

/-- How many divisors the numerator of `q` is away from that of `base`: `k` of `quotient_base`. -/
def quotientShift (qNum num : Expr) (s a d : ℤ) : Option ℤ := do
  let (x, xa) := num.popConst .add
  let (p, pa) := qNum.popConst .add
  if p ≠ x then none
  else do
    let xa ← integerValue xa
    let sum ← RangeEval.checkedI128 (xa + a)
    let pa ← integerValue pa
    let t ← RangeEval.checkedI128 (sum - pa)
    -- a zero divisor panics
    if d = 0 ∨ t.tmod d ≠ 0 then none else RangeEval.checkedI128 (t.tdiv d - s)

-- what the constructors build from operands of different types, by promotion and casts
variable (mixed : ArithOp → Expr → Expr → Option Expr)

/-- `quotient_base`: the `B` with `q = B // div` and `B % div = base % div`. -/
def quotientBase (q base : Expr) (div : ℤ) : Option Expr := do
  let (q, s) := q.popConst .add
  let (num, a) := base.popConst .add
  let s ← integerValue s
  let a ← integerValue a
  match q with
  | binary .floorDiv qNum qDivisor _ => do
    let qDiv ← qDivisor.operandInt
    let (num, a, d) ← quotientNumerator num a div qDiv
    let k ← quotientShift qNum num s a d
    if k = 0 then some base
    else do
      let kd ← RangeEval.checkedI128 (k * div)
      let offset ← RangeEval.checkedI64 (-kd)
      tryAdd mixed base (base.constLike offset)
  | _ => none

/-- `scaled_usum`. -/
def scaledUsum (b : Expr) (mul : ℤ) (rest : List Expr) : Option Expr := do
  let scaled ←
    if mul = 1 then some b
    else do
      let m ← RangeEval.checkedI64 mul
      tryMul mixed b (b.constLike m)
  addAll mixed scaled rest

/-- The terms of a sum without two of them. -/
def otherTerms (terms : List Expr) (i j : ℕ) : List Expr :=
  (terms.zipIdx.filter fun e => e.2 ≠ i && e.2 ≠ j).map (·.1)

/-- One round of the two loops: nothing, or what the function returns. -/
def recombinePair (x : Expr) (terms : List Expr) (u v : Expr × ℕ) : Option (Option Expr) :=
  let (m, mul) := u.1.popConst .mul
  match integerValue mul, m with
  | some mul, binary .floorMod base modDiv _ =>
    match modDiv.operandInt with
    | none => none
    | some div =>
      match RangeEval.checkedI128 (div * mul) with
      | none => none
      | some want =>
        let (q, scale) := v.1.popConst .mul
        if u.2 = v.2 ∨ integerValue scale ≠ some want then none
        else
          let rest := otherTerms terms u.2 v.2
          match quotientBase mixed q base div with
          | some b => some ((scaledUsum mixed b mul rest).bind (exactIntegerRewrite x))
          | none =>
            match q with
            | binary .floorMod qSrc qDiv _ =>
              match qDiv.operandInt with
              | none => none
              | some d =>
                if 0 < d then
                  (quotientBase mixed qSrc base div).map fun b => do
                    let wide ← RangeEval.checkedI128 (div * d)
                    let wide ← RangeEval.checkedI64 wide
                    let wider ← tryMod mixed b (b.constLike wide)
                    let r ← scaledUsum mixed wider mul rest
                    exactIntegerRewrite x r
                else none
            | _ => none
  | _, _ => none

/-- `fold_add_divmod_recombine`. -/
def foldAddDivmodRecombine (x : Expr) : Option Expr :=
  let terms := x.splitUop .add
  (terms.zipIdx.findSome? fun u => terms.zipIdx.findSome? fun v =>
    recombinePair mixed x terms u v).join

end

end Expr

end Svod.Symbolic
