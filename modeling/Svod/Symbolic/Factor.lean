/-
  Svod.Symbolic.Factor

  Factors and terms of an expression (`ir/src/uop/helpers.rs`): the numeric
  factor, division by a number and by an expression, the common divisor of
  several expressions, and the split of sums and products.

  Nodes are interned, so one pointer is one expression.  The factors left in a
  hash map are taken in an order that is a parameter.
-/

import Svod.Symbolic.Expr

namespace Svod.Symbolic

open Svod.Ir Svod.Lib

/-- `gcd`, where `i64::MIN` counts as `1`. -/
def gcd (a b : ℤ) : ℤ := if a = -2 ^ 63 ∨ b = -2 ^ 63 then 1 else Int.gcd a b

/-- `i64::checked_rem`. -/
def checkedRem (x y : ℤ) : Option ℤ :=
  if y = 0 ∨ (x = -2 ^ 63 ∧ y = -1) then none else some (x.tmod y)

/-- `BinaryOp::identity_element` of `ADD` and `MUL`; a float constant is no integer. -/
def identityElement (op : ArithOp) (dtype : ScalarDType) : ConstValue :=
  if dtype.isFloat then .invalid
  else
    match op with
    | .mul => .int 1
    | _ => .int 0

/-- `ConstValue::try_int`. -/
def tryInt : ConstValue → Option ℤ
  | .int v => some v
  | .uint v => some (wrapSigned 64 v)
  | _ => none

namespace Expr

/-- The number of a constant. -/
def intConst : Expr → Option ℤ
  | const c =>
    match c.value with
    | .int i => some i
    | _ => none
  | _ => none

/-- `const_factor`. -/
def constFactor : Expr → ℤ
  | const c =>
    match c.value with
    | .int i => if i = -2 ^ 63 then 1 else i
    | .uint u => if u < 2 ^ 63 then u else 1
    | _ => 1
  | binary .mul a b _ =>
    match intConst a with
    | some i => if i = -2 ^ 63 then 1 else i
    | none =>
      match intConst b with
      | some i => if i = -2 ^ 63 then 1 else i
      | none => 1
  | binary .add a b _ => gcd a.constFactor b.constFactor
  | _ => 1

/-- `pop_const`: the constant on the right of an operation. -/
def popConst (op : ArithOp) (e : Expr) : Expr × ConstValue :=
  match e with
  | binary op' a (const c) _ => if op' = op then (a, c.value) else (e, identityElement op e.dtype)
  | _ => (e, identityElement op e.dtype)

/-- `split_uop`. -/
def splitUop (sep : ArithOp) : Expr → List Expr
  | binary op a b d =>
    if op = sep then a.splitUop sep ++ b.splitUop sep else [binary op a b d]
  | e => [e]

section

variable (mixed : ArithOp → Expr → Expr → Option Expr)

/-- `divides`. -/
def divides (e : Expr) (v : ℤ) : Option Expr :=
  if v = 1 then some e
  else if v = 0 then none
  else
    match e with
    | const c => do
      let val ← intConst (const c)
      let rem ← checkedRem val v
      if rem = 0 then some (constOfType c.dtype (val.tdiv v)) else none
    | binary .add a b _ => do
      let d0 ← a.divides v
      let d1 ← b.divides v
      tryAdd mixed d0 d1
    | binary .mul a b _ =>
      match a.divides v with
      | some d0 => tryMul mixed d0 b
      | none =>
        match b.divides v with
        | some d1 => tryMul mixed a d1
        | none => none
    | _ => none

-- the order a hash map gives its entries in
variable (order : List Expr → List Expr)

/-- `result.try_mul(factor)` over the factors. -/
def mulAll (result : Expr) : List Expr → Option Expr
  | [] => some result
  | factor :: rest => do
    let next ← tryMul mixed result factor
    mulAll next rest

/-- The factors that remain when those of the divisor are counted off. -/
def remainingFactors (factors divisors : List Expr) : Option (List Expr) :=
  if divisors.all fun f => divisors.count f ≤ factors.count f then some (factors.diff divisors)
  else none

/-- `divide_exact`. -/
def divideExact (e v : Expr) : Option Expr :=
  if e = v then some (e.constLike 1)
  else
    match intConst v with
    | some d => e.divides mixed d
    | none =>
      match e with
      | binary .add a b _ => do
        let d0 ← a.divideExact v
        let d1 ← b.divideExact v
        tryAdd mixed d0 d1
      | binary .mul a b d => do
        let (fac, cSelf) := popConst .mul (binary .mul a b d)
        let (divFac, cV) := popConst .mul v
        let constSelf ← tryInt cSelf
        let constV ← tryInt cV
        if constV = 0 then none
        else do
          let rem ← checkedRem constSelf constV
          if rem ≠ 0 then none
          else do
            let remaining ← remainingFactors (fac.splitUop .mul) (divFac.splitUop .mul)
            mulAll mixed ((binary .mul a b d).constLike (constSelf.tdiv constV)) (order remaining)
      | _ => none

/-- An expression without its numeric factor, as `symbolic_gcd` decomposes it. -/
def withoutFactor (u : Expr) : Expr :=
  let f := u.constFactor
  if f = 1 ∨ f = 0 then u else (u.divides mixed f).getD (u.constLike 1)

/-- The factors that the expressions have in common. -/
def commonFactors (first : Expr) (others : List Expr) : List Expr :=
  others.foldl (fun common u => common.bagInter ((withoutFactor mixed u).splitUop .mul))
    ((withoutFactor mixed first).splitUop .mul)

/-- The constant one, whatever its type. -/
def isOne (e : Expr) : Bool := intConst e == some 1

/-- `symbolic_gcd` of a non-empty list; `none` where a product panics. -/
def symbolicGcd (first : Expr) (others : List Expr) : Option Expr :=
  let numeric := others.foldl (fun acc u => gcd acc |u.constFactor|) |first.constFactor|
  mulAll mixed (first.constLike numeric)
    (order ((commonFactors mixed first others).filter fun f => !isOne f))

end

end Expr

end Svod.Symbolic
