/-
  Svod.Symbolic.DivModRules

  The rewrite rules on floor divisions and floor remainders
  (`range_based_mod_div_patterns` and `advanced_division_dsl_patterns` of
  `symbolic/patterns.rs`).

  A rule takes the node that it may replace.  A commutative operand list is
  tried in both orders until one of them rewrites; an operand that a pattern
  names twice is one node.
-/

import Svod.Symbolic.Recombine

namespace Svod.Symbolic

open Svod.Ir Svod.Lib

namespace Expr

/-! ## Matching -/

/-- Both orders of the operands of a commutative operation. -/
def operands (op : ArithOp) : Expr → List (Expr × Expr)
  | binary op' a b _ => if op' = op then [(a, b), (b, a)] else []
  | _ => []

/-- `x @const(v)`, the number taken by `try_int`. -/
def matchInt (e : Expr) : Option ℤ := e.constValue.bind tryInt

/-- The numerator and the constant of `op(x, n @const)`. -/
def byConst (op : ArithOp) : Expr → Option (Expr × Expr)
  | binary op' x n _ => if op' = op ∧ n.constValue.isSome then some (x, n) else none
  | _ => none

/-- The sound range starts at a signed number that is not negative. -/
def startsNonNegative (e : Expr) : Bool :=
  match e.range with
  | some (.int v, _) => 0 ≤ v
  | _ => false

/-- A range of signed numbers lies in `[0, n)`. -/
def liesBelow (range : RangeEval.Bounds) (n : ℤ) : Bool :=
  match range with
  | (.int min, .int max) => 0 ≤ min ∧ max < n
  | _ => false

/-- `UOp::const_` of a value. -/
def constOfValue (dtype : ScalarDType) (value : ConstValue) : Option Expr :=
  value.integerValue.map (constOfType dtype)

/-- `floor_divmod`. -/
def floorDivmod (c d : ℤ) : Option (ℤ × ℤ) := do
  let quotient ← ConstValue.checkedDivI64 c d
  let remainder ← ConstValue.checkedRemI64 c d
  if remainder ≠ 0 ∧ (decide (remainder < 0) ≠ decide (d < 0)) then do
    let quotient ← RangeEval.checkedI64 (quotient - 1)
    some (quotient, remainder + d)
  else some (quotient, remainder)

section

-- what the constructors build from operands of different types, by promotion and casts
variable (mixed : ArithOp → Expr → Expr → Option Expr)

/-- `neg`: the product with `-1`. -/
def tryNeg (e : Expr) : Option Expr := tryMul mixed e (e.constLike (-1))

/-- `eval_mul_typed`, and the constant of it. -/
def productConst (dtype : ScalarDType) (a b : Expr) : Option Expr := do
  let x ← a.constValue
  let y ← b.constValue
  let product ← (ConstValue.evalMul x y).bind (·.cast dtype)
  constOfValue dtype product

/-! ## `range_based_mod_div_patterns` -/

section

-- the end of a loop range
variable (rangeEnd : Leaf → Option Expr)

/-- `Range(end) % end` is the range. -/
def rangeModEnd (original : Expr) : Option Expr :=
  match original with
  | binary .floorMod (leaf l) y _ =>
    if rangeEnd l = some y then exactIntegerRewrite original (leaf l) else none
  | _ => none

/-- `Range(end) // end` is zero. -/
def rangeDivEnd (original : Expr) : Option Expr :=
  match original with
  | binary .floorDiv (leaf l) y _ =>
    if rangeEnd l = some y then exactIntegerRewrite original (original.constLike 0) else none
  | _ => none

end

/-- `x % n` is `x` when the range of `x` lies in `[0, n)`. -/
def modInRange (original : Expr) : Option Expr := do
  let (x, n) ← original.byConst .floorMod
  match x.range, n.constValue with
  | some (.int min, .int max), some (.int nInt) => if 0 ≤ min ∧ max < nInt then some x else none
  | _, _ => none

/-- `(a * n + b) % n` is `b % n`. -/
def modDropMultiple (original : Expr) : Option Expr := do
  let (sum, n) ← original.byConst .floorMod
  (sum.operands .add).findSome? fun (m, b) =>
    (m.operands .mul).findSome? fun (_, n') =>
      if n' = n ∧ b.startsNonNegative then do
        let replacement ← tryMod mixed b n
        exactIntegerRewrite original replacement
      else none

/-- `(a * n + b + c) % n` is `(b + c) % n`. -/
def modDropMultipleOfThree (original : Expr) : Option Expr := do
  let (sum, n) ← original.byConst .floorMod
  (sum.operands .add).findSome? fun (ab, c) =>
    (ab.operands .add).findSome? fun (m, b) =>
      (m.operands .mul).findSome? fun (_, n') =>
        if n' = n then do
          let bc ← tryAdd mixed b c
          if bc.startsNonNegative then do
            let replacement ← tryMod mixed bc n
            exactIntegerRewrite original replacement
          else none
        else none

/-- `(a * n + b) // n` is `a`, or `a + b // n`. -/
def divFactorOut (original : Expr) : Option Expr := do
  let (sum, n) ← original.byConst .floorDiv
  (sum.operands .add).findSome? fun (m, b) =>
    (m.operands .mul).findSome? fun (a, n') =>
      if n' = n then do
        let nInt ← n.matchInt
        if nInt ≤ 0 then none
        else do
          let range ← b.range
          if liesBelow range nInt then exactIntegerRewrite original a
          else if b.startsNonNegative then do
            let quotient ← tryDiv mixed b n
            let replacement ← tryAdd mixed a quotient
            exactIntegerRewrite original replacement
          else none
      else none

/-- `x // n` is `k` when the range of `x` lies in `[k * n, (k + 1) * n)`. -/
def divSameBucket (original : Expr) : Option Expr := do
  let (x, n) ← original.byConst .floorDiv
  match x.range, n.constValue with
  | some (.int min, .int max), some (.int nInt) =>
    if 0 < nInt ∧ min / nInt = max / nInt then some (constOfType x.dtype (min / nInt)) else none
  | _, _ => none

/-- `(a + (x // n) * n) // n` is `x // n` when the range of `a` lies in `[0, n)`. -/
def divOfRounded (original : Expr) : Option Expr :=
  match original with
  | binary .floorDiv sum n _ =>
    (sum.operands .add).findSome? fun (a, product) =>
      (product.operands .mul).findSome? fun (quotient, n') =>
        match quotient.byConst .floorDiv with
        | some (x, n'') =>
          if n' = n ∧ n'' = n then
            match a.range, n.constValue with
            | some (.int min, .int max), some (.int nInt) =>
              if 0 ≤ min ∧ max < nInt ∧ 0 < nInt then do
                let replacement ← tryDiv mixed x n
                exactIntegerRewrite original replacement
              else none
            | _, _ => none
          else none
        | none => none
  | _ => none

/-- The largest remainder by `d` of the numbers from `min` to `max`, which are not negative. -/
def maxRemainder (min max d : ℤ) : Option ℤ := do
  let dMinusOne ← RangeEval.checkedI64 (d - 1)
  let width ← RangeEval.checkedI64 (max - min)
  if dMinusOne ≤ width then some dMinusOne
  else do
    let minRem ← checkedRem min d
    let maxRem ← checkedRem max d
    if maxRem < minRem then some dMinusOne else checkedRem max d

/-- `(x + c) // d` is `x // d` when adding `c` crosses no bucket. -/
def divKeepBucket (original : Expr) : Option Expr := do
  let (sum, d) ← original.byConst .floorDiv
  (sum.operands .add).findSome? fun (x, c) => do
    let cInt ← c.matchInt
    let dInt ← d.matchInt
    if dInt ≤ 0 ∨ cInt ≤ 0 then none
    else
      match x.range with
      | some (.int min, .int max) =>
        if 0 ≤ min then do
          let maxRem ← maxRemainder min max dInt
          match RangeEval.checkedI64 (maxRem + cInt) with
          | some total =>
            if total < dInt then do
              let replacement ← tryDiv mixed x d
              exactIntegerRewrite original replacement
            else none
          | none => none
        else none
      | _ => none

/-- `(x + c) // d` is `(x + c % d) // d + c // d`. -/
def divSplitConst (original : Expr) : Option Expr := do
  let (sum, d) ← original.byConst .floorDiv
  (sum.operands .add).findSome? fun (x, c) => do
    let cInt ← c.matchInt
    let dInt ← d.matchInt
    let (cDivD, cModD) ← floorDivmod cInt dInt
    if cModD = cInt then none
    else do
      let shifted ← tryAdd mixed x (constOfType d.dtype cModD)
      let quotient ← tryDiv mixed shifted d
      let replacement ← tryAdd mixed quotient (constOfType d.dtype cDivD)
      exactIntegerRewrite original replacement

/-- `(x + c) // d` is `-(-(c % d + x - (d - 1)) // d) + c // d` for a negative `x`. -/
def divNegative (original : Expr) : Option Expr := do
  let (sum, d) ← original.byConst .floorDiv
  (sum.operands .add).findSome? fun (x, c) => do
    let cInt ← c.matchInt
    let dInt ← d.matchInt
    if dInt ≤ 0 then none
    else do
      let cValue ← c.constValue
      let xRange ← x.range
      let nExpr ← (constOfValue x.dtype cValue).bind (tryAdd mixed x)
      let nRange ← nExpr.range
      match xRange, nRange with
      | (.int _, .int xMax), (.int nMin, _) =>
        if xMax ≤ 0 ∧ 0 ≤ nMin then do
          let dMinusOne ← RangeEval.checkedI64 (dInt - 1)
          let shifted ← tryAdd mixed (constOfType d.dtype (cInt % dInt)) x
          let lowered ← trySub mixed shifted (constOfType d.dtype dMinusOne)
          let inner ← tryNeg mixed lowered
          let quotient ← tryDiv mixed inner d
          let result ← tryNeg mixed quotient
          let replacement ← tryAdd mixed result (constOfType d.dtype (cInt / dInt))
          exactIntegerRewrite original replacement
        else none
      | _, _ => none

/-- `range_based_mod_div_patterns`. -/
def rangeBasedModDivPatterns (rangeEnd : Leaf → Option Expr) : List (Expr → Option Expr) :=
  [rangeModEnd rangeEnd, rangeDivEnd rangeEnd, modInRange, modDropMultiple mixed,
    modDropMultipleOfThree mixed, divFactorOut mixed, divSameBucket, divOfRounded mixed,
    divKeepBucket mixed, divSplitConst mixed, divNegative mixed]

/-! ## `advanced_division_dsl_patterns` -/

/-- `(a // b) // c` is `a // (b * c)`. -/
def divDiv (original : Expr) : Option Expr := do
  let (inner, c) ← original.byConst .floorDiv
  let (a, b) ← inner.byConst .floorDiv
  if b.isZeroConst ∨ c.isZeroConst then none
  else do
    let cInt ← c.matchInt
    if cInt ≤ 0 then none
    else if integerBinaryDoesNotWrap .mul b c b.dtype then do
      let product ← productConst b.dtype b c
      let replacement ← tryDiv mixed a product
      exactIntegerRewrite original replacement
    else none

/-- `expr // divisor` is `expr.divides(divisor)`. -/
def divExact (original : Expr) : Option Expr := do
  let (expr, divisor) ← original.byConst .floorDiv
  let d ← divisor.matchInt
  let replacement ← expr.divides mixed d
  exactIntegerRewrite original replacement

/-- `(a + b) % c` drops a term that `c` divides. -/
def modDropDivisible (original : Expr) : Option Expr := do
  let (sum, divisor) ← original.byConst .floorMod
  match sum with
  | binary .add a b _ => do
    let d ← divisor.matchInt
    if (a.divides mixed d).isSome then do
      let replacement ← tryMod mixed b divisor
      exactIntegerRewrite original replacement
    else if (b.divides mixed d).isSome then do
      let replacement ← tryMod mixed a divisor
      exactIntegerRewrite original replacement
    else none
  | _ => none

/-- `(x + c) % d` is `(x + c % d) % d`. -/
def modSplitConst (original : Expr) : Option Expr := do
  let (sum, d) ← original.byConst .floorMod
  (sum.operands .add).findSome? fun (x, c) => do
    let cInt ← c.matchInt
    let dInt ← d.matchInt
    if dInt ≤ 0 ∨ cInt % dInt = cInt then none
    else do
      let shifted ← tryAdd mixed x (constOfType d.dtype (cInt % dInt))
      let replacement ← tryMod mixed shifted d
      exactIntegerRewrite original replacement

section

-- the order a hash map gives its entries in, and the size of an expression
variable (order : List Expr → List Expr) (nodeCount : Expr → ℕ)

/-- `x % y`, by `fold_divmod_general`. -/
def modFold (original : Expr) : Option Expr :=
  match original with
  | binary .floorMod x y _ => do
    let replacement ← foldDivmodGeneral mixed order nodeCount true x y
    exactIntegerRewrite original replacement
  | _ => none

/-- `x // y`, by `fold_divmod_general`. -/
def divFold (original : Expr) : Option Expr :=
  match original with
  | binary .floorDiv x y _ => do
    let replacement ← foldDivmodGeneral mixed order nodeCount false x y
    exactIntegerRewrite original replacement
  | _ => none

end

/-- `(a - b) // c` is `a // c - b // c` when both divide evenly. -/
def divSubExact (original : Expr) : Option Expr := do
  let (difference, c) ← original.byConst .floorDiv
  match difference with
  | binary .sub a b _ => do
    let d ← c.matchInt
    let lhs ← a.divides mixed d
    let rhs ← b.divides mixed d
    let replacement ← trySub mixed lhs rhs
    exactIntegerRewrite original replacement
  | _ => none

/-- `(a // c1 + c2) // c3` is `(a + c1 * c2) // (c1 * c3)`. -/
def divAddDiv (original : Expr) : Option Expr := do
  let (sum, c3) ← original.byConst .floorDiv
  (sum.operands .add).findSome? fun (inner, c2) => do
    let (a, c1) ← inner.byConst .floorDiv
    let c2Value ← c2.constValue
    let c1Int ← c1.matchInt
    let c2Int ← tryInt c2Value
    let c3Int ← c3.matchInt
    if c1Int ≤ 0 ∨ c3Int ≤ 0 then none
    else do
      let (min, max) ← a.range
      let aMin ← tryInt min
      let aMax ← tryInt max
      if ¬ ((0 ≤ aMin ∧ 0 ≤ c2Int) ∨ (aMax ≤ 0 ∧ c2Int ≤ 0)) then none
      else if integerBinaryDoesNotWrap .mul c1 c3 c1.dtype then do
        let c2' ← constOfValue c1.dtype c2Value
        if integerBinaryDoesNotWrap .mul c1 c2' c1.dtype then do
          let offset ← productConst c1.dtype c1 c2
          let divisor ← productConst c1.dtype c1 c3
          let shifted ← tryAdd mixed a offset
          let replacement ← tryDiv mixed shifted divisor
          exactIntegerRewrite original replacement
        else none
      else none

/-- `advanced_division_dsl_patterns`. -/
def advancedDivisionDslPatterns (order : List Expr → List Expr) (nodeCount : Expr → ℕ) :
    List (Expr → Option Expr) :=
  [divDiv mixed, divExact mixed, modDropDivisible mixed, modSplitConst mixed,
    modFold mixed order nodeCount, divFold mixed order nodeCount, divSubExact mixed,
    divAddDiv mixed]

end

end Expr

end Svod.Symbolic
