/-
  Svod.Symbolic.Comparison

  The rewrite rules on comparisons (`comparison_dsl_patterns` of
  `symbolic/patterns.rs`).

  A rule gives a constant or another comparison `x < y`.  The weak integers are
  the index type: no rule reads a sound range of theirs, one rule reads their
  best-effort range.  All nodes under a comparison have its dtype: a weak literal
  that stands uncommitted beside a strong operand is outside the model.
-/

import Svod.Symbolic.DivModRules

namespace Svod.Symbolic

open Svod.Ir Svod.Lib

/-! ## Comparisons -/

/-- No constant of the expression is the invalid marker. -/
def Expr.numeric : Expr → Bool
  | .const c => c.value != .invalid
  | .leaf _ => true
  | .neg src => src.numeric
  | .binary _ a b _ => a.numeric && b.numeric

/-- A comparison of two integer expressions of one type. -/
structure Comparison where
  op : BinaryOp
  isComparison : op.isComparison = true
  dtype : ScalarDType
  integral : (integerDtypeBounds dtype).isSome = true
  lhs : Expr
  rhs : Expr
  lhsTyped : lhs.Typed dtype
  rhsTyped : rhs.Typed dtype
  numeric : (lhs.numeric && rhs.numeric) = true

/-- What a rule puts in place of a comparison. -/
inductive Folded where
  | const (value : ConstValue)
  | lt (lhs rhs : Expr)
deriving DecidableEq

/-- What the machine finds. -/
def Comparison.truth (env : Expr.Assignment) (c : Comparison) : Bool :=
  c.op.apply (c.lhs.machineValue env) (c.rhs.machineValue env) = 1

def Folded.truth (env : Expr.Assignment) : Folded → Bool
  | const value => value = .bool true
  | lt lhs rhs => lhs.machineValue env < rhs.machineValue env

namespace Expr

/-! ## Best-effort ranges -/

section

-- the best-effort range of a node that is no constant and no arithmetic
variable (leafRange : Leaf → RangeEval.Bounds)

/-- `VminVmaxProperty`. -/
def vminVmax : Expr → RangeEval.Bounds
  | const c => (c.value, c.value)
  | leaf l => leafRange l
  | neg src =>
    RangeEval.computeUnaryRange .neg src.vminVmax.1 src.vminVmax.2 (.scalar src.dtype)
  | binary op a b d =>
    RangeEval.computeBinaryRange op.toBinaryOp a.vminVmax b.vminVmax (.scalar d)

end

/-! ## Matching -/

/-- `ConstValue::is_neg_one`, of integers. -/
def isNegOne (e : Expr) : Bool := e.constValue == some (.int (-1))

/-- The operands of `Add[c0 @const, x]`. -/
def constAddend (e : Expr) : Option (Expr × Expr) :=
  (e.operands .add).find? fun p => p.1.constValue.isSome

/-- The operand of `Mul[x, -1]`. -/
def negated (e : Expr) : Option Expr :=
  ((e.operands .mul).find? fun p => p.2.isNegOne).map (·.1)

/-- `gcd` of `patterns.rs`: the result is cast to `i64`. -/
def ltGcd (a b : ℤ) : ℤ := wrapSigned 64 (Int.gcd a b)

section

-- what the constructors build from operands of different types, by promotion and casts
variable (mixed : ArithOp → Expr → Expr → Option Expr)
  (mixedLt : Expr → Expr → Option Folded)

/-- `try_cmplt`. -/
def tryCmplt (a b : Expr) : Option Folded :=
  if a.dtype = b.dtype then some (.lt a b) else mixedLt a b

/-- `sign(c0) * x`. -/
def timesSign (c0 : ℤ) (x : Expr) : Option Expr := if c0 > 0 then some x else tryNeg mixed x

/-- The terms of a sum whose numeric factor is one. -/
def unitTerms (x : Expr) : List Expr := (x.splitUop .add).filter fun u => u.constFactor = 1

def nonUnitTerms (x : Expr) : List Expr := (x.splitUop .add).filter fun u => u.constFactor ≠ 1

/-- The common divisor of the bound and of the factors that are not one. -/
def ltDivisor (x : Expr) (c : ℤ) : ℤ :=
  x.nonUnitTerms.foldl (fun d u => ltGcd d u.constFactor) c

/-- `lt_folding`. -/
def ltFolding (leafRange : Leaf → RangeEval.Bounds) (x : Expr) (c : ℤ) : Option Folded :=
  if (x.splitUop .add).length < 2 then none
  else if x.nonUnitTerms = [] ∨ x.unitTerms = [] then none
  else
    let d := x.ltDivisor c
    if d ≤ 1 then none
    else do
      let unitSum ← tryUopSum mixed x.unitTerms x
      let usMin ← tryInt (unitSum.vminVmax leafRange).1
      let usMax ← tryInt (unitSum.vminVmax leafRange).2
      if usMin < 0 ∨ usMax ≥ d then none
      else do
        let nonUnitSum ← tryUopSum mixed x.nonUnitTerms x
        let q ← nonUnitSum.divides mixed d
        tryCmplt mixedLt q (constOfType .weakInt (c / d))

end

end Expr

/-! ## The rules -/

namespace Comparison

open Symbolic.Expr

/-- `x op x`. -/
def selfComparison (c : Comparison) : Option Folded :=
  if c.lhs = c.rhs then
    match c.op with
    | .lt | .gt | .ne => some (.const (.bool false))
    | .le | .ge | .eq => some (.const (.bool true))
    | _ => none
  else none

/-- Two constants. -/
def constantFolding (c : Comparison) : Option Folded :=
  if c.dtype = .weakInt then none
  else do
    let a ← c.lhs.constValue
    let b ← c.rhs.constValue
    let result ← ConstValue.evalBinaryOp c.op a b
    some (.const result)

/-- `ComparisonAnalyzer::analyze`. -/
def analyze (c : Comparison) : Option Bool :=
  if c.lhs = c.rhs then
    match c.op with
    | .lt | .ne => some false
    | .eq => some true
    | _ => none
  else do
    let x ← c.lhs.range
    let y ← c.rhs.range
    RangeEval.analyzeWithRanges c.op x y

/-- Two sound ranges that decide the comparison. -/
def rangeAnalysis (c : Comparison) : Option Folded :=
  if c.dtype = .weakInt then none
  else c.analyze.map fun b => .const (.bool b)

/-- The pattern of all six comparisons. -/
def decided (c : Comparison) : Option Folded :=
  c.selfComparison <|> c.constantFolding <|> c.rangeAnalysis

section

-- what the constructors build from operands of different types, by promotion and casts
variable (mixed : ArithOp → Expr → Expr → Option Expr)
  (mixedLt : Expr → Expr → Option Folded)

/-- `(c0 + x) < c1` is `x < (c1 - c0)`. -/
def moveConst (c : Comparison) : Option Folded :=
  if c.op = .lt then do
    let (c0, x) ← c.lhs.constAddend
    let c0Val ← c0.constValue
    let c1Val ← c.rhs.constValue
    -- `eval_sub_typed`, and the constant of it
    let diff ← (ConstValue.evalSub c1Val c0Val).bind (·.cast c0.dtype)
    let bound ← constOfValue c0.dtype diff
    tryCmplt mixedLt x bound
  else none

/-- `x * -1 < y * -1` is `y < x`. -/
def flipNegation (c : Comparison) : Option Folded :=
  if c.op = .lt then do
    let x ← c.lhs.negated
    let y ← c.rhs.negated
    tryCmplt mixedLt y x
  else none

/-- `(x // d) < c` is `x < (c * d)`. -/
def liftDivision (c : Comparison) : Option Folded :=
  if c.op = .lt then do
    let (x, d) ← c.lhs.byConst .floorDiv
    let dInt ← d.matchInt
    let cInt ← c.rhs.matchInt
    if dInt ≤ 0 ∨ ¬ integerArithmeticDoesNotWrap c.lhs then none
    else do
      let bound ← RangeEval.checkedI128 (cInt * dInt)
      let (dtypeMin, dtypeMax) ← integerDtypeBounds x.dtype
      if bound < dtypeMin ∨ bound > dtypeMax then none
      else tryCmplt mixedLt x (constOfType x.dtype (wrapSigned 64 bound))
  else none

/-- `c0 * x < c1` is `sign(c0) * x < ceil(c1 / |c0|)`, of weak integers. -/
def scaleWeak (c : Comparison) : Option Folded :=
  if c.op = .lt then
    (c.lhs.operands .mul).findSome? fun (c0, x) =>
      if x.dtype = .weakInt then do
        let c0Int ← c0.matchInt
        let c1Int ← c.rhs.matchInt
        if |c0Int| ≤ 1 then none
        else do
          let lhs ← timesSign mixed c0Int x
          tryCmplt mixedLt lhs (constOfType x.dtype (wrapSigned 64 (-(-c1Int / |c0Int|))))
      else none
  else none

/-- `x < c` over a common divisor, of weak integers. -/
def foldWeak (leafRange : Leaf → RangeEval.Bounds) (c : Comparison) : Option Folded :=
  if c.op = .lt ∧ c.lhs.dtype = .weakInt then do
    let cInt ← c.rhs.matchInt
    if cInt ≤ 0 then none else ltFolding mixed mixedLt leafRange c.lhs cInt
  else none

end

end Comparison

/-- The patterns of `comparison_dsl_patterns`, in order. -/
inductive ComparisonRule where
  | decided | moveConst | flipNegation | liftDivision | scaleWeak | foldWeak
deriving DecidableEq, Repr

def ComparisonRule.rewrite (mixed : ArithOp → Expr → Expr → Option Expr)
    (mixedLt : Expr → Expr → Option Folded) (leafRange : Leaf → RangeEval.Bounds) :
    ComparisonRule → Comparison → Option Folded
  | decided => Comparison.decided
  | moveConst => Comparison.moveConst mixedLt
  | flipNegation => Comparison.flipNegation mixedLt
  | liftDivision => Comparison.liftDivision mixedLt
  | scaleWeak => Comparison.scaleWeak mixed mixedLt
  | foldWeak => Comparison.foldWeak mixed mixedLt leafRange

end Svod.Symbolic
