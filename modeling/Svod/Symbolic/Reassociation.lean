/-
  Svod.Symbolic.Reassociation

  Like-term merging and two-stage constant folding
  (`term_combining_dsl_patterns_unchecked` and `alu_folding_dsl_patterns_unchecked`
  of `symbolic/patterns.rs`), on integers.

  A node the patterns do not look into is a leaf.  Leaves and constants have the
  type of the match or are weak: `promote_and_cast` casts the operands of a node to
  its type, but leaves weak ones as they are.  `sub` and `neg` build what `try_sub`
  and `neg` build: a product by `-1`, and an addition.  The constants of a
  replacement are computed when the rule fires, at the type of the first one: the
  calls that `expect` a result and the negation of a host `i64` can stop there.
-/

import Svod.Promotion
import Svod.Symbolic.Expr

namespace Svod.Symbolic.Reassociation

open Svod.Ir Svod.Lib

/-! ## Terms -/

inductive Op where
  | add | sub | mul | and | or | xor | max
deriving DecidableEq, Repr

/-- A constant node. -/
structure Literal where
  dtype : ScalarDType
  value : ConstValue
deriving DecidableEq

inductive Term where
  | leaf (dtype : ScalarDType) (id : ℕ)
  | const (c : Literal)
  | binary (op : Op) (a b : Term)
deriving DecidableEq

def Op.isCommutative : Op → Bool
  | .sub => false
  | _ => true

/-- The result before it is reduced to the type. -/
def Op.apply : Op → ℤ → ℤ → ℤ
  | .add, x, y => x + y
  | .sub, x, y => x - y
  | .mul, x, y => x * y
  | .and, x, y => x.land y
  | .or, x, y => x.lor y
  | .xor, x, y => x.xor y
  | .max, x, y => Max.max x y

/-- `least_upper_dtype` of operands of one type, or of a type and a weak one. -/
def promote (a b : ScalarDType) : ScalarDType := if a = .weakInt then b else a

/-- A leaf of each type has a value. -/
abbrev Env := ScalarDType → ℕ → ℤ

/-- What a cast to `s` keeps of an integer. -/
def reduce (s : ScalarDType) (v : ℤ) : ℤ :=
  match intType s with
  | some t => t.wrap v
  | none => v

namespace Term

def dtype : Term → ScalarDType
  | leaf d _ => d
  | const c => c.dtype
  | binary _ a b => promote a.dtype b.dtype

/-- The value: a weak operand is committed to the type of the node, and the result reduced
    to it. -/
def eval (env : Env) : Term → ℤ
  | leaf d i => env d i
  | const c => c.value.integerValue.getD 0
  | binary op a b =>
    let d := promote a.dtype b.dtype
    reduce d (op.apply (reduce d (a.eval env)) (reduce d (b.eval env)))

def isConst : Term → Bool
  | const _ => true
  | _ => false

def add (a b : Term) : Term := binary .add a b

def mul (a b : Term) : Term := binary .mul a b

/-- `const_like`, of an integer. -/
def constLike (a : Term) (v : ℤ) : Term := const ⟨a.dtype, Expr.committed a.dtype v⟩

/-- `neg`: the product by `-1`. -/
def neg (a : Term) : Term := a.mul (a.constLike (-1))

/-- `try_sub`: the addition of the negation. -/
def sub (a b : Term) : Term := a.add b.neg

end Term

/-! ## Constants of the replacements -/

/-- How the computation of a constant stops. -/
inductive HostError where
  /-- An `expect` on a result that is not there. -/
  | expect
  /-- A host operation that overflows. -/
  | overflow
deriving DecidableEq, Repr

/-- What a rule that fires gives. -/
abbrev Outcome := Except HostError Term

def expect {α : Type} : Option α → Except HostError α
  | some a => .ok a
  | none => .error .expect

/-- `eval_binary_op`, of an exclusive or. -/
def evalXor : ConstValue → ConstValue → Option ConstValue
  | .invalid, _ => some .invalid
  | _, .invalid => some .invalid
  | .int x, .int y => some (.int (x.xor y))
  | .uint x, .uint y => some (.uint (x.xor y))
  | .bool p, .bool q => some (.bool (p.xor q))
  | _, _ => none

/-- `eval_add_typed`. -/
def evalAddTyped (a b : ConstValue) (s : ScalarDType) : Option ConstValue :=
  (ConstValue.evalAdd a b).bind (·.cast s)

/-- `eval_mul_typed`. -/
def evalMulTyped (a b : ConstValue) (s : ScalarDType) : Option ConstValue :=
  (ConstValue.evalMul a b).bind (·.cast s)

/-- `eval_sub_typed`. -/
def evalSubTyped (a b : ConstValue) (s : ScalarDType) : Option ConstValue :=
  (ConstValue.evalSub a b).bind (·.cast s)

/-- `UOp::const_`. -/
def const_ (s : ScalarDType) (c : ConstValue) : Outcome := do
  .ok (.const ⟨s, ← expect (c.cast s)⟩)

/-- `-v` of an `i64`. -/
def negI64 (v : ℤ) : Except HostError ℤ := if v = -2 ^ 63 then .error .overflow else .ok (-v)

/-- `ConstValue::one`. -/
def one : ScalarDType → ConstValue
  | .bool => .bool true
  | .uint8 | .uint16 | .uint32 | .uint64 => .uint 1
  | _ => .int 1

/-- `ConstValue::neg_one`. -/
def negOne (s : ScalarDType) : Option ConstValue :=
  match s with
  | .weakInt | .int8 | .int16 | .int32 | .int64 | .index => some (.int (-1))
  | _ => none

/-- `is_neg_one`. -/
def isNegOne (c : ConstValue) : Bool := c = .int (-1)

/-- `try_int`: an unsigned constant is read as an `i64`. -/
def tryInt : ConstValue → Option ℤ
  | .int v => some v
  | .uint v => some (wrapSigned 64 v)
  | _ => none

/-! ## Patterns -/

/-- A pattern with its variables bound: `op(p, q)`, or `op[p, q]` in either order. -/
inductive Pattern where
  | term (e : Term)
  | ordered (op : Op) (p q : Pattern)
  | either (op : Op) (p q : Pattern)

def Pattern.accepts : Pattern → Term → Bool
  | .term x, e => e = x
  | .ordered op p q, .binary o a b => o = op && (p.accepts a && q.accepts b)
  | .either op p q, .binary o a b =>
    o = op && ((p.accepts a && q.accepts b) || (p.accepts b && q.accepts a))
  | _, _ => false

/-- A rule with its variables bound.  No outcome: the rule does not fire. -/
structure Rule where
  pattern : Pattern
  outcome : Option Outcome

/-- `@const`. -/
def Pattern.const (c : Literal) : Pattern := .term (.const c)

/-! ## Term combining -/

/-- `x + x → x*2`. -/
def addSelf (x : Term) : Rule where
  pattern := .ordered .add (.term x) (.term x)
  outcome := some (.ok (x.mul (x.constLike 2)))

/-- `x*c1 + x*c2 → x*(c1+c2)`. -/
def mergeTerms (x : Term) (c1 c2 : Literal) : Rule where
  pattern := .ordered .add (.either .mul (.term x) (.const c1)) (.either .mul (.term x) (.const c2))
  outcome := some do
    let coeff ← const_ c1.dtype (← expect (evalAddTyped c1.value c2.value c1.dtype))
    .ok (x.mul coeff)

/-- `x + x*c → x*(c+1)`. -/
def mergeBare (x : Term) (c : Literal) : Rule where
  pattern := .either .add (.term x) (.either .mul (.term x) (.const c))
  outcome := some do
    let newC ← expect (evalAddTyped c.value (one c.dtype) c.dtype)
    .ok (x.mul (← const_ c.dtype newC))

/-- `(y + x*c0) + x*c1 → y + x*(c0+c1)`. -/
def mergeNested (x y : Term) (c0 c1 : Literal) : Rule where
  pattern := .either .add (.either .add (.term y) (.either .mul (.term x) (.const c0)))
    (.either .mul (.term x) (.const c1))
  outcome := some do
    let newC ← expect (evalAddTyped c0.value c1.value c0.dtype)
    .ok (y.add (x.mul (← const_ c0.dtype newC)))

/-- `(y + x) + x*c → y + x*(c+1)`. -/
def mergeNestedBare (x y : Term) (c : Literal) : Rule where
  pattern := .either .add (.either .add (.term y) (.term x)) (.either .mul (.term x) (.const c))
  outcome := some do
    let newC ← expect (evalAddTyped c.value (one c.dtype) c.dtype)
    .ok (y.add (x.mul (← const_ c.dtype newC)))

/-- `(y + x*c) + x → y + x*(c+1)`. -/
def mergeNestedTerm (x y : Term) (c : Literal) : Rule where
  pattern := .either .add (.either .add (.term y) (.either .mul (.term x) (.const c))) (.term x)
  outcome := some do
    let newC ← expect (evalAddTyped c.value (one c.dtype) c.dtype)
    .ok (y.add (x.mul (← const_ c.dtype newC)))

/-- `(y + x) + x → y + x*2`. -/
def addSelfNested (x y : Term) : Rule where
  pattern := .either .add (.either .add (.term y) (.term x)) (.term x)
  outcome := some (.ok (y.add (x.mul (x.constLike 2))))

/-- `-(x+c) → -x + -c`. -/
def distributeNeg (x : Term) (nv c : Literal) : Rule where
  pattern := .either .mul (.const nv) (.either .add (.term x) (.const c))
  outcome := if isNegOne nv.value then
      (negOne c.dtype).map fun neg => do
        let negCv ← expect (evalMulTyped c.value neg c.dtype)
        .ok (x.neg.add (← const_ c.dtype negCv))
    else none

/-- `y*(x+c) → y*x + y*c`, of a weak `x`. -/
def distributeConst (x : Term) (yv c : Literal) : Rule where
  pattern := .either .mul (.const yv) (.either .add (.term x) (.const c))
  outcome := if x.dtype = .weakInt then
      some (.ok (((Term.const yv).mul x).add ((Term.const yv).mul (.const c))))
    else none

/-! ## Two-stage folding -/

/-- `(x + c1) + c2 → x + (c1 + c2)`. -/
def foldAdd (x : Term) (c1 c2 : Literal) : Rule where
  pattern := .either .add (.either .add (.term x) (.const c1)) (.const c2)
  outcome := some do
    let csum ← expect (evalAddTyped c1.value c2.value c1.dtype)
    .ok (x.add (← const_ c1.dtype csum))

/-- `(x + c) + y → (x + y) + c`. -/
def pushAdd (x y : Term) (c : Literal) : Rule where
  pattern := .either .add (.either .add (.term x) (.const c)) (.term y)
  outcome := if y.isConst then none else some (.ok ((x.add y).add (.const c)))

/-- `(x * c1) * c2 → x * (c1 * c2)`. -/
def foldMul (x : Term) (c1 c2 : Literal) : Rule where
  pattern := .either .mul (.either .mul (.term x) (.const c1)) (.const c2)
  outcome := some do
    let cmul ← expect (evalMulTyped c1.value c2.value c1.dtype)
    .ok (x.mul (← const_ c1.dtype cmul))

/-- `(x * c) * y → (x * y) * c`. -/
def pushMul (x y : Term) (c : Literal) : Rule where
  pattern := .either .mul (.either .mul (.term x) (.const c)) (.term y)
  outcome := if y.isConst then none else some (.ok ((x.mul y).mul (.const c)))

/-- `(x op c1) op c2 → x op (c1 op c2)`, of a bitwise operation or a maximum. -/
def foldBy (op : Op) (eval : ConstValue → ConstValue → Option ConstValue)
    (pattern : Op → Pattern → Pattern → Pattern) (x : Term) (c1 c2 : Literal) : Rule where
  pattern := pattern op (pattern op (.term x) (.const c1)) (.const c2)
  outcome := (eval c1.value c2.value).map fun r => do .ok (.binary op x (← const_ c1.dtype r))

def foldAnd (x : Term) (c1 c2 : Literal) : Rule :=
  foldBy .and (ConstValue.evalBinaryOp .and) .either x c1 c2

def foldOr (x : Term) (c1 c2 : Literal) : Rule :=
  foldBy .or (ConstValue.evalBinaryOp .or) .either x c1 c2

def foldXor (x : Term) (c1 c2 : Literal) : Rule := foldBy .xor evalXor .either x c1 c2

/-- `max(max(x, c1), c2) → max(x, max(c1, c2))`. -/
def foldMax (x : Term) (c1 c2 : Literal) : Rule :=
  foldBy .max (ConstValue.evalBinaryOp .max) .ordered x c1 c2

/-- `(x - c1) + c2 → x + (c2 - c1)`, or `x - (c1 - c2)` of a signed negative difference. -/
def foldSubAdd (x : Term) (c1 c2 : Literal) : Rule where
  pattern := .either .add (.ordered .sub (.term x) (.const c1)) (.const c2)
  outcome := some do
    let diff ← expect (evalSubTyped c2.value c1.value c1.dtype)
    match diff with
    | .int v =>
      if v < 0 then .ok (x.sub (← const_ c1.dtype (.int (← negI64 v))))
      else .ok (x.add (← const_ c1.dtype diff))
    | _ => .ok (x.add (← const_ c1.dtype diff))

/-- `(x + c1) - c2 → x + (c1 - c2)`, or `x - (c2 - c1)` of a difference that reads as a
    negative `i64`. -/
def foldAddSub (x : Term) (c1 c2 : Literal) : Rule where
  pattern := .ordered .sub (.ordered .add (.term x) (.const c1)) (.const c2)
  outcome := some do
    let diff ← expect (evalSubTyped c1.value c2.value c1.dtype)
    match tryInt diff with
    | some v =>
      if v < 0 then .ok (x.sub (← const_ c1.dtype (.int (← negI64 v))))
      else .ok (x.add (← const_ c1.dtype diff))
    | none => .ok (x.add (← const_ c1.dtype diff))

/-- `(x - c1) - c2 → x - (c1 + c2)`. -/
def foldSubSub (x : Term) (c1 c2 : Literal) : Rule where
  pattern := .ordered .sub (.ordered .sub (.term x) (.const c1)) (.const c2)
  outcome := some do
    let csum ← expect (evalAddTyped c1.value c2.value c1.dtype)
    .ok (x.sub (← const_ c1.dtype csum))

/-- `a - (b - x) → x + (a - b)`. -/
def subOfSub (a b x : Term) : Rule where
  pattern := .ordered .sub (.term a) (.ordered .sub (.term b) (.term x))
  outcome := some (.ok (x.add (a.sub b)))

/-- The rules of `term_combining_dsl_patterns_unchecked`, on the variables of a match. -/
def termCombiningDslPatterns (x y : Term) (c1 c2 : Literal) : List Rule :=
  [addSelf x, mergeTerms x c1 c2, mergeBare x c1, mergeNested x y c1 c2,
    mergeNestedBare x y c1, mergeNestedTerm x y c1, addSelfNested x y,
    distributeNeg x c1 c2, distributeConst x c1 c2]

/-- The rules of `alu_folding_dsl_patterns_unchecked`, on the variables of a match. -/
def aluFoldingDslPatterns (x y a : Term) (c1 c2 : Literal) : List Rule :=
  [foldAdd x c1 c2, pushAdd x y c1, foldMul x c1 c2, pushMul x y c1, foldAnd x c1 c2,
    foldOr x c1 c2, foldXor x c1 c2, foldMax x c1 c2, foldSubAdd x c1 c2,
    foldAddSub x c1 c2, foldSubSub x c1 c2, subOfSub a y x]

end Svod.Symbolic.Reassociation
