/-
  Svod.Ir.SInt

  Symbolic integers (`ir/src/sint.rs`) and the node constructors that their
  arithmetic calls (`ir/src/uop/constructors`).

  An operation that panics has no result.  Native arithmetic on `usize` and
  `i128` wraps, as it does in a release build.  Nodes are hash-consed, so a node
  stands for its identifier.  Dimensions are scalars: the shape checks of the
  constructors and the floating dtypes are left out.
-/

import Svod.Promotion
import Svod.Ir.VminVmax

namespace Svod.Ir

open Svod.Lib RangeEval

namespace UOp

/-! ## Constructors -/

instance : BEq UOp := ⟨UOp.same⟩

/-- `try_const_`: the value is normalized to the dtype. -/
def const_ (dtype : DType) (value : ConstValue) : Option UOp :=
  if value = .invalid then some (.const .invalid (.scalar .bool))
  else
    match dtype with
    | .scalar s => (value.cast s).map (.const · dtype)
    | .vector s _ => if s = .void then none else (value.cast s).map (.const · dtype)
    | _ => none

/-- `index_const`. -/
def indexConst (value : ℤ) : Option UOp := const_ (.scalar .weakInt) (.int value)

/-- `cast`, on scalars: nothing is done when the types match. -/
def castUop (u : UOp) (dtype : DType) : UOp := if u.dtype = dtype then u else .cast u dtype

/-- `cast_strong_source`: a weak source stays mathematical under a concrete target. -/
def castStrongSource (source : UOp) (target : DType) : UOp :=
  if source.dtype.isWeak && !target.isWeak then source else source.castUop target

/-- `promote_and_cast`. -/
def promoteAndCast (lhs rhs : UOp) : Option (UOp × UOp × DType) :=
  if lhs.dtype = .scalar .void ∨ rhs.dtype = .scalar .void then none
  else do
    let target ←
      if lhs.isInvalidMarker then some rhs.dtype
      else if rhs.isInvalidMarker then some lhs.dtype
      else lhs.dtype.leastUpper rhs.dtype
    let promote := fun u : UOp =>
      if u.dtype ≠ target ∧ ¬ u.isInvalidMarker then u.castStrongSource target else u
    some (promote lhs, promote rhs, target)

/-- `binary_arith_ops!`. -/
def tryBinary (op : BinaryOp) (lhs rhs : UOp) : Option UOp :=
  (promoteAndCast lhs rhs).map fun (l, r, d) => .binary op l r d

def tryAdd : UOp → UOp → Option UOp := tryBinary .add

def tryMul : UOp → UOp → Option UOp := tryBinary .mul

def tryMax : UOp → UOp → Option UOp := tryBinary .max

/-- `check_division_by_zero`. -/
def isConstZero : UOp → Bool
  | .const (.int v) _ => v = 0
  | .const (.uint v) _ => v = 0
  | _ => false

/-- `try_div`, on integer dtypes. -/
def tryDiv (lhs rhs : UOp) : Option UOp :=
  if rhs.isConstZero then none else tryBinary .floorDiv lhs rhs

/-- `neg`: a product with `-1`, except on booleans. -/
def neg (u : UOp) : Option UOp :=
  if u.dtype = .scalar .bool then some (.unary .not u u.dtype)
  else do
    let minusOne ← const_ u.dtype (.int (-1))
    tryMul u minusOne

/-- `try_sub`: the sum with the negation. -/
def trySub (lhs rhs : UOp) : Option UOp := do
  let (l, r, _) ← promoteAndCast lhs rhs
  let r' ← r.neg
  tryAdd l r'

end UOp

/-! ## Helpers -/

/-- `const_to_i128`. -/
def constToI128 : ConstValue → Option ℤ
  | .int x => some x
  | .uint x => some x
  | _ => none

/-- `symbolic_contains_max_term`. -/
def symbolicContainsMaxTerm (expr needle : UOp) : Bool :=
  if expr.same needle then true
  else
    match expr with
    | .binary .max lhs rhs _ =>
      symbolicContainsMaxTerm lhs needle || symbolicContainsMaxTerm rhs needle
    | _ => false

/-- `const_leaf`. -/
def constLeaf : UOp → Option ℤ
  | .const c _ => constToI128 c
  | .binary .mul lhs rhs _ => do
    let x ← constLeaf lhs
    let y ← constLeaf rhs
    some (wrapSigned 128 (x * y))
  | _ => none

/-- `affine_terms`: the constant addend and the varying terms of an `Add` chain. -/
def affineTerms : UOp → ℤ × List UOp
  | .binary .add lhs rhs _ =>
    (wrapSigned 128 ((affineTerms lhs).1 + (affineTerms rhs).1),
      (affineTerms lhs).2 ++ (affineTerms rhs).2)
  | expr =>
    match constLeaf expr with
    | some c => (c, [])
    | none => (0, [expr])

def isAdd : UOp → Bool
  | .binary .add _ _ _ => true
  | _ => false

/-- `affine_difference`; sorted identifiers are equal when the terms are a permutation. -/
def affineDifference (a b : UOp) : Option ℤ :=
  if !isAdd a && !isAdd b then none
  else if (affineTerms a).2.isPerm (affineTerms b).2 then
    some (wrapSigned 128 ((affineTerms a).1 - (affineTerms b).1))
  else none

/-! ## Symbolic integers -/

/-- `SInt`.  A concrete value is a `usize`. -/
inductive SInt where
  | const (v : ℕ)
  | symbolic (u : UOp)
  | infer

namespace SInt

/-- `PartialEq`. -/
def same : SInt → SInt → Bool
  | .const a, .const b => a = b
  | .symbolic a, .symbolic b => a.same b
  | .infer, .infer => true
  | _, _ => false

/-- `arithmetic_uop`. -/
def arithmeticUop : SInt → Option UOp
  | .const v => UOp.indexConst (wrapSigned 64 v)
  | .symbolic u => some u
  | .infer => none

/-- `to_uop`. -/
def toUop (dtype : DType) : SInt → Option UOp
  | .const v => UOp.const_ dtype (.int (wrapSigned 64 v))
  | .symbolic u => some (if u.dtype ≠ dtype then u.castUop dtype else u)
  | .infer => none

/-- `arithmetic_pair`: a constant takes the dtype of a symbolic partner. -/
def arithmeticPair (a b : SInt) : Option (UOp × UOp) :=
  match a, b with
  | .const v, .symbolic value => (toUop value.dtype (.const v)).map (·, value)
  | .symbolic value, .const v => (toUop value.dtype (.const v)).map (value, ·)
  | a, b => do
    let x ← a.arithmeticUop
    let y ← b.arithmeticUop
    some (x, y)

/-- `impl_sint_binop!`. -/
def binop (concrete : ℕ → ℕ → Option ℕ) (method : UOp → UOp → Option UOp) (a b : SInt) :
    Option SInt :=
  match a, b with
  | .infer, _ | _, .infer => none
  | .const x, .const y => (concrete x y).map .const
  | a, .const 0 => some a
  | .const 0, b => some b
  | a, b => do
    let (x, y) ← arithmeticPair a b
    (method x y).map .symbolic

def add : SInt → SInt → Option SInt :=
  binop (fun x y => some ((x + y) % 2 ^ 64)) UOp.tryAdd

def mul : SInt → SInt → Option SInt :=
  binop (fun x y => some ((x * y) % 2 ^ 64)) UOp.tryMul

def div : SInt → SInt → Option SInt :=
  binop (fun x y => if y = 0 then none else some (x / y)) UOp.tryDiv

/-- The assertion that a difference is not negative, and the conversion to `usize`. -/
def asUsize (diff : ℤ) : Option ℕ := if 0 ≤ diff then some (diff % 2 ^ 64).toNat else none

/-- `Sub`. -/
def sub (a b : SInt) : Option SInt :=
  match a, b with
  | .infer, _ | _, .infer => none
  | .const x, .const y => if x ≥ y then some (.const (x - y)) else none
  | a, .const 0 => some a
  | a, b =>
    if a.same b then some (.const 0)
    else do
      let (x, y) ← arithmeticPair a b
      match affineDifference x y with
      | some diff => (asUsize diff).map .const
      | none => (UOp.trySub x y).map .symbolic

/-- `ceildiv`. -/
def ceildiv (a b : SInt) : Option SInt := do
  let s ← a.add b
  let d ← s.sub (.const 1)
  d.div b

/-- The interval shortcut of `smax`: the first operand is never below the second. -/
def rangeAtLeast (a b : UOp) : Bool :=
  match constToI128 (vminVmax a).1, constToI128 (vminVmax a).2, constToI128 (vminVmax b).1,
    constToI128 (vminVmax b).2 with
  | some amin, some _, some _, some bmax => amin ≥ bmax
  | _, _, _, _ => false

/-- What `smax` decides on the two operands: to return one of them, or to build a node. -/
inductive MaxChoice where
  | lhs | rhs | node
  deriving DecidableEq, Repr

/-- The shortcuts of `smax` on the operands as nodes. -/
def maxChoice (x y : UOp) : MaxChoice :=
  if symbolicContainsMaxTerm x y then .lhs
  else if symbolicContainsMaxTerm y x then .rhs
  else if rangeAtLeast x y then .lhs
  else if rangeAtLeast y x then .rhs
  else .node

/-- `smax`. -/
def smax (a b : SInt) : Option SInt :=
  match a, b with
  | .infer, _ | _, .infer => none
  | .const x, .const y => some (.const (Max.max x y))
  | a, b =>
    if a.same b then some a
    else do
      let (x, y) ← arithmeticPair a b
      match maxChoice x y with
      | .lhs => some a
      | .rhs => some b
      | .node => (UOp.tryMax x y).map .symbolic

/-- `smin`, as `-max(-a, -b)`. -/
def smin (a b : SInt) : Option SInt :=
  match a, b with
  | .infer, _ | _, .infer => none
  | .const x, .const y => some (.const (Min.min x y))
  | a, b => do
    let (x, y) ← arithmeticPair a b
    let nx ← x.neg
    let ny ← y.neg
    let m ← UOp.tryMax nx ny
    let r ← m.neg
    some (.symbolic r)

/-- `sint_prod`. -/
def sintProd (values : List SInt) : Option SInt := values.foldlM mul (.const 1)

end SInt

end Svod.Ir
