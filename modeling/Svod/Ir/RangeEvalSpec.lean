/-
  Svod.Ir.RangeEvalSpec

  What an integer expression computes, and the promise of an interval for it.

  `eval` gives an expression its mathematical meaning.  A leaf takes the value
  the environment assigns to it, provided that the value lies inside the
  declared bounds.  An operation is computed over the integers and then reduced
  to the dtype of its node; it has no value on a zero divisor or on a shift
  amount outside the width.  `WHERE` evaluates only the branch it selects, so a
  division may be guarded.

  `WellTyped` collects what the constructors and the ALU rules of the type
  verifier promise about one node.  `Ordered` is the condition under which the
  analysis meets the semantics: it speaks of the intervals a node gets from its
  sources, and of nothing where there are none.
-/

import Svod.Ir.RangeEval

namespace Svod.Ir

open Svod.Lib

/-! ## Types -/

/-- The values of a scalar type; a boolean is one unsigned bit. -/
def intType : ScalarDType → Option IntType
  | .bool => some ⟨false, 1, by decide⟩
  | .int8 => some ⟨true, 8, by decide⟩
  | .uint8 => some ⟨false, 8, by decide⟩
  | .int16 => some ⟨true, 16, by decide⟩
  | .uint16 => some ⟨false, 16, by decide⟩
  | .int32 => some ⟨true, 32, by decide⟩
  | .uint32 => some ⟨false, 32, by decide⟩
  | .int64 | .weakInt | .index => some ⟨true, 64, by decide⟩
  | .uint64 => some ⟨false, 64, by decide⟩
  | _ => none

/-- Booleans and floats apart, every type has at least a byte. -/
example (s : ScalarDType) (t : IntType) (h : intType s = some t) (hs : s ≠ .bool) : 8 ≤ t.bits := by
  cases s <;> simp only [intType, reduceCtorEq, Option.some.injEq] at h <;> subst h <;> simp at hs ⊢

/-- What `i64` and `u64` can hold. -/
def ConstValue.Machine : ConstValue → Prop
  | .int v => -2 ^ 63 ≤ v ∧ v < 2 ^ 63
  | .uint v => 0 ≤ v ∧ v < 2 ^ 64
  | .bool _ | .invalid => True

/-- The widest type of the kind of a constant. -/
def ConstValue.wide : ConstValue → ScalarDType
  | .bool _ => .bool
  | .uint _ => .uint64
  | _ => .int64

/-- The ends of an interval lie in a type. -/
def RangeEval.Within (b : RangeEval.Bounds) (s : ScalarDType) : Prop :=
  ∃ t lo hi, intType s = some t ∧ b.1.integerValue = some lo ∧ b.2.integerValue = some hi ∧
    t.min ≤ lo ∧ hi ≤ t.max

/-- Constants of the two types are of one kind: `Bool`, `UInt` or `Int`. -/
def sameKind (s s' : ScalarDType) : Prop :=
  (s = .bool ↔ s' = .bool) ∧ s.isUnsigned = s'.isUnsigned

instance (s s' : ScalarDType) : Decidable (sameKind s s') := inferInstanceAs (Decidable (_ ∧ _))

/-! ## Semantics -/

/-- The result of a unary operation before it is reduced to the dtype. -/
def UnaryOp.apply : UnaryOp → ℤ → ℤ
  | .neg, x => -x
  | .not, x => -x - 1

/-- The result of a binary operation before it is reduced to the dtype. -/
def BinaryOp.apply : BinaryOp → ℤ → ℤ → ℤ
  | .add, x, y => x + y
  | .sub, x, y => x - y
  | .mul, x, y => x * y
  | .max, x, y => Max.max x y
  | .floorDiv, x, y => x.fdiv y
  | .cdiv, x, y => x.tdiv y
  | .floorMod, x, y => x.fmod y
  | .cmod, x, y => x.tmod y
  | .shl, x, y => x * 2 ^ y.toNat
  | .shr, x, y => x / 2 ^ y.toNat
  | .and, x, y => x.land y
  | .or, x, y => x.lor y
  | .lt, x, y => if x < y then 1 else 0
  | .le, x, y => if x ≤ y then 1 else 0
  | .eq, x, y => if x = y then 1 else 0
  | .ne, x, y => if x ≠ y then 1 else 0
  | .gt, x, y => if x > y then 1 else 0
  | .ge, x, y => if x ≥ y then 1 else 0

/-- Divisors are not zero, shift amounts are below the width. -/
def BinaryOp.defined (op : BinaryOp) (t : IntType) (y : ℤ) : Bool :=
  match op with
  | .floorDiv | .cdiv | .floorMod | .cmod => y ≠ 0
  | .shl | .shr => 0 ≤ y ∧ y < t.bits
  | _ => true

/-- A value cast to a scalar type: the test for zero for `bool`, else a reduction. -/
def castTo (s : ScalarDType) (t : IntType) (v : ℤ) : ℤ :=
  if s = .bool then (if v = 0 then 0 else 1) else t.wrap v

namespace UOp

/-- An assignment of the leaves. -/
abbrev Env := UOp → ℤ

/-- A leaf has a value inside its declared bounds and its dtype. -/
def declared (lo hi : ℤ) (d : DType) (v : ℤ) : Option ℤ := do
  let t ← intType d.base
  if t.Contains v ∧ lo ≤ v ∧ v ≤ hi then some v else none

/-- The value of an expression in one lane.  `STACK` and `VCONST` consume the first
    component of the lane, everything else works lane by lane. -/
def eval (env : Env) : UOp → List ℕ → Option ℤ
  | .const c _, _ => c.integerValue
  | .vconst cs _, lane => do
    let i ← lane.head?
    let c ← cs[i]?
    c.integerValue
  | .defineVar n mn mx d, _ => declared mn mx d (env (.defineVar n mn mx d))
  | .param s b as d, _ => do
    let (mn, mx) ← b
    let lo ← mn.integerValue
    let hi ← mx.integerValue
    declared lo hi d (env (.param s b as d))
  | .range stop i d, lane => do
    let n ← stop.eval env lane
    declared 0 (n - 1) d (env (.range stop i d))
  | .special stop name d, lane => do
    let n ← stop.eval env lane
    declared 0 (n - 1) d (env (.special stop name d))
  | .bind var value _, lane => do
    let x ← var.eval env lane
    let y ← value.eval env lane
    if x = y then some x else none
  | .stack n sources _, lane => do
    let i ← lane.head?
    if h : i < n then (sources ⟨i, h⟩).eval env lane.tail else none
  | .unary op x d, lane => do
    let v ← x.eval env lane
    let t ← intType d.base
    some (t.wrap (op.apply v))
  | .binary op a b d, lane => do
    let x ← a.eval env lane
    let y ← b.eval env lane
    let t ← intType d.base
    if op.defined t y then some (t.wrap (op.apply x y)) else none
  | .where_ c x y d, lane => do
    let v ← c.eval env lane
    let t ← intType d.base
    let w ← if v ≠ 0 then x.eval env lane else y.eval env lane
    some (t.wrap w)
  | .cast x d, lane => do
    let v ← x.eval env lane
    let t ← intType d.base
    some (castTo d.base t v)

/-- A literal is the number it holds, the invalid marker has no value. -/
example (env : Env) (v : ℤ) (d : DType) : eval env (.const (.int v) d) [] = some v ∧
    eval env (.const .invalid d) [] = none := by
  simp only [eval]
  exact ⟨rfl, rfl⟩

/-! ## Conditions on nodes -/

/-- `P` holds at every node of the expression. -/
def All (P : UOp → Prop) : UOp → Prop
  | .const c d => P (.const c d)
  | .vconst cs d => P (.vconst cs d)
  | .defineVar n mn mx d => P (.defineVar n mn mx d)
  | .param s b as d => P (.param s b as d)
  | .range stop i d => P (.range stop i d) ∧ stop.All P
  | .special stop n d => P (.special stop n d) ∧ stop.All P
  | .bind x v d => P (.bind x v d) ∧ x.All P ∧ v.All P
  | .stack n s d => P (.stack n s d) ∧ ∀ i, (s i).All P
  | .unary op x d => P (.unary op x d) ∧ x.All P
  | .binary op a b d => P (.binary op a b d) ∧ a.All P ∧ b.All P
  | .where_ c x y d => P (.where_ c x y d) ∧ c.All P ∧ x.All P ∧ y.All P
  | .cast x d => P (.cast x d) ∧ x.All P

theorem All.here {P : UOp → Prop} {e : UOp} (h : e.All P) : P e := by
  cases e with
  | const | vconst | defineVar | param => exact h
  | range | special | bind | stack | unary | binary | where_ | cast => exact h.1

/-- `is_invalid_marker`. -/
def isInvalidMarker : UOp → Bool
  | .const c _ => c = .invalid
  | .vconst cs _ => cs ≠ [] ∧ ∀ c ∈ cs, c = .invalid
  | _ => false

/-- `matches_dtype`, on scalar types. -/
def Matches (e : UOp) (s : ScalarDType) : Prop := e.dtype.base = s ∨ e.isInvalidMarker

/-- An operand of a node of type `s`: of that type, or weak and not yet committed to it. -/
def Operand (e : UOp) (s : ScalarDType) : Prop :=
  e.Matches s ∨ e.dtype.base = .weakInt ∧ s.isInt

/-- What `Op::Binary` demands of its operands (`dtype_from_op`, `rule_alu`). -/
def BinaryTyped (op : BinaryOp) (a b : UOp) (s : ScalarDType) : Prop :=
  if op.isComparison then
    s = .bool ∧ (a.Matches b.dtype.base ∨ b.Matches a.dtype.base ∨ a.dtype.base = .weakInt ∨
      b.dtype.base = .weakInt)
  else if op = .shl ∨ op = .shr then s.isInt ∧ a.dtype.base = s ∧ b.dtype.base.isInt
  else a.Operand s ∧ b.Operand s

/-- What the constructors and the type verifier promise about one node, besides an integer
    or boolean dtype. -/
def NodeTyped : UOp → Prop
  | .const c d => c.Machine ∧ c.cast d.base = some c
  | .vconst cs d => ∀ c ∈ cs, c.Machine ∧ c.cast d.base = some c
  | .defineVar _ mn mx _ => (ConstValue.int mn).Machine ∧ (ConstValue.int mx).Machine
  | .param _ (some (mn, mx)) _ _ => mn.Machine ∧ mx.Machine
  | .range stop _ d => d.base.isInt ∧ stop.Matches d.base
  | .special stop _ d => d.base.isInt ∧ stop.Matches d.base
  | .bind var value d => var.dtype.base = d.base ∧ value.dtype.base = d.base
  | .stack n s d => ∀ i : Fin n, (s i).Operand d.base
  | .unary _ x d => x.dtype.base = d.base
  | .binary op a b d => BinaryTyped op a b d.base
  | .where_ c x y d => c.dtype.base = .bool ∧ x.Operand d.base ∧ y.Operand d.base
  | _ => True

def WellTyped (e : UOp) : Prop :=
  e.All fun n => (intType n.dtype.base).isSome ∧ n.NodeTyped

/-- `contains_zero` sees whether the declared bounds of a boolean include zero. -/
def ZeroTestable (mn mx : ConstValue) : Prop :=
  mn = mx ∨ (∃ x y, mn = .int x ∧ mx = .int y) ∨ ∃ x, mn = .uint x

open RangeEval in
/-- Where the sources of a node have intervals, the analysis compares constants of one kind,
    keeps only bounds that lie in the dtype, and tests no undecided boolean for zero. -/
def NodeOrdered : UOp → Prop
  | .param _ (some (mn, mx)) as d => as = none → d.base = .bool → ZeroTestable mn mx
  | .stack n s _ => ∀ a : Fin n → Bounds, (∀ i, computeSoundVminVmax (s i) = some (a i)) →
    ∀ i j, (a i).1.wide = (a j).1.wide
  | .unary op x d => ∀ a, computeSoundVminVmax x = some a →
    op = .not → a.1 = a.2 ∨ Within a d.base
  | .binary op x y d => ∀ a c, computeSoundVminVmax x = some a →
    computeSoundVminVmax y = some c → a.1 = a.2 ∧ c.1 = c.2 ∨
      match op with
      | .lt | .le | .gt | .ge => x.same y ∨ a.1.wide = c.1.wide
      | .and => ∀ m, 0 ≤ m → c = (.int m, .int m) → d.base.isUnsigned ∨ Within c d.base
      | _ => True
  | .where_ k x y d => ∀ b a c, computeSoundVminVmax k = some b →
    computeSoundVminVmax x = some a → computeSoundVminVmax y = some c →
      b.1 = b.2 ∧ a.1 = a.2 ∧ c.1 = c.2 ∨
        (b ≠ (.bool false, .bool false) → Within a d.base) ∧
        (b ≠ (.bool true, .bool true) → Within c d.base) ∧
        (b.1 ≠ b.2 → a.1.wide = c.1.wide)
  | .cast x d => ∀ a, computeSoundVminVmax x = some a →
    x.dtype.base = .bool → d.base = .bool → a.1 = a.2
  | _ => True

def Ordered (e : UOp) : Prop := e.All NodeOrdered

end UOp

namespace RangeEval

/-- `lo ≤ v ≤ hi` for the interval `(lo, hi)`. -/
def InBounds (b : Bounds) (v : ℤ) : Prop :=
  ∃ lo hi, b.1.integerValue = some lo ∧ b.2.integerValue = some hi ∧ lo ≤ v ∧ v ≤ hi

/-- Whatever the expression evaluates to lies in the interval the analysis returns. -/
def Sound (e : UOp) : Prop :=
  ∀ env lane b v, computeSoundVminVmax e = some b → e.eval env lane = some v → InBounds b v

end RangeEval

end Svod.Ir
