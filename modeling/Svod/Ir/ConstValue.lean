/-
  Svod.Ir.ConstValue

  Integer and boolean constants (`ir/src/types.rs`) and their evaluation
  (`ir/src/uop/eval.rs`).

  `ConstValue::Int` carries an `i64` and `ConstValue::UInt` a `u64`; both are
  mathematical integers here, and every operation that wraps says where.
  Floating-point constants are left out: a cast to a float type gives `none`.
-/

import Svod.DType
import Svod.Lib.MachineInt

namespace Svod.Ir

open Svod.Lib

inductive UnaryOp where
  | neg | not
  deriving DecidableEq, Repr

/-- The integer and boolean operations of `BinaryOp`. -/
inductive BinaryOp where
  | add | sub | mul | max
  | floorDiv | cdiv | floorMod | cmod
  | shl | shr | and | or
  | lt | le | eq | ne | gt | ge
  deriving DecidableEq, Repr

/-- The result is a boolean. -/
def BinaryOp.isComparison : BinaryOp → Bool
  | .lt | .le | .eq | .ne | .gt | .ge => true
  | _ => false

/-- A zero divisor has no result. -/
def BinaryOp.isDivision : BinaryOp → Bool
  | .floorDiv | .cdiv | .floorMod | .cmod => true
  | _ => false

/-- A constant of the widest type of its kind, or no value at all. -/
inductive ConstValue where
  | invalid
  | int (v : ℤ)
  | uint (v : ℤ)
  | bool (b : Bool)
  deriving DecidableEq, Repr

namespace ConstValue

/-- `integer_value`. -/
def integerValue : ConstValue → Option ℤ
  | .int v => some v
  | .uint v => some v
  | .bool b => some (if b then 1 else 0)
  | .invalid => none

/-- `ConstValue::zero`. -/
def zero : ScalarDType → ConstValue
  | .bool => .bool false
  | .uint8 | .uint16 | .uint32 | .uint64 => .uint 0
  | _ => .int 0

/-- `ConstValue::min`, without the float types. -/
def min : ScalarDType → ConstValue
  | .bool => .bool false
  | .int8 => .int (-2 ^ 7)
  | .int16 => .int (-2 ^ 15)
  | .int32 => .int (-2 ^ 31)
  | .weakInt | .int64 | .index => .int (-2 ^ 63)
  | .uint8 | .uint16 | .uint32 | .uint64 => .uint 0
  | .void => .int 0
  | _ => .invalid

/-- `ConstValue::max`, without the float types. -/
def max : ScalarDType → ConstValue
  | .bool => .bool true
  | .int8 => .int (2 ^ 7 - 1)
  | .int16 => .int (2 ^ 15 - 1)
  | .int32 => .int (2 ^ 31 - 1)
  | .weakInt | .int64 | .index => .int (2 ^ 63 - 1)
  | .uint8 => .uint (2 ^ 8 - 1)
  | .uint16 => .uint (2 ^ 16 - 1)
  | .uint32 => .uint (2 ^ 32 - 1)
  | .uint64 => .uint (2 ^ 64 - 1)
  | .void => .int 0
  | _ => .invalid

/-! ## Casts -/

/-- A boolean as a constant of a type. -/
def castBool (v : Bool) : ScalarDType → Option ConstValue
  | .bool => some (.bool v)
  | .weakInt | .int8 | .int16 | .int32 | .int64 | .index | .void =>
    some (.int (if v then 1 else 0))
  | .uint8 | .uint16 | .uint32 | .uint64 => some (.uint (if v then 1 else 0))
  | _ => none

/-- A signed integer as a constant of a type, which truncates it. -/
def castInt (v : ℤ) : ScalarDType → Option ConstValue
  | .bool => some (.bool (v ≠ 0))
  | .int8 => some (.int (wrapSigned 8 v))
  | .int16 => some (.int (wrapSigned 16 v))
  | .int32 => some (.int (wrapSigned 32 v))
  | .weakInt | .int64 | .index => some (.int v)
  | .uint8 => some (.uint (wrapUnsigned 8 v))
  | .uint16 => some (.uint (wrapUnsigned 16 v))
  | .uint32 => some (.uint (wrapUnsigned 32 v))
  | .uint64 => some (.uint (wrapUnsigned 64 v))
  | .void => some (.int v)
  | _ => none

/-- An unsigned integer as a constant of a type, which truncates it. -/
def castUint (v : ℤ) : ScalarDType → Option ConstValue
  | .bool => some (.bool (v ≠ 0))
  | .int8 => some (.int (wrapSigned 8 v))
  | .int16 => some (.int (wrapSigned 16 v))
  | .int32 => some (.int (wrapSigned 32 v))
  | .weakInt | .int64 | .index => some (.int (wrapSigned 64 v))
  | .uint8 => some (.uint (wrapUnsigned 8 v))
  | .uint16 => some (.uint (wrapUnsigned 16 v))
  | .uint32 => some (.uint (wrapUnsigned 32 v))
  | .uint64 => some (.uint v)
  | .void => some (.int (wrapSigned 64 v))
  | _ => none

/-- `ConstValue::cast` to a scalar type. -/
def cast (c : ConstValue) (s : ScalarDType) : Option ConstValue :=
  match c with
  | .invalid => some .invalid
  | .bool v => castBool v s
  | .int v => castInt v s
  | .uint v => castUint v s

/-! ## Evaluation -/

/-- `i64::checked_div`. -/
def checkedDivI64 (x y : ℤ) : Option ℤ :=
  if y = 0 ∨ (x = -2 ^ 63 ∧ y = -1) then none else some (x.tdiv y)

/-- `i64::checked_rem`. -/
def checkedRemI64 (x y : ℤ) : Option ℤ :=
  if y = 0 ∨ (x = -2 ^ 63 ∧ y = -1) then none else some (x.tmod y)

/-- `eval_unary_op`. -/
def evalUnaryOp (op : UnaryOp) (v : ConstValue) : Option ConstValue :=
  match op, v with
  | .neg, .int x => some (.int (wrapSigned 64 (-x)))
  | .not, .bool b => some (.bool !b)
  | .not, .int i => some (.int (-i - 1))
  | .not, .uint u => some (.uint (2 ^ 64 - 1 - u))
  | _, _ => none

/-- A binary operation on two values of one kind, by its three readings.  `none` is an
    unsupported pair or an undefined result. -/
def evalPair (int uint : ℤ → ℤ → Option ℤ) (bool : Bool → Bool → Option Bool) :
    ConstValue → ConstValue → Option ConstValue
  | .int x, .int y => (int x y).map .int
  | .uint x, .uint y => (uint x y).map .uint
  | .bool x, .bool y => (bool x y).map .bool
  | _, _ => none

/-- No result on booleans. -/
def noBool (_ _ : Bool) : Option Bool := none

/-- The sum, wrapped to 64 bits. -/
def evalAdd : ConstValue → ConstValue → Option ConstValue :=
  evalPair (fun x y => some (wrapSigned 64 (x + y))) (fun x y => some (wrapUnsigned 64 (x + y)))
    noBool

/-- The difference, wrapped to 64 bits. -/
def evalSub : ConstValue → ConstValue → Option ConstValue :=
  evalPair (fun x y => some (wrapSigned 64 (x - y))) (fun x y => some (wrapUnsigned 64 (x - y)))
    noBool

/-- The product, wrapped to 64 bits. -/
def evalMul : ConstValue → ConstValue → Option ConstValue :=
  evalPair (fun x y => some (wrapSigned 64 (x * y))) (fun x y => some (wrapUnsigned 64 (x * y)))
    noBool

/-- The greater one. -/
def evalMax : ConstValue → ConstValue → Option ConstValue :=
  evalPair (fun x y => some (Max.max x y)) (fun x y => some (Max.max x y)) noBool

/-- The quotient, rounded toward zero. -/
def evalCdiv : ConstValue → ConstValue → Option ConstValue :=
  evalPair checkedDivI64 (fun x y => if y = 0 then none else some (x / y)) noBool

/-- The remainder of the division that rounds toward zero. -/
def evalCmod : ConstValue → ConstValue → Option ConstValue :=
  evalPair checkedRemI64 (fun x y => if y = 0 then none else some (x % y)) noBool

/-- The floor quotient from the truncated one. -/
def floorDivI64 (x y : ℤ) : Option ℤ := do
  let q ← checkedDivI64 x y
  let r ← checkedRemI64 x y
  some (if r ≠ 0 ∧ decide (x < 0) ≠ decide (y < 0) then q - 1 else q)

/-- The quotient, rounded down. -/
def evalFloorDiv : ConstValue → ConstValue → Option ConstValue :=
  evalPair floorDivI64 (fun x y => if y = 0 then none else some (x / y)) noBool

/-- The floor remainder from the truncated one. -/
def floorModI64 (x y : ℤ) : Option ℤ := do
  let r ← checkedRemI64 x y
  some (if r ≠ 0 ∧ decide (r < 0) ≠ decide (y < 0) then r + y else r)

/-- The remainder of the division that rounds down. -/
def evalFloorMod : ConstValue → ConstValue → Option ConstValue :=
  evalPair floorModI64 (fun x y => if y = 0 then none else some (x % y)) noBool

/-- A shift by less than 64. -/
def evalShl : ConstValue → ConstValue → Option ConstValue :=
  evalPair
    (fun x y => if 0 ≤ y ∧ y < 64 then some (wrapSigned 64 (x * 2 ^ y.toNat)) else none)
    (fun x y => if y < 64 then some (wrapUnsigned 64 (x * 2 ^ y.toNat)) else none) noBool

/-- A shift by less than 64, which keeps the sign. -/
def evalShr : ConstValue → ConstValue → Option ConstValue :=
  evalPair (fun x y => if 0 ≤ y ∧ y < 64 then some (x / 2 ^ y.toNat) else none)
    (fun x y => if y < 64 then some (x / 2 ^ y.toNat) else none) noBool

/-- Bitwise, or of truth values. -/
def evalAnd : ConstValue → ConstValue → Option ConstValue :=
  evalPair (fun x y => some (x.land y)) (fun x y => some (x.land y)) (fun x y => some (x && y))

/-- Bitwise, or of truth values. -/
def evalOr : ConstValue → ConstValue → Option ConstValue :=
  evalPair (fun x y => some (x.lor y)) (fun x y => some (x.lor y)) (fun x y => some (x || y))

/-- The comparisons: `cmp` on two integers of one kind, or on two booleans read as `0` and
    `1`. -/
def evalCompare (cmp : ℤ → ℤ → Bool) : ConstValue → ConstValue → Option ConstValue
  | .int x, .int y => some (.bool (cmp x y))
  | .uint x, .uint y => some (.bool (cmp x y))
  | .bool x, .bool y => some (.bool (cmp (if x then 1 else 0) (if y then 1 else 0)))
  | _, _ => none

/-- `eval_binary_op`. -/
def evalBinaryOp (op : BinaryOp) (a b : ConstValue) : Option ConstValue :=
  if a = .invalid ∨ b = .invalid then some .invalid
  else
    match op with
    | .add => evalAdd a b
    | .sub => evalSub a b
    | .mul => evalMul a b
    | .max => evalMax a b
    | .floorDiv => evalFloorDiv a b
    | .cdiv => evalCdiv a b
    | .floorMod => evalFloorMod a b
    | .cmod => evalCmod a b
    | .shl => evalShl a b
    | .shr => evalShr a b
    | .and => evalAnd a b
    | .or => evalOr a b
    | .lt => evalCompare (fun x y => x < y) a b
    | .le => evalCompare (fun x y => x ≤ y) a b
    | .eq => evalCompare (fun x y => x = y) a b
    | .ne => evalCompare (fun x y => x ≠ y) a b
    | .gt => evalCompare (fun x y => x > y) a b
    | .ge => evalCompare (fun x y => x ≥ y) a b

/-- `eval_where`. -/
def evalWhere : ConstValue → ConstValue → ConstValue → Option ConstValue
  | .bool true, t, _ => some t
  | .bool false, _, f => some f
  | _, _, _ => none

/-- `eval_unary_op_typed`: the result is committed to the type. -/
def evalUnaryOpTyped (op : UnaryOp) (v : ConstValue) (s : ScalarDType) : Option ConstValue :=
  (evalUnaryOp op v).bind (·.cast s)

/-- `eval_binary_op_typed`. -/
def evalBinaryOpTyped (op : BinaryOp) (a b : ConstValue) (s : ScalarDType) : Option ConstValue :=
  (evalBinaryOp op a b).bind (·.cast s)

/-- `eval_ternary_op_typed` for `WHERE`. -/
def evalWhereTyped (c t f : ConstValue) (s : ScalarDType) : Option ConstValue :=
  (evalWhere c t f).bind (·.cast s)

end ConstValue

end Svod.Ir
