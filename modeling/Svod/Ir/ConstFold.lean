/-
  Svod.Ir.ConstFold

  Constant folding of binary operations (`ir/src/uop/eval.rs`, and the folding
  rule of `schedule/src/symbolic/patterns.rs`), with the two operations that the
  range analysis does not know: `POW`, which goes through `f64`, and `XOR`.
-/

import Svod.Ir.ConstValue
import Svod.Lib.Float64

namespace Svod.Ir

open Svod.Lib Svod.Float64

/-- The foldable operations on integers. -/
inductive FoldOp where
  | ranged (op : BinaryOp)
  | pow
  | xor
  deriving DecidableEq

namespace ConstValue

/-- `(x as f64).powi(y as i32)`, cast back to the type with the ends `lo` and `hi`. -/
def powThroughF64 (lo hi x y : ℤ) : ℤ :=
  toInt lo hi (powi (ofInt x) (wrapSigned 32 y))

def evalPow : ConstValue → ConstValue → Option ConstValue :=
  evalPair
    (fun x y => if 0 ≤ y then some (powThroughF64 (-2 ^ 63) (2 ^ 63 - 1) x y) else none)
    (fun x y => some (powThroughF64 0 (2 ^ 64 - 1) x y)) noBool

def evalXor : ConstValue → ConstValue → Option ConstValue :=
  evalPair (fun x y => some (x.xor y)) (fun x y => some (x.xor y)) (fun x y => some (x ^^ y))

/-- `eval_binary_op`, of every foldable operation. -/
def evalFoldOp (op : FoldOp) (a b : ConstValue) : Option ConstValue :=
  match op with
  | .ranged op => evalBinaryOp op a b
  | .pow => if a = .invalid ∨ b = .invalid then some .invalid else evalPow a b
  | .xor => if a = .invalid ∨ b = .invalid then some .invalid else evalXor a b

/-- `eval_binary_op_typed`, of every foldable operation. -/
def evalFoldOpTyped (op : FoldOp) (a b : ConstValue) (s : ScalarDType) : Option ConstValue :=
  (evalFoldOp op a b).bind (·.cast s)

end ConstValue

end Svod.Ir
