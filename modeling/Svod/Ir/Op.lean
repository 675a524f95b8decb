/-
  Svod.Ir.Op

  The axes of ranges (`ir/src/types.rs`).
-/

import Mathlib.Data.Nat.Notation

namespace Svod.Ir.Graph

inductive AxisType where
  | device | global | warp | local_ | weak | loop | groupReduce | reduce | upcast | unroll
  | thread | placeholder
deriving DecidableEq, Repr

/-- An axis, by the key its equality and hash use: the two spellings of a one-part path agree. -/
structure AxisId where
  isRenumbered : Bool
  path : List ℕ
deriving DecidableEq, Repr

end Svod.Ir.Graph
