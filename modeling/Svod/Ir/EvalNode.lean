/-
  Svod.Ir.EvalNode

  The value of a node from the values of its operands.
-/

import Svod.Ir.RangeEvalTyped

namespace Svod.Ir

open Svod.Lib

namespace UOp

variable {env : Env} {lane : List ℕ} {a b c : UOp} {d : DType} {t : IntType} {x y : ℤ}

theorem eval_binary_of (ha : a.eval env lane = some x) (hb : b.eval env lane = some y)
    (ht : intType d.base = some t) {op : BinaryOp} (hop : op.defined t y = true) :
    (binary op a b d).eval env lane = some (t.wrap (op.apply x y)) := by
  simp only [eval, ha, hb, ht, Option.bind_eq_bind, Option.bind_some]
  exact if_pos hop

/-- The selected branch decides. -/
theorem eval_where_of {w : ℤ} (hc : c.eval env lane = some w) (ht : intType d.base = some t)
    (hsel : (if w ≠ 0 then a.eval env lane else b.eval env lane) = some x) :
    (where_ c a b d).eval env lane = some (t.wrap x) := by
  simp only [eval, hc, ht, Option.bind_eq_bind, Option.bind_some]
  split at hsel
  · next hw => rw [if_pos hw, hsel, Option.bind_some]
  · next hw => rw [if_neg hw, hsel, Option.bind_some]

theorem eval_cast_of (ha : a.eval env lane = some x) (ht : intType d.base = some t) :
    (cast a d).eval env lane = some (castTo d.base t x) := by
  simp only [eval, ha, ht, Option.bind_eq_bind, Option.bind_some]

theorem eval_const_of {s : ConstValue} (hs : HasType d.base s x) :
    (const s d).eval env lane = some x := hs.integerValue

end UOp

end Svod.Ir
