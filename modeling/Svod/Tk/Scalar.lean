/-
  Svod.Tk.Scalar

  Scalar expressions of the tile IR (`tk/src/ir.rs`), their values
  (`tk/src/interp.rs`) and the intervals `Program::bounds` gives them.

  Expressions live in an arena and are shared by index; a recursion through the
  arena takes fuel, for the arena may name an expression before it is defined.
  Arithmetic is that of a release build, which wraps around where nothing
  checks; a debug build aborts there and returns nothing.
-/

import Svod.Lib.MachineInt

namespace Svod.Tk

open Svod.Lib

/-! ## Machine integers -/

/-- The values of an `i64`. -/
abbrev I64 := {v : ℤ // -2 ^ 63 ≤ v ∧ v < 2 ^ 63}

namespace I64

instance : DecidableLT I64 := fun a b => inferInstanceAs (Decidable (a.val < b.val))

instance : DecidableLE I64 := fun a b => inferInstanceAs (Decidable (a.val ≤ b.val))

def wrap (v : ℤ) : I64 := ⟨wrapSigned 64 v, wrapSigned_bounds (by decide) v⟩

def checked (v : ℤ) : Option I64 := if h : -2 ^ 63 ≤ v ∧ v < 2 ^ 63 then some ⟨v, h⟩ else none

instance (n : ℕ) : OfNat I64 n := ⟨wrap n⟩

def checkedMul (a b : I64) : Option I64 := checked (a.val * b.val)

def checkedDiv (a b : I64) : Option I64 := if b.val = 0 then none else checked (a.val.tdiv b.val)

/-- The remainder overflows where the quotient does. -/
def checkedRem (a b : I64) : Option I64 :=
  if b.val = 0 ∨ (a.val = -2 ^ 63 ∧ b.val = -1) then none else checked (a.val.tmod b.val)

def ofBool (b : Bool) : I64 := if b then 1 else 0

end I64

/-! ## Programs -/

inductive Special where
  | block (axis : ℕ)
  | warp
  deriving DecidableEq

inductive BinOp where
  | add | sub | mul | div | rem | min | max | lt | le | eq | and | or
  deriving DecidableEq

inductive Scalar where
  | const (v : I64)
  | var (name : String)
  | special (s : Special)
  | induction
  | bin (op : BinOp) (a b : ℕ)
  | load (param : ℕ) (index : ℕ)
  | row
  | any (tile : ℕ)
  deriving DecidableEq

/-- A symbolic variable of the launch with its declared interval. -/
structure Var where
  name : String
  min : I64
  max : I64

/-- The part of a program its scalars are about. -/
structure Program where
  scalars : List Scalar
  vars : List Var
  grid : List ℕ
  warps : ℕ
  warps_lt : warps < 2 ^ 32

/-! ## Values -/

/-- What an evaluation reads: `none` is what is not bound there. -/
structure Env where
  vars : String → Option I64
  block : ℕ → I64
  warp : I64
  induction : ℕ → Option I64
  row : Option I64
  load : ℕ → I64 → Option I64
  any : ℕ → Option Bool

namespace BinOp

def apply (op : BinOp) (a b : I64) : Option I64 :=
  match op with
  | .add => some (I64.wrap (a.val + b.val))
  | .sub => some (I64.wrap (a.val - b.val))
  | .mul => some (I64.wrap (a.val * b.val))
  | .div => I64.checkedDiv a b
  | .rem => I64.checkedRem a b
  | .min => some (Min.min a b)
  | .max => some (Max.max a b)
  | .lt => some (I64.ofBool (a < b))
  | .le => some (I64.ofBool (a ≤ b))
  | .eq => some (I64.ofBool (a = b))
  | .and => some (I64.ofBool (a.val ≠ 0 ∧ b.val ≠ 0))
  | .or => some (I64.ofBool (a.val ≠ 0 ∨ b.val ≠ 0))

end BinOp

/-- `Frame::scalar_at`. -/
def Program.scalarAt (prog : Program) (env : Env) : ℕ → ℕ → Option I64
  | 0, _ => none
  | fuel + 1, id => do
    match ← prog.scalars[id]? with
    | .row => env.row
    | .const v => some v
    | .var name => env.vars name
    | .special (.block axis) => some (env.block axis)
    | .special .warp => some env.warp
    | .induction => env.induction id
    | .bin op a b =>
      let a ← prog.scalarAt env fuel a
      let b ← prog.scalarAt env fuel b
      op.apply a b
    | .load param index =>
      let index ← prog.scalarAt env fuel index
      env.load param index
    | .any tile => (env.any tile).map I64.ofBool

/-! ## Intervals -/

/-- The least and the greatest of a function's values at the corners of a box. -/
def corners (f : I64 → I64 → Option I64) (a b : I64 × I64) : Option (I64 × I64) := do
  let v₀ ← f a.1 b.1
  let v₁ ← f a.1 b.2
  let v₂ ← f a.2 b.1
  let v₃ ← f a.2 b.2
  some (min (min v₀ v₁) (min v₂ v₃), max (max v₀ v₁) (max v₂ v₃))

/-- The constant `c` of `x − [c < x]`, with `x` the scalar `a` and `b` the comparison. -/
def Program.lessOnePast (prog : Program) (a b : ℕ) : Option I64 :=
  match prog.scalars[b]? with
  | some (.bin .lt c x) =>
    if x = a then
      match prog.scalars[c]? with
      | some (.const c) => some c
      | _ => none
    else none
  | _ => none

/-- The interval of an operation from those of its operands; `past` is the constant of the
    difference `x − [c < x]`, where it is one. -/
def binBounds (op : BinOp) (past : Option I64) (a b : I64 × I64) : Option (I64 × I64) :=
  match op with
  | .add => do
    let lo ← I64.checked (a.1.val + b.1.val)
    let hi ← I64.checked (a.2.val + b.2.val)
    some (lo, hi)
  | .sub =>
    match past with
    | some c =>
      some (if c < a.1 then I64.wrap (a.1.val - 1) else a.1,
        if c < a.2 then I64.wrap (a.2.val - 1) else a.2)
    | none => do
      let lo ← I64.checked (a.1.val - b.2.val)
      let hi ← I64.checked (a.2.val - b.1.val)
      some (lo, hi)
  | .mul => corners I64.checkedMul a b
  | .div => if 0 < b.1 ∨ b.2 < 0 then corners I64.checkedDiv a b else none
  | .rem =>
    if 0 < b.1 ∨ b.2 < 0 then
      -- the magnitude as an `i64`, less one
      let most := I64.wrap ((I64.wrap (max b.1.val.natAbs b.2.val.natAbs)).val - 1)
      some (if a.1 < 0 then max a.1 (I64.wrap (-most.val)) else 0,
        if 0 < a.2 then min a.2 most else 0)
    else none
  | .min => some (min a.1 b.1, min a.2 b.2)
  | .max => some (max a.1 b.1, max a.2 b.2)
  | .lt | .le | .eq => some (0, 1)
  | .and | .or => if 0 ≤ a.1 ∧ 0 ≤ b.1 ∧ a.2 ≤ 1 ∧ b.2 ≤ 1 then some (0, 1) else none

/-- `Program::bounds`. -/
def Program.bounds (prog : Program) (induction : ℕ → Option (I64 × I64)) :
    ℕ → ℕ → Option (I64 × I64)
  | 0, _ => none
  | fuel + 1, id => do
    match ← prog.scalars[id]? with
    | .const v => some (v, v)
    | .var name => (prog.vars.find? fun v => v.name = name).map fun v => (v.min, v.max)
    | .special (.block axis) =>
      let extent ← prog.grid[axis]?
      let range ← prog.bounds induction fuel extent
      some (0, I64.wrap (range.2.val - 1))
    | .special .warp => some (0, I64.wrap (prog.warps - 1))
    | .any _ => some (0, 1)
    | .induction => induction id
    | .bin op a b =>
      let ra ← prog.bounds induction fuel a
      let rb ← prog.bounds induction fuel b
      binBounds op (prog.lessOnePast a b) ra rb
    | .load .. | .row => none

end Svod.Tk
