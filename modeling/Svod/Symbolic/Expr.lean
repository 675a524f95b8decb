/-
  Svod.Symbolic.Expr

  Scalar integer expressions as the symbolic rewrites see them.

  A constant is committed to its type, as `try_const_` does it.  A node that is
  no constant and no arithmetic is a leaf: the rewrites know its type, its sound
  range and, for a PARAM, the number its value is declared to be a multiple of.
  The sound range of a node is the one of `range_eval.rs`.
-/

import Svod.Ir.RangeEvalTyped

namespace Svod.Symbolic

open Svod.Ir Svod.Lib

/-! ## Nodes -/

/-- Whether a constant is of a type: what casting to the type gives. -/
def isCommitted (dtype : ScalarDType) (value : ConstValue) : Bool :=
  match intType dtype, value.integerValue with
  | some t, some v => t.Contains v && value == constOf t v
  | _, _ => value == .invalid

structure Const where
  dtype : ScalarDType
  value : ConstValue
  committed : isCommitted dtype value = true
deriving DecidableEq

/-- Whether a range lies within its type. -/
def rangeFits (dtype : ScalarDType) (range : Option (ℤ × ℤ)) : Bool :=
  match range, intType dtype with
  | some (lo, hi), some t => t.Contains lo && t.Contains hi && lo ≤ hi
  | some _, none => false
  | none, _ => true

structure Leaf where
  id : ℕ
  dtype : ScalarDType
  /-- The sound range of the node, when it has one. -/
  range : Option (ℤ × ℤ)
  fits : rangeFits dtype range = true
  multipleOf : Option ℕ
deriving DecidableEq

inductive ArithOp where
  | add | sub | mul | floorDiv | floorMod
deriving DecidableEq, Repr

def ArithOp.toBinaryOp : ArithOp → BinaryOp
  | .add => .add
  | .sub => .sub
  | .mul => .mul
  | .floorDiv => .floorDiv
  | .floorMod => .floorMod

inductive Expr where
  | const (c : Const)
  | leaf (l : Leaf)
  | neg (src : Expr)
  | binary (op : ArithOp) (a b : Expr) (dtype : ScalarDType)
deriving DecidableEq

namespace Expr

def dtype : Expr → ScalarDType
  | const c => c.dtype
  | leaf l => l.dtype
  | neg src => src.dtype
  | binary _ _ _ d => d

/-- Every node is of type `s`. -/
def Typed (s : ScalarDType) : Expr → Prop
  | const c => c.dtype = s
  | leaf l => l.dtype = s
  | neg src => src.Typed s
  | binary _ a b d => a.Typed s ∧ b.Typed s ∧ d = s

theorem Typed.dtype_eq {s : ScalarDType} {e : Expr} (h : e.Typed s) : e.dtype = s := by
  induction e with
  | const c => exact h
  | leaf l => exact h
  | neg src ih => exact ih h
  | binary op a b d _ _ => exact h.2.2

/-! ## Ranges -/

/-- `SoundVminVmaxProperty`. -/
def range : Expr → Option RangeEval.Bounds
  | const c => if RangeEval.orderedValue c.value then some (c.value, c.value) else none
  | leaf l => do
    let (lo, hi) ← l.range
    let t ← intType l.dtype
    some (constOf t lo, constOf t hi)
  | neg src => do
    let (mn, mx) ← src.range
    some (RangeEval.computeUnaryRange .neg mn mx (.scalar src.dtype))
  | binary op a b d => do
    let x ← a.range
    let y ← b.range
    RangeEval.soundBinaryRange op.toBinaryOp (a == b) x y (.scalar d)

/-- `int_range`: the range, when its ends are signed. -/
def intRange (e : Expr) : Option (ℤ × ℤ) :=
  match e.range with
  | some (.int lo, .int hi) => some (lo, hi)
  | _ => none

/-- `const_int`, by `try_int`. -/
def constInt : Expr → Option ℤ
  | const c =>
    match c.value with
    | .int v => some v
    | .uint v => some (wrapSigned 64 v)
    | _ => none
  | _ => none

/-! ## Construction -/

/-- The constant a 64-bit number is committed to at a type. -/
def committed (dtype : ScalarDType) (v : ℤ) : ConstValue :=
  match intType dtype with
  | some t => constOf t (castTo dtype t v)
  | none => .invalid

theorem committed_isCommitted (dtype : ScalarDType) (v : ℤ) :
    isCommitted dtype (committed dtype v) = true := by
  unfold committed isCommitted
  cases ht : intType dtype with
  | none => rfl
  | some t =>
    have hc : t.Contains (castTo dtype t v) := castTo_contains ht v
    have hty : HasType dtype (constOf t (castTo dtype t v)) (castTo dtype t v) := ⟨t, ht, hc, rfl⟩
    dsimp only
    rw [hty.integerValue]
    simp [hc]

/-- `const_like`, of a scalar. -/
def constLike (e : Expr) (v : ℤ) : Expr :=
  const ⟨e.dtype, committed e.dtype v, committed_isCommitted e.dtype v⟩

/-- `const_`, of an integer. -/
def constOfType (dtype : ScalarDType) (v : ℤ) : Expr :=
  const ⟨dtype, committed dtype v, committed_isCommitted dtype v⟩

section

-- what the constructors build from operands of different types, by promotion and casts
variable (mixed : ArithOp → Expr → Expr → Option Expr)

def tryBinary (op : ArithOp) (a b : Expr) : Option Expr :=
  if a.dtype = b.dtype then some (binary op a b a.dtype) else mixed op a b

def tryAdd (a b : Expr) : Option Expr := tryBinary mixed .add a b

def tryMul (a b : Expr) : Option Expr := tryBinary mixed .mul a b

/-- `check_division_by_zero`. -/
def isZeroConst : Expr → Bool
  | const c => c.value == .int 0 || c.value == .uint 0
  | _ => false

def tryDiv (a b : Expr) : Option Expr :=
  if isZeroConst b then none else tryBinary mixed .floorDiv a b

def tryMod (a b : Expr) : Option Expr :=
  if isZeroConst b then none else tryBinary mixed .floorMod a b

/-- `try_sub`: the addition of `b * -1`. -/
def trySub (a b : Expr) : Option Expr :=
  if a.dtype = b.dtype then do
    let negated ← tryMul mixed b (b.constLike (-1))
    tryAdd mixed a negated
  else mixed .sub a b

end

/-! ## Values -/

/-- Values of the leaves, within their types and their sound ranges. -/
structure Assignment where
  val : Leaf → ℤ
  typed : ∀ l t, intType l.dtype = some t → t.Contains (val l)
  inRange : ∀ l lo hi, l.range = some (lo, hi) → lo ≤ val l ∧ val l ≤ hi

/-- Every leaf at the lower end of its range. -/
def Assignment.least : Assignment where
  val l := match l.range with
    | some (lo, _) => lo
    | none => 0
  typed l t ht := by
    have hfits := l.fits
    unfold rangeFits at hfits
    rw [ht] at hfits
    cases hr : l.range with
    | none => exact t.contains_zero
    | some r =>
      rw [hr] at hfits
      simp only [Bool.and_eq_true, decide_eq_true_eq] at hfits
      exact hfits.1.1
  inRange l lo hi hr := by
    have hfits := l.fits
    unfold rangeFits at hfits
    rw [hr] at hfits
    cases ht : intType l.dtype with
    | none =>
      rw [ht] at hfits
      cases hfits
    | some t =>
      rw [ht] at hfits
      simp only [Bool.and_eq_true, decide_eq_true_eq] at hfits
      rw [hr]
      exact ⟨le_refl _, hfits.2⟩

/-- The value in exact arithmetic. -/
def value (env : Assignment) : Expr → ℤ
  | const c => c.value.integerValue.getD 0
  | leaf l => env.val l
  | neg src => -src.value env
  | binary op a b _ => op.toBinaryOp.apply (a.value env) (b.value env)

/-- The value the machine computes: every result is reduced to its type. -/
def machineValue (env : Assignment) : Expr → ℤ
  | const c => c.value.integerValue.getD 0
  | leaf l => env.val l
  | neg src =>
    match intType src.dtype with
    | some t => t.wrap (-src.machineValue env)
    | none => -src.machineValue env
  | binary op a b d =>
    match intType d with
    | some t => t.wrap (op.toBinaryOp.apply (a.machineValue env) (b.machineValue env))
    | none => op.toBinaryOp.apply (a.machineValue env) (b.machineValue env)

@[simp] theorem value_add (env : Assignment) (a b : Expr) (d : ScalarDType) :
    (binary .add a b d).value env = a.value env + b.value env := rfl

@[simp] theorem value_sub (env : Assignment) (a b : Expr) (d : ScalarDType) :
    (binary .sub a b d).value env = a.value env - b.value env := rfl

@[simp] theorem value_mul (env : Assignment) (a b : Expr) (d : ScalarDType) :
    (binary .mul a b d).value env = a.value env * b.value env := rfl

@[simp] theorem value_floorDiv (env : Assignment) (a b : Expr) (d : ScalarDType) :
    (binary .floorDiv a b d).value env = (a.value env).fdiv (b.value env) := rfl

@[simp] theorem value_floorMod (env : Assignment) (a b : Expr) (d : ScalarDType) :
    (binary .floorMod a b d).value env = (a.value env).fmod (b.value env) := rfl

end Expr

end Svod.Symbolic
