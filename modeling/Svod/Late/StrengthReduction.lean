/-
  Svod.Late.StrengthReduction

  The late rewrites of integer arithmetic and comparisons (`pm_mod_to_and`,
  `pm_mul_to_shl`, `pm_neg_from_mul`, `pm_demorgan`, `pm_shl_add_to_mulacc`,
  `pm_div_to_shr`, `pm_max_decomposition` and `pm_comparison_negations` of
  `rangeify/patterns.rs`).

  All numbers of a match have one type; a node the patterns do not look into is a
  leaf.  A rule gives the outcomes of the orders it matches in.  `checks` says
  whether the host build checks overflow: where it does, `-` on `i64` stops.
  What range analysis says is the least value of a node is a parameter.
-/

import Svod.Symbolic.Expr

namespace Svod.Late.StrengthReduction

open Svod.Ir Svod.Lib

/-! ## Nodes -/

inductive AluOp where
  | add | sub | mul | and | max | shl | shr | floorMod | cdiv
deriving DecidableEq, Repr

mutual

inductive Term where
  | leaf (id : ℕ)
  | const (value : ConstValue)
  | neg (a : Term)
  | binary (op : AluOp) (a b : Term)
  | mulacc (a b c : Term)
  | where_ (cond : Cond) (a b : Term)
deriving DecidableEq

inductive Cond where
  | leaf (id : ℕ)
  | lt (a b : Term)
  | eq (a b : Term)
  | not (c : Cond)
  | and (c d : Cond)
  | or (c d : Cond)
deriving DecidableEq

end

inductive Node where
  | value (e : Term)
  | truth (c : Cond)
deriving DecidableEq

/-- The values of the leaves. -/
structure Env where
  num : ℕ → ℤ
  bool : ℕ → Bool

/-- The result before it is reduced to the type. -/
def AluOp.apply : AluOp → ℤ → ℤ → ℤ
  | .add, x, y => x + y
  | .sub, x, y => x - y
  | .mul, x, y => x * y
  | .and, x, y => x.land y
  | .max, x, y => Max.max x y
  | .shl, x, y => x * 2 ^ y.toNat
  | .shr, x, y => x / 2 ^ y.toNat
  | .floorMod, x, y => x.fmod y
  | .cdiv, x, y => x.tdiv y

section

variable (t : IntType) (env : Env)

mutual

/-- The value at a type: every result is reduced to it. -/
def Term.eval : Term → ℤ
  | .leaf i => env.num i
  | .const c => c.integerValue.getD 0
  | .neg a => t.wrap (-a.eval)
  | .binary op a b => t.wrap (op.apply a.eval b.eval)
  | .mulacc a b c => t.wrap (a.eval * b.eval + c.eval)
  | .where_ cond a b => if cond.eval then a.eval else b.eval

def Cond.eval : Cond → Bool
  | .leaf i => env.bool i
  | .lt a b => decide (a.eval < b.eval)
  | .eq a b => decide (a.eval = b.eval)
  | .not c => !c.eval
  | .and c d => c.eval && d.eval
  | .or c d => c.eval || d.eval

end

def Node.eval : Node → ℤ ⊕ Bool
  | .value e => .inl (e.eval t env)
  | .truth c => .inr (c.eval t env)

/-- A shift by `b` of a type shifts by less than its width. -/
def AluOp.ShiftsBelow (op : AluOp) (b : ℤ) : Prop :=
  op = .shl ∨ op = .shr → 0 ≤ b ∧ b < t.bits

mutual

/-- Every shift amount is below the width. -/
def Term.ShiftsBelow : Term → Prop
  | .leaf _ => True
  | .const _ => True
  | .neg a => a.ShiftsBelow
  | .binary op a b => a.ShiftsBelow ∧ b.ShiftsBelow ∧ op.ShiftsBelow t (b.eval t env)
  | .mulacc a b c => a.ShiftsBelow ∧ b.ShiftsBelow ∧ c.ShiftsBelow
  | .where_ cond a b => cond.ShiftsBelow ∧ a.ShiftsBelow ∧ b.ShiftsBelow

def Cond.ShiftsBelow : Cond → Prop
  | .leaf _ => True
  | .lt a b => a.ShiftsBelow ∧ b.ShiftsBelow
  | .eq a b => a.ShiftsBelow ∧ b.ShiftsBelow
  | .not c => c.ShiftsBelow
  | .and c d => c.ShiftsBelow ∧ d.ShiftsBelow
  | .or c d => c.ShiftsBelow ∧ d.ShiftsBelow

end

def Node.ShiftsBelow : Node → Prop
  | .value e => e.ShiftsBelow t env
  | .truth c => c.ShiftsBelow t env

end

mutual

/-- The constants are of type `s`. -/
def Term.Typed (s : ScalarDType) : Term → Prop
  | .leaf _ => True
  | .const c => ∃ v, HasType s c v
  | .neg a => a.Typed s
  | .binary _ a b => a.Typed s ∧ b.Typed s
  | .mulacc a b c => a.Typed s ∧ b.Typed s ∧ c.Typed s
  | .where_ cond a b => cond.Typed s ∧ a.Typed s ∧ b.Typed s

def Cond.Typed (s : ScalarDType) : Cond → Prop
  | .leaf _ => True
  | .lt a b => a.Typed s ∧ b.Typed s
  | .eq a b => a.Typed s ∧ b.Typed s
  | .not c => c.Typed s
  | .and c d => c.Typed s ∧ d.Typed s
  | .or c d => c.Typed s ∧ d.Typed s

end

def Node.Typed (s : ScalarDType) : Node → Prop
  | .value e => e.Typed s
  | .truth c => c.Typed s

/-! ## Constants of the replacements -/

/-- How the computation of a constant stops. -/
inductive HostError where
  /-- An `expect` on a result that is not there. -/
  | expect
  /-- A host operation that overflows. -/
  | overflow
deriving DecidableEq, Repr

abbrev Outcome := Except HostError Node

/-- `a - b` of `i64`. -/
def subI64 (checks : Bool) (a b : ℤ) : Except HostError ℤ :=
  if -2 ^ 63 ≤ a - b ∧ a - b < 2 ^ 63 then .ok (a - b)
  else if checks then .error .overflow
  else .ok (wrapSigned 64 (a - b))

/-- `checked_add`, `checked_sub` and `checked_neg` of `i64`. -/
def checkedI64 (v : ℤ) : Option ℤ := if -2 ^ 63 ≤ v ∧ v < 2 ^ 63 then some v else none

/-- `UOp::const_`. -/
def const_ (s : ScalarDType) (c : ConstValue) : Except HostError Term :=
  match c.cast s with
  | some c => .ok (.const c)
  | none => .error .expect

/-- The exponent of a positive constant that is a power of two. -/
def exponent (c : ConstValue) : Option ℕ :=
  match c with
  | .int v => if 0 < v ∧ v = 2 ^ v.toNat.log2 then some v.toNat.log2 else none
  | .uint v => if 0 < v ∧ v = 2 ^ v.toNat.log2 then some v.toNat.log2 else none
  | _ => none

/-- A constant as an `i64`, by `try_from`. -/
def hostInt : ConstValue → Option ℤ
  | .int v => some v
  | .uint v => if v < 2 ^ 63 then some v else none
  | _ => none

/-- A power of two `as i64`. -/
def hostPower (k : ℕ) : ℤ := wrapSigned 64 (2 ^ k)

/-! ## Arithmetic -/

section

variable (checks : Bool) (s : ScalarDType) (vmin : Term → ConstValue)

/-- `x % 2^n → x & (2^n - 1)`. -/
def modToAnd : Node → List Outcome
  | .value (.binary .floorMod x (.const c)) =>
    match exponent c with
    | some k => [do
        let mask ← const_ s (.int (← subI64 checks (hostPower k) 1))
        .ok (.value (.binary .and x mask))]
    | none => []
  | _ => []

def mulToShlOf (x b : Term) : List Outcome :=
  match b with
  | .const c =>
    match exponent c with
    | some 0 => [.ok (.value x)]
    | some k => [do
        let shiftAmount ← const_ s (.int k)
        .ok (.value (.binary .shl x shiftAmount))]
    | none => []
  | _ => []

/-- `x * 2^n → x << n`, in either order. -/
def mulToShl : Node → List Outcome
  | .value (.binary .mul a b) => mulToShlOf s a b ++ mulToShlOf s b a
  | _ => []

def negOf (x b : Term) : List Outcome :=
  match b with
  | .const c => if c = .int (-1) then [.ok (.value (.neg x))] else []
  | _ => []

def subOf (x b : Term) : List Outcome :=
  match b with
  | .neg y => [.ok (.value (.binary .sub x y))]
  | _ => []

/-- `x * -1 → NEG(x)` and `x + NEG(y) → SUB(x, y)`, in either order. -/
def negFromMul : Node → List Outcome
  | .value (.binary .mul a b) => negOf a b ++ negOf b a
  | .value (.binary .add a b) => subOf a b ++ subOf b a
  | _ => []

def demorganOf (c d : Cond) : List Outcome :=
  match c, d with
  | .not x, .not y => [.ok (.truth (.not (.or x y)))]
  | _, _ => []

/-- `!x & !y → !(x | y)` of booleans. -/
def demorgan : Node → List Outcome
  | .truth (.and c d) => demorganOf c d ++ demorganOf d c
  | _ => []

def mulaccOf (a c : Term) : List Outcome :=
  match a with
  | .binary .shl x (.const (.int v)) =>
    if 0 ≤ v ∧ v < 64 then [do
      let multiplier ← const_ s (.int (hostPower v.toNat))
      .ok (.value (.mulacc x multiplier c))]
    else []
  | _ => []

/-- `(x << n) + c → MULACC(x, 2^n, c)`, in either order. -/
def shlAddToMulacc : Node → List Outcome
  | .value (.binary .add a b) => mulaccOf s a b ++ mulaccOf s b a
  | _ => []

/-- What the shift needs no correction for. -/
def isNonNegative (x : Term) : Bool :=
  match vmin x with
  | .int v => decide (0 ≤ v)
  | .uint _ => true
  | _ => false

/-- `x / 2^n → x >> n`, of a dividend that may be negative after adding `2^n - 1` to it. -/
def divToShr : Node → List Outcome
  | .value (.binary .cdiv x (.const c)) =>
    match exponent c with
    | some 0 => []
    | some k =>
      if isNonNegative vmin x || s.isUnsigned then [do
        let shift ← const_ s (.int k)
        .ok (.value (.binary .shr x shift))]
      else [do
        let shift ← const_ s (.int k)
        let zero ← const_ s (.int 0)
        let bias ← const_ s (.int (← subI64 checks (hostPower k) 1))
        let adjusted := Term.binary .add x (.where_ (.lt x zero) bias zero)
        .ok (.value (.binary .shr adjusted shift))]
    | none => []
  | _ => []

/-- `max(a, b) → (a < b).where(b, a)`. -/
def maxDecomposition : Node → List Outcome
  | .value (.binary .max a b) => [.ok (.value (.where_ (.lt a b) b a))]
  | _ => []

/-! ## Comparisons -/

/-- `!(x < c) → (c-1) < x`. -/
def notLtConst : Node → List Outcome
  | .truth (.not (.lt x (.const c))) =>
    match (hostInt c).bind fun v => checkedI64 (v - 1) with
    | some cMinus1 => [do .ok (.truth (.lt (← const_ s (.int cMinus1)) x))]
    | none => []
  | _ => []

/-- `!(c < x) → x < (c+1)`. -/
def notConstLt : Node → List Outcome
  | .truth (.not (.lt (.const c) x)) =>
    match (hostInt c).bind fun v => checkedI64 (v + 1) with
    | some cPlus1 => [do .ok (.truth (.lt x (← const_ s (.int cPlus1))))]
    | none => []
  | _ => []

def oneValueOf (a b : Cond) : List Outcome :=
  match a, b with
  | .lt (.const c1) x, .lt x2 (.const c2) =>
    if x = x2 then
      match hostInt c1, hostInt c2 with
      | some v1, some v2 =>
        if checkedI64 (v1 + 2) = some v2 then
          [do .ok (.truth (.eq x (← const_ s (.int (v1 + 1)))))]
        else []
      | _, _ => []
    else []
  | _, _ => []

/-- `(c1 < x) & (x < c1+2) → x == c1+1`, in either order. -/
def oneValue : Node → List Outcome
  | .truth (.and a b) => oneValueOf s a b ++ oneValueOf s b a
  | _ => []

/-- `x*-1 < c → -c < x`. -/
def negLtConst : Node → List Outcome
  | .truth (.lt (.binary .mul x (.const n)) (.const c)) =>
    if n = .int (-1) then
      match (hostInt c).bind fun v => checkedI64 (-v) with
      | some negC => [do .ok (.truth (.lt (← const_ s (.int negC)) x))]
      | none => []
    else []
  | _ => []

/-- `x*-1 < y*c → y*(-c) < x`. -/
def negLtScaled : Node → List Outcome
  | .truth (.lt (.binary .mul x (.const n)) (.binary .mul y (.const c))) =>
    if n = .int (-1) then
      match (hostInt c).bind fun v => checkedI64 (-v) with
      | some negC => [do .ok (.truth (.lt (.binary .mul y (← const_ s (.int negC))) x))]
      | none => []
    else []
  | _ => []

/-! ## Rules -/

inductive Rule where
  | modToAnd | mulToShl | negFromMul | demorgan | shlAddToMulacc | divToShr | maxDecomposition
  | notLtConst | notConstLt | oneValue | negLtConst | negLtScaled
deriving DecidableEq, Repr

def Rule.outcomes : Rule → Node → List Outcome
  | .modToAnd => StrengthReduction.modToAnd checks s
  | .mulToShl => StrengthReduction.mulToShl s
  | .negFromMul => StrengthReduction.negFromMul
  | .demorgan => StrengthReduction.demorgan
  | .shlAddToMulacc => StrengthReduction.shlAddToMulacc s
  | .divToShr => StrengthReduction.divToShr checks s vmin
  | .maxDecomposition => StrengthReduction.maxDecomposition
  | .notLtConst => StrengthReduction.notLtConst s
  | .notConstLt => StrengthReduction.notConstLt s
  | .oneValue => StrengthReduction.oneValue s
  | .negLtConst => StrengthReduction.negLtConst s
  | .negLtScaled => StrengthReduction.negLtScaled s

end

/-! ## What a rule promises -/

/-- Each leaf has a value of the type. -/
def Env.InType (t : IntType) (env : Env) : Prop := ∀ i, t.Contains (env.num i)

/-- The replacement is there; in every assignment it has the value of the node, and it shifts by
    less than the width where the node does. -/
def Keeps (s : ScalarDType) (t : IntType) (e : Node) (out : Outcome) : Prop :=
  ∃ e', out = .ok e' ∧ e'.Typed s ∧ ∀ env : Env, env.InType t →
    e'.eval t env = e.eval t env ∧ (e.ShiftsBelow t env → e'.ShiftsBelow t env)

/-- Where a rule keeps the value of a node. -/
def Rule.ExactOn (checks : Bool) (t : IntType) (vmin : Term → ConstValue) :
    Rule → Node → Prop
  | .modToAnd, .value (.binary .floorMod _ (.const c)) =>
    -- `n - 1` of the power of two that is the least `i64`
    ¬ (checks = true ∧ c = .uint (2 ^ 63))
  | .divToShr, .value (.binary .cdiv x (.const c)) =>
    isNonNegative vmin x = true → ∀ env : Env, env.InType t → x.eval t env < 0 →
      c.integerValue.getD 0 ∣ x.eval t env
  | .notLtConst, .truth (.not (.lt _ (.const c))) => c.integerValue ≠ some t.min
  | .notConstLt, .truth (.not (.lt (.const c) _)) => c.integerValue ≠ some t.max
  | .negLtConst, .truth (.lt (.binary .mul x _) b) =>
    ∀ env : Env, env.InType t → (x.eval t env = t.min ↔ b.eval t env = t.min)
  | .negLtScaled, .truth (.lt (.binary .mul x _) b) =>
    ∀ env : Env, env.InType t → (x.eval t env = t.min ↔ b.eval t env = t.min)
  | _, _ => True

end Svod.Late.StrengthReduction
