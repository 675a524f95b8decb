/-
  Svod.Symbolic.ComparisonSound

  When a rewritten comparison has the truth of the comparison it replaces.

  A constant, or a sign, moves across a comparison of machine integers exactly
  when both sides wrap around or neither does.  The other rules are right, the
  weak ones where the index arithmetic they take apart does not leave 64 bits.
-/

import Svod.Symbolic.Comparison
import Svod.Symbolic.DivModRulesSound

namespace Svod.Symbolic

open Svod.Ir Svod.Lib Svod.Symbolic.Expr

variable {mixed : ArithOp → Expr → Expr → Option Expr} {mixedLt : Expr → Expr → Option Folded}
  {leafRange : Leaf → RangeEval.Bounds} {s : ScalarDType} {t : IntType} {ρ : Assignment}
variable {e x : Expr} {r : Folded}

/-! ## The machine value of an operand -/

namespace Comparison

variable (c : Comparison)

theorem ne_bool : c.dtype ≠ .bool := (integerDtypeBounds_isSome c.integral).1

end Comparison

/-- A number is one of the type. -/
def fits (s : ScalarDType) (v : ℤ) : Bool := (intType s).any fun t => t.Contains v

/-- No operation of the expression leaves its type. -/
def NoWrap (ρ : Assignment) : Expr → Prop
  | .const _ | .leaf _ => True
  | .neg src => NoWrap ρ src ∧ fits src.dtype (-src.value ρ)
  | .binary op a b d =>
    NoWrap ρ a ∧ NoWrap ρ b ∧ fits d (op.toBinaryOp.apply (a.value ρ) (b.value ρ))

theorem NoWrap.machineValue {e : Expr} (h : NoWrap ρ e) : e.machineValue ρ = e.value ρ := by
  induction e with
  | const c => rfl
  | leaf l => rfl
  | neg src ih =>
    unfold Expr.machineValue Expr.value
    rw [ih h.1]
    have hfit := h.2
    unfold fits at hfit
    cases ht : intType src.dtype with
    | none => rfl
    | some t =>
      rw [ht, Option.any_some, decide_eq_true_eq] at hfit
      exact IntType.wrap_of_contains hfit
  | binary op a b d iha ihb =>
    unfold Expr.machineValue Expr.value
    rw [iha h.1, ihb h.2.1]
    have hfit := h.2.2
    unfold fits at hfit
    cases ht : intType d with
    | none => rfl
    | some t =>
      rw [ht, Option.any_some, decide_eq_true_eq] at hfit
      exact IntType.wrap_of_contains hfit

/-- The divisions of the expression are of operands that do not wrap around. -/
def Steady (ρ : Assignment) : Expr → Prop
  | .const _ | .leaf _ => True
  | .neg src => Steady ρ src
  | .binary op a b d =>
    match op with
    | .add | .sub | .mul => Steady ρ a ∧ Steady ρ b
    | .floorDiv | .floorMod => NoWrap ρ (.binary op a b d)

/-- Where no division sees a wrapped number, the machine value is the exact one reduced to the
    type. -/
theorem Steady.agree (ht : intType s = some t) (he : e.Typed s) (h : Steady ρ e) :
    Agree t (e.machineValue ρ) (e.value ρ) := by
  induction e with
  | const c => exact Agree.refl _
  | leaf l => exact Agree.refl _
  | neg src ih =>
    have hd : src.dtype = s := Expr.Typed.dtype_eq he
    rw [machineValue_neg (by rw [hd]; exact ht)]
    exact (wrap_agree _).trans (Int.ModEq.neg (ih he h))
  | binary op a b d iha ihb =>
    obtain ⟨ha, hb, rfl⟩ := he
    cases op with
    | add =>
      rw [machineValue_binary ht]
      exact (wrap_agree _).trans ((iha ha h.1).add (ihb hb h.2))
    | sub =>
      rw [machineValue_binary ht]
      exact (wrap_agree _).trans ((iha ha h.1).sub (ihb hb h.2))
    | mul =>
      rw [machineValue_binary ht]
      exact (wrap_agree _).trans ((iha ha h.1).mul (ihb hb h.2))
    | floorDiv | floorMod =>
      rw [NoWrap.machineValue h]
      exact Agree.refl _

/-- The best-effort ranges of the leaves cover their values. -/
def Encloses (leafRange : Leaf → RangeEval.Bounds) (ρ : Assignment) : Prop :=
  ∀ l t, intType l.dtype = some t → Covers l.dtype (leafRange l) (· = ρ.val l)

end Svod.Symbolic
