/-
  Svod.Ir.RangeEvalTyped

  Constants of a type and intervals over them.

  `HasType s c v` says that `c` is the constant of type `s` with value `v`;
  casts, the order on constants and the commitment of a mathematical interval
  are read through it.  `Covers s b S` says that the ends of the interval `b`
  are of type `s` and that every value in `S` lies between them.
-/

import Svod.Ir.RangeEvalSpec

namespace Svod.Ir

open Svod.Lib ConstValue

variable {v : ℤ} {s s' : ScalarDType} {c : ConstValue} {t : IntType} {S : ℤ → Prop}

/-! ## Constants of a type -/

/-- The constant of a type that holds `v`. -/
def constOf (t : IntType) (v : ℤ) : ConstValue :=
  if t.signed then .int v else if t.bits = 1 then .bool (v ≠ 0) else .uint v

/-- `c` is a constant of type `s` and holds `v`. -/
def HasType (s : ScalarDType) (c : ConstValue) (v : ℤ) : Prop :=
  ∃ t, intType s = some t ∧ t.Contains v ∧ c = constOf t v

/-- A boolean holds zero or one. -/
theorem contains_bool (h : (⟨false, 1, by decide⟩ : IntType).Contains v) : v = 0 ∨ v = 1 := by
  have h1 : 0 ≤ v := h.1
  have h2 : v ≤ 2 ^ 1 - 1 := h.2
  omega

theorem HasType.integerValue (h : HasType s c v) : c.integerValue = some v := by
  obtain ⟨t, ht, hv, rfl⟩ := h
  cases s <;> simp only [intType, reduceCtorEq, Option.some.injEq] at ht
  case bool =>
    subst ht
    rcases contains_bool hv with rfl | rfl <;> rfl
  all_goals subst ht; rfl

theorem HasType.machine (h : HasType s c v) : c.Machine := by
  obtain ⟨t, ht, hv, rfl⟩ := h
  cases s <;> simp only [intType, reduceCtorEq, Option.some.injEq] at ht
  case bool => subst ht; trivial
  all_goals
    subst ht
    simp only [IntType.Contains, IntType.min, IntType.max] at hv
    simp [constOf, Machine]
    simp at hv
    omega

theorem HasType.contains (h : HasType s c v) (ht : intType s = some t) : t.Contains v := by
  obtain ⟨t', ht', hv, -⟩ := h
  obtain rfl : t = t' := Option.some.inj (ht.symm.trans ht')
  exact hv

/-- A constant of a type has one value. -/
theorem HasType.unique {v v' : ℤ} (h : HasType s c v) (h' : HasType s' c v') : v = v' :=
  Option.some.inj (h.integerValue.symm.trans h'.integerValue)

/-! ## Casts -/

theorem castTo_contains (ht : intType s = some t) (v : ℤ) : t.Contains (castTo s t v) := by
  unfold castTo
  split
  · next hs =>
    subst hs
    obtain rfl : _ = t := Option.some.inj ht
    split <;> decide
  · exact t.wrap_contains v

theorem castInt_eq (ht : intType s = some t) (hv : -2 ^ 63 ≤ v ∧ v < 2 ^ 63) :
    castInt v s = some (constOf t (castTo s t v)) := by
  have h64 : wrapSigned 64 v = v := wrapSigned_of_bounds (by decide) hv.1 hv.2
  cases s <;> simp only [intType, reduceCtorEq, Option.some.injEq] at ht <;> subst ht
  case bool =>
    by_cases h0 : v = 0 <;> simp [castInt, constOf, castTo, h0]
  case weakInt | int64 | index => simp [castInt, constOf, castTo, IntType.wrap, h64]
  all_goals simp [castInt, constOf, castTo, IntType.wrap]

theorem castUint_eq (ht : intType s = some t) (hv : 0 ≤ v ∧ v < 2 ^ 64) :
    castUint v s = some (constOf t (castTo s t v)) := by
  have h64 : wrapUnsigned 64 v = v := wrapUnsigned_of_bounds hv.1 hv.2
  cases s <;> simp only [intType, reduceCtorEq, Option.some.injEq] at ht <;> subst ht
  case bool =>
    by_cases h0 : v = 0 <;> simp [castUint, constOf, castTo, h0]
  case uint64 => simp [castUint, constOf, castTo, IntType.wrap, h64]
  all_goals simp [castUint, constOf, castTo, IntType.wrap]

theorem castBool_eq (ht : intType s = some t) (b : Bool) :
    castBool b s = some (constOf t (castTo s t (if b then 1 else 0))) := by
  cases s <;> simp only [intType, reduceCtorEq, Option.some.injEq] at ht <;> subst ht <;>
    cases b <;> rfl

/-- A cast keeps the value up to the reduction to the target. -/
theorem cast_hasType (ht : intType s = some t) (hm : c.Machine) (hv : c.integerValue = some v) :
    ∃ c', c.cast s = some c' ∧ HasType s c' (castTo s t v) := by
  refine ⟨constOf t (castTo s t v), ?_, t, ht, castTo_contains ht v, rfl⟩
  cases c with
  | invalid => cases hv
  | int x => obtain rfl := Option.some.inj hv; exact castInt_eq ht hm
  | uint x => obtain rfl := Option.some.inj hv; exact castUint_eq ht hm
  | bool b => obtain rfl := Option.some.inj hv; exact castBool_eq ht b

/-- Casting a value of the type to it changes nothing. -/
theorem castTo_of_contains (ht : intType s = some t) (hv : t.Contains v) : castTo s t v = v := by
  unfold castTo
  split
  · next hs =>
    subst hs
    obtain rfl : _ = t := Option.some.inj ht
    rcases contains_bool hv with rfl | rfl <;> rfl
  · exact IntType.wrap_of_contains hv

/-- A canonical literal other than the invalid one has a value of its type. -/
theorem hasType_of_canonical (ht : intType s = some t) (hm : c.Machine) (hc : c.cast s = some c)
    (hv : c ≠ .invalid) : ∃ v, HasType s c v := by
  obtain ⟨v, hiv⟩ : ∃ v, c.integerValue = some v := by
    cases c with
    | invalid => exact absurd rfl hv
    | int v | uint v | bool v => exact ⟨_, rfl⟩
  obtain ⟨c', hc', h⟩ := cast_hasType ht hm hiv
  obtain rfl : c = c' := Option.some.inj (hc.symm.trans hc')
  exact ⟨_, h⟩

/-- The three kinds of constants, by the type. -/
theorem HasType.kind (h : HasType s c v) :
    (s = .bool ∧ ∃ b : Bool, c = .bool b ∧ v = if b then 1 else 0) ∨
    (s ≠ .bool ∧ s.isUnsigned = true ∧ c = .uint v) ∨
    (s ≠ .bool ∧ s.isUnsigned = false ∧ c = .int v) := by
  obtain ⟨t, ht, hv, rfl⟩ := h
  cases s <;> simp only [intType, reduceCtorEq, Option.some.injEq] at ht <;> subst ht
  case bool =>
    apply Or.inl
    rcases contains_bool hv with rfl | rfl
    · exact ⟨rfl, false, rfl, rfl⟩
    · exact ⟨rfl, true, rfl, rfl⟩
  case uint8 | uint16 | uint32 | uint64 => exact Or.inr (Or.inl ⟨by decide, rfl, rfl⟩)
  all_goals exact Or.inr (Or.inr ⟨by decide, rfl, rfl⟩)

/-- A constant is one of the widest type of its kind. -/
theorem HasType.wide (h : HasType s c v) : HasType c.wide c v ∧ sameKind c.wide s := by
  have hm := h.machine
  rcases h.kind with ⟨rfl, b, rfl, rfl⟩ | ⟨hs, hu, rfl⟩ | ⟨hs, hu, rfl⟩
  · exact ⟨h, Iff.rfl, rfl⟩
  · refine ⟨⟨_, rfl, ?_, rfl⟩, iff_of_false (show ¬ ScalarDType.uint64 = .bool by decide) hs, hu.symm⟩
    obtain ⟨h₀, h₁⟩ := hm
    exact ⟨h₀, show v ≤ 2 ^ 64 - 1 by omega⟩
  · refine ⟨⟨_, rfl, ?_, rfl⟩, iff_of_false (show ¬ ScalarDType.int64 = .bool by decide) hs, hu.symm⟩
    obtain ⟨h₀, h₁⟩ := hm
    exact ⟨h₀, show v ≤ 2 ^ 63 - 1 by omega⟩

theorem wide_eq_of_sameKind {a b : ConstValue} {x y : ℤ} (ha : HasType s a x)
    (hb : HasType s' b y) (hk : sameKind s s') : a.wide = b.wide := by
  rcases ha.kind with ⟨hs, p, rfl, rfl⟩ | ⟨hs, hu, rfl⟩ | ⟨hs, hu, rfl⟩ <;>
    rcases hb.kind with ⟨hs', q, rfl, rfl⟩ | ⟨hs', hu', rfl⟩ | ⟨hs', hu', rfl⟩
  case inl.inl | inr.inl.inr.inl | inr.inr.inr.inr => rfl
  case inl.inr.inl | inl.inr.inr => exact absurd (hk.1.mp hs) hs'
  case inr.inl.inl | inr.inr.inl => exact absurd (hk.1.mpr hs') hs
  case inr.inl.inr.inr | inr.inr.inr.inl =>
    have hu := hk.2
    simp_all

/-! ## Order -/

theorem compare_hasType {a b : ConstValue} {x y : ℤ} (ha : HasType s a x) (hb : HasType s' b y)
    (hk : sameKind s s') : RangeEval.compareConstValues a b = compare x y := by
  obtain ⟨hbool, hunsigned⟩ := hk
  rcases ha.kind with ⟨hs, p, rfl, rfl⟩ | ⟨hs, hu, rfl⟩ | ⟨hs, hu, rfl⟩ <;>
    rcases hb.kind with ⟨hs', q, rfl, rfl⟩ | ⟨hs', hu', rfl⟩ | ⟨hs', hu', rfl⟩
  -- a boolean compares as the number it stands for
  case inl.inl => cases p <;> cases q <;> rfl
  case inr.inl.inr.inl => rfl
  case inr.inr.inr.inr => rfl
  case inl.inr.inl | inl.inr.inr => exact absurd (hbool.mp hs) hs'
  case inr.inl.inl | inr.inr.inl => exact absurd (hbool.mpr hs') hs
  case inr.inl.inr.inr | inr.inr.inr.inl => simp [hu, hu'] at hunsigned

/-- Values of different kinds compare as equal and are different constants. -/
theorem compare_of_not_sameKind {a b : ConstValue} {x y : ℤ} (ha : HasType s a x)
    (hb : HasType s' b y) (hk : ¬ sameKind s s') :
    RangeEval.compareConstValues a b = .eq ∧ RangeEval.compareConstValues b a = .eq ∧ a ≠ b := by
  rcases ha.kind with ⟨hs, p, rfl, rfl⟩ | ⟨hs, hu, rfl⟩ | ⟨hs, hu, rfl⟩ <;>
    rcases hb.kind with ⟨hs', q, rfl, rfl⟩ | ⟨hs', hu', rfl⟩ | ⟨hs', hu', rfl⟩
  case inl.inl => subst hs; subst hs'; exact absurd (by decide) hk
  case inr.inl.inr.inl | inr.inr.inr.inr =>
    exact absurd ⟨iff_of_false hs hs', hu.trans hu'.symm⟩ hk
  all_goals exact ⟨rfl, rfl, nofun⟩

/-! ## Commitment -/

/-- The bounds of a scalar type are its least and its greatest value. -/
theorem dtypeBounds_hasType (ht : intType s = some t) :
    HasType s (ConstValue.min s) t.min ∧ HasType s (ConstValue.max s) t.max := by
  cases s <;> simp only [intType, reduceCtorEq, Option.some.injEq] at ht <;> subst ht <;>
    exact ⟨⟨_, rfl, by decide, by decide⟩, ⟨_, rfl, by decide, by decide⟩⟩

theorem integerDtypeBounds_eq (ht : intType s = some t) :
    RangeEval.integerDtypeBounds s = some (t.min, t.max) := by
  have h := dtypeBounds_hasType ht
  simp [RangeEval.integerDtypeBounds, h.1.integerValue, h.2.integerValue]

theorem makeValue_hasType (ht : intType s = some t) (hv : t.Contains v)
    (h : RangeEval.makeValue s v = some c) : HasType s c v := by
  unfold RangeEval.makeValue at h
  have hcast : castTo s t v = v := castTo_of_contains ht hv
  split at h
  · split at h
    · next hr =>
      obtain ⟨c', hc', hty⟩ := cast_hasType ht (c := .uint v) hr rfl
      obtain rfl : c = c' := Option.some.inj (h.symm.trans hc')
      rwa [hcast] at hty
    · cases h
  · split at h
    · next hr =>
      obtain ⟨c', hc', hty⟩ := cast_hasType ht (c := .int v) hr rfl
      obtain rfl : c = c' := Option.some.inj (h.symm.trans hc')
      rwa [hcast] at hty
    · cases h

/-- `commit_integer_math_range` keeps the ends it commits. -/
theorem commitIntegerMathRange_hasType (ht : intType s = some t) {mn mx : ℤ}
    {b : RangeEval.Bounds} (h : RangeEval.commitIntegerMathRange mn mx s = some b) :
    HasType s b.1 mn ∧ HasType s b.2 mx := by
  simp only [RangeEval.commitIntegerMathRange, integerDtypeBounds_eq ht, Option.bind_eq_bind,
    Option.bind_some] at h
  split at h
  · cases h
  · next hr =>
    simp only [Option.bind_eq_some_iff, Option.some.injEq] at h
    obtain ⟨lo, hlo, hi, hhi, rfl⟩ := h
    have hmn : t.Contains mn := ⟨by omega, by omega⟩
    have hmx : t.Contains mx := ⟨by omega, by omega⟩
    exact ⟨makeValue_hasType ht hmn hlo, makeValue_hasType ht hmx hhi⟩

/-! ## Intervals that cover a set of values -/

/-- The ends of `b` are of type `s`, and every value in `S` lies between them. -/
def Covers (s : ScalarDType) (b : RangeEval.Bounds) (S : ℤ → Prop) : Prop :=
  ∃ l h, HasType s b.1 l ∧ HasType s b.2 h ∧ ∀ v, S v → l ≤ v ∧ v ≤ h

theorem Covers.mono {b : RangeEval.Bounds} {S S' : ℤ → Prop} (h : Covers s b S)
    (hS : ∀ v, S' v → S v) : Covers s b S' := by
  obtain ⟨l, u, hl, hu, hcov⟩ := h
  exact ⟨l, u, hl, hu, fun v hv => hcov v (hS v hv)⟩

/-- `b` covers `S` with ends of one kind, which is `Bool` for the type `bool` only. -/
def Encloses (s : ScalarDType) (b : RangeEval.Bounds) (S : ℤ → Prop) : Prop :=
  (b.1.wide = .bool ↔ s = .bool) ∧ Covers b.1.wide b S

theorem Covers.encloses {b : RangeEval.Bounds} (h : Covers s b S) (hs : s = .bool ↔ s' = .bool) :
    Encloses s' b S := by
  obtain ⟨l, u, hl, hu, hcov⟩ := h
  refine ⟨hl.wide.2.1.trans hs, l, u, hl.wide.1, ?_, hcov⟩
  rw [wide_eq_of_sameKind hl hu ⟨Iff.rfl, rfl⟩]
  exact hu.wide.1

theorem Encloses.mono {s : ScalarDType} {b : RangeEval.Bounds} {S S' : ℤ → Prop}
    (h : Encloses s b S) (hS : ∀ v, S' v → S v) : Encloses s b S' := ⟨h.1, h.2.mono hS⟩

theorem Covers.inBounds {b : RangeEval.Bounds} (h : Covers s b S) (hv : S v) :
    RangeEval.InBounds b v := by
  obtain ⟨l, u, hl, hu, hcov⟩ := h
  exact ⟨l, u, hl.integerValue, hu.integerValue, hcov v hv⟩

theorem RangeEval.Within.ends {b : RangeEval.Bounds} {l u : ℤ} (h : RangeEval.Within b s)
    (ht : intType s = some t) (hl : HasType s' b.1 l) (hu : HasType s' b.2 u) :
    t.min ≤ l ∧ u ≤ t.max := by
  obtain ⟨t', lo, hi, ht', hlo, hhi, hr⟩ := h
  obtain rfl : t = t' := Option.some.inj (ht.symm.trans ht')
  obtain rfl : l = lo := Option.some.inj (hl.integerValue.symm.trans hlo)
  obtain rfl : u = hi := Option.some.inj (hu.integerValue.symm.trans hhi)
  exact hr

theorem Covers.point (h : HasType s c v) : Covers s (c, c) (· = v) := by
  refine ⟨v, v, h, h, ?_⟩
  intro w hw
  omega

/-- The bounds of the dtype cover whatever fits the dtype. -/
theorem Covers.full (ht : intType s = some t) (hS : ∀ v, S v → t.Contains v) :
    Covers s (RangeEval.dtypeBounds s) S :=
  ⟨t.min, t.max, (dtypeBounds_hasType ht).1, (dtypeBounds_hasType ht).2, hS⟩

/-- An interval of mathematical results, committed when it fits and widened to the bounds of
    the dtype when it does not, covers the reduced results. -/
theorem Covers.commit {s : ScalarDType} {t : IntType} (ht : intType s = some t)
    {r : Option (ℤ × ℤ)} {S : ℤ → Prop}
    (hr : ∀ lo hi, r = some (lo, hi) → ∀ z, S z → lo ≤ z ∧ z ≤ hi) :
    Covers s ((r.bind fun r => RangeEval.commitIntegerMathRange r.1 r.2 s).getD
      (RangeEval.dtypeBounds s)) (fun v => ∃ z, S z ∧ v = t.wrap z) := by
  have hwrap : ∀ v, (∃ z, S z ∧ v = t.wrap z) → t.Contains v := by
    intro v hv
    obtain ⟨z, -, rfl⟩ := hv
    exact t.wrap_contains z
  cases r with
  | none => exact Covers.full ht hwrap
  | some r =>
    simp only [Option.bind_some]
    cases hc : RangeEval.commitIntegerMathRange r.1 r.2 s with
    | none => exact Covers.full ht hwrap
    | some b =>
      obtain ⟨hlo, hhi⟩ := commitIntegerMathRange_hasType ht hc
      refine ⟨r.1, r.2, hlo, hhi, ?_⟩
      intro v hv
      obtain ⟨z, hz, rfl⟩ := hv
      have hrange := hr r.1 r.2 rfl z hz
      have hlo' := (hlo.contains ht).1
      have hhi' := (hhi.contains ht).2
      -- both ends fit, so the result is not reduced
      rw [IntType.wrap_of_contains ⟨by omega, by omega⟩]
      exact hrange

end Svod.Ir
