/-
  Svod.Symbolic.Exact

  The no-wrap proof of the integer rewrites (`symbolic/patterns.rs`).

  A tree is accepted when the sound ranges of its operands keep every result of
  its additions, products, divisions and negations within the type.  In an
  accepted tree the machine computes the exact value, and that value lies in the
  sound range of the tree.
-/

import Svod.Symbolic.Expr
import Svod.Ir.RangeEvalOps

namespace Svod.Symbolic

open Svod.Ir Svod.Lib

/-! ## The check -/

/-- `integer_dtype_bounds` of `patterns.rs`: booleans have none. -/
def integerDtypeBounds (s : ScalarDType) : Option (ℤ × ℤ) :=
  if s = .bool then none else (intType s).map fun t => (t.min, t.max)

/-- `integer_value` of `patterns.rs`. -/
def integerValue : ConstValue → Option ℤ
  | .int v => some v
  | .uint v => some v
  | _ => none

/-- `sound_integer_range`. -/
def soundIntegerRange (e : Expr) : Option (ℤ × ℤ) := do
  let (dtypeMin, dtypeMax) ← integerDtypeBounds e.dtype
  let (mn, mx) ← e.range
  let lo ← integerValue mn
  let hi ← integerValue mx
  if dtypeMin ≤ lo ∧ lo ≤ hi ∧ hi ≤ dtypeMax then some (lo, hi) else none

/-- `i128::checked_div_euclid`. -/
def checkedDivEuclid (a b : ℤ) : Option ℤ := if b = 0 then none else RangeEval.checkedI128 (a / b)

/-- `i128::checked_rem_euclid`. -/
def checkedRemEuclid (a b : ℤ) : Option ℤ :=
  if b = 0 ∨ (a = -2 ^ 127 ∧ b = -1) then none else some (a % b)

/-- The results of an operation at the ends of its operands. -/
def endResults (op : ArithOp) (lhsMin lhsMax rhsMin rhsMax : ℤ) : List (Option ℤ) :=
  match op with
  | .add => [RangeEval.checkedI128 (lhsMin + rhsMin), RangeEval.checkedI128 (lhsMax + rhsMax)]
  | .sub => [RangeEval.checkedI128 (lhsMin - rhsMax), RangeEval.checkedI128 (lhsMax - rhsMin)]
  | .mul => [RangeEval.checkedI128 (lhsMin * rhsMin), RangeEval.checkedI128 (lhsMin * rhsMax),
      RangeEval.checkedI128 (lhsMax * rhsMin), RangeEval.checkedI128 (lhsMax * rhsMax)]
  | .floorDiv =>
    if rhsMin ≤ 0 ∧ rhsMax ≥ 0 then [none]
    else [checkedDivEuclid lhsMin rhsMin, checkedDivEuclid lhsMin rhsMax,
      checkedDivEuclid lhsMax rhsMin, checkedDivEuclid lhsMax rhsMax]
  | .floorMod =>
    if rhsMin ≤ 0 ∧ rhsMax ≥ 0 then [none]
    else [checkedRemEuclid lhsMin rhsMin, checkedRemEuclid lhsMin rhsMax,
      checkedRemEuclid lhsMax rhsMin, checkedRemEuclid lhsMax rhsMax]

/-- `integer_binary_does_not_wrap`. -/
def integerBinaryDoesNotWrap (op : ArithOp) (lhs rhs : Expr) (resultDtype : ScalarDType) : Bool :=
  if lhs.dtype ≠ resultDtype ∨ rhs.dtype ≠ resultDtype then false
  else
    match integerDtypeBounds resultDtype, soundIntegerRange lhs, soundIntegerRange rhs with
    | some (dtypeMin, dtypeMax), some (lhsMin, lhsMax), some (rhsMin, rhsMax) =>
      (endResults op lhsMin lhsMax rhsMin rhsMax).all fun r =>
        match r with
        | some v => dtypeMin ≤ v && v ≤ dtypeMax
        | none => false
    | _, _, _ => false

/-- `integer_arithmetic_does_not_wrap`. -/
def integerArithmeticDoesNotWrap : Expr → Bool
  | .binary op lhs rhs d =>
    integerArithmeticDoesNotWrap lhs && integerArithmeticDoesNotWrap rhs
      && integerBinaryDoesNotWrap op lhs rhs d
  | .neg src =>
    match integerDtypeBounds src.dtype, soundIntegerRange src with
    | some (dtypeMin, dtypeMax), some (srcMin, srcMax) =>
      integerArithmeticDoesNotWrap src && dtypeMin ≤ -srcMax && -srcMax ≤ -srcMin
        && -srcMin ≤ dtypeMax
    | _, _ => false
  | _ => true

/-- `typed_integer_rewrite_is_exact`, of scalars. -/
def typedIntegerRewriteIsExact (original replacement : Expr) : Bool :=
  original.dtype == replacement.dtype && (integerDtypeBounds original.dtype).isSome
    && integerArithmeticDoesNotWrap original && integerArithmeticDoesNotWrap replacement

/-- `exact_integer_rewrite`. -/
def exactIntegerRewrite (original replacement : Expr) : Option Expr :=
  if typedIntegerRewriteIsExact original replacement then some replacement else none

/-! ## What the check means -/

section

variable {s : ScalarDType} {t : IntType} {ρ : Expr.Assignment}

theorem integerDtypeBounds_eq (ht : intType s = some t) (hs : s ≠ .bool) :
    integerDtypeBounds s = some (t.min, t.max) := by
  unfold integerDtypeBounds
  rw [if_neg hs, ht]
  rfl

theorem integerDtypeBounds_isSome (h : (integerDtypeBounds s).isSome = true) :
    s ≠ .bool ∧ ∃ t, intType s = some t := by
  unfold integerDtypeBounds at h
  split at h
  · cases h
  · next hs =>
    cases ht : intType s with
    | none =>
      rw [ht] at h
      cases h
    | some t => exact ⟨hs, t, rfl⟩

/-- An expression of one type whose arithmetic is accepted. -/
structure Accepted (s : ScalarDType) (e : Expr) : Prop where
  typed : e.Typed s
  noWrap : integerArithmeticDoesNotWrap e = true

theorem integerValue_hasType (hs : s ≠ .bool) {c : ConstValue} {v : ℤ} (h : HasType s c v) :
    integerValue c = some v := by
  obtain ⟨t, ht, _, rfl⟩ := h
  unfold constOf
  split
  · rfl
  · split
    · next hbits =>
      -- only `bool` has one bit
      cases s <;> simp only [intType, reduceCtorEq, Option.some.injEq] at ht
      case bool => exact absurd rfl hs
      all_goals
        subst ht
        cases hbits
    · rfl

theorem soundIntegerRange_covers (ht : intType s = some t) (hs : s ≠ .bool) {e : Expr}
    (hty : e.dtype = s) {b : RangeEval.Bounds} (hb : e.range = some b) {S : ℤ → Prop}
    (hcov : Covers s b S) {lo hi : ℤ} (h : soundIntegerRange e = some (lo, hi)) :
    t.Contains lo ∧ t.Contains hi ∧ ∀ v, S v → lo ≤ v ∧ v ≤ hi := by
  obtain ⟨l, u, hl, hu, hS⟩ := hcov
  unfold soundIntegerRange at h
  rw [hty, integerDtypeBounds_eq ht hs, hb] at h
  simp only [Option.bind_eq_bind, Option.bind_some, integerValue_hasType hs hl,
    integerValue_hasType hs hu] at h
  split at h
  · next hbounds =>
    cases h
    exact ⟨⟨hbounds.1, hbounds.2.1.trans hbounds.2.2⟩, ⟨hbounds.1.trans hbounds.2.1, hbounds.2.2⟩, hS⟩
  · cases h

/-- The magnitude of a value of a type. -/
theorem contains_iff {t : IntType} : ∃ N : ℤ, 0 < N ∧
    ((t.signed = true ∧ ∀ x, t.Contains x ↔ -N ≤ x ∧ x < N) ∨
      (t.signed = false ∧ ∀ x, t.Contains x ↔ 0 ≤ x ∧ x < N)) := by
  unfold IntType.Contains IntType.min IntType.max
  by_cases hs : t.signed = true
  · refine ⟨2 ^ (t.bits - 1), by positivity, Or.inl ⟨hs, ?_⟩⟩
    intro x
    rw [if_pos hs, if_pos hs]
    omega
  · refine ⟨2 ^ t.bits, by positivity, Or.inr ⟨by simpa using hs, ?_⟩⟩
    intro x
    rw [if_neg hs, if_neg hs]
    omega

/-- A floor quotient leaves the type only when the least value is divided by `-1`. -/
theorem fdiv_contains {x y : ℤ} (hx : t.Contains x) (hy : t.Contains y) (hy0 : y ≠ 0)
    (hmin : ¬ (y = -1 ∧ ¬ t.Contains (-x))) : t.Contains (x.fdiv y) := by
  obtain ⟨N, hN, ⟨hs, hc⟩ | ⟨hs, hc⟩⟩ := contains_iff (t := t)
  · rw [hc] at hx hy ⊢
    have habs := Int.natAbs_fdiv_le_natAbs x y
    refine ⟨by omega, ?_⟩
    by_contra hge
    -- then `|x| = N` and the quotient is `-x`
    have hxN : x = -N := by omega
    have hq : x.fdiv y = N := by omega
    have hdm := Int.fdiv_mul_add_fmod x y
    rw [hq, hxN] at hdm
    rcases lt_or_gt_of_ne hy0 with hneg | hpos
    · have hm := fmod_bounds_neg (-N) hneg
      have hy1 : y = -1 := by
        by_contra hne
        have : N * y ≤ N * (-2) := Int.mul_le_mul_of_nonneg_left (by omega) (by omega)
        omega
      apply hmin
      refine ⟨hy1, ?_⟩
      rw [hc]
      omega
    · have hm := fmod_bounds_pos (-N) hpos
      have : 0 < N * y := Int.mul_pos hN hpos
      omega
  · rw [hc] at hx hy ⊢
    have hnn := Int.fdiv_nonneg hx.1 hy.1
    have hle := Int.fdiv_le_self y hx.1
    omega

theorem fmod_contains {x y : ℤ} (hy : t.Contains y) (hy0 : y ≠ 0) : t.Contains (x.fmod y) := by
  obtain ⟨N, hN, ⟨hs, hc⟩ | ⟨hs, hc⟩⟩ := contains_iff (t := t)
  · rw [hc] at hy ⊢
    rcases lt_or_gt_of_ne hy0 with hneg | hpos
    · have hm := fmod_bounds_neg x hneg
      omega
    · have hm := fmod_bounds_pos x hpos
      omega
  · rw [hc] at hy ⊢
    have hm := fmod_bounds_pos x (lt_of_le_of_ne hy.1 (Ne.symm hy0))
    omega

/-- Between bounds at the ends of the operands, a result stays within the bounds. -/
theorem endResults_contains {op : ArithOp} {lhsMin lhsMax rhsMin rhsMax x y : ℤ}
    (hl : t.Contains lhsMin) (hu : t.Contains lhsMax) (hl' : t.Contains rhsMin)
    (hu' : t.Contains rhsMax) (hx : lhsMin ≤ x ∧ x ≤ lhsMax) (hy : rhsMin ≤ y ∧ y ≤ rhsMax)
    (hall : ∀ r ∈ endResults op lhsMin lhsMax rhsMin rhsMax, ∃ v, r = some v ∧ t.Contains v) :
    t.Contains (op.toBinaryOp.apply x y) ∧
      (op = .floorDiv ∨ op = .floorMod → rhsMin > 0 ∨ rhsMax < 0) := by
  have hxt : t.Contains x := ⟨hl.1.trans hx.1, hx.2.trans hu.2⟩
  have hyt : t.Contains y := ⟨hl'.1.trans hy.1, hy.2.trans hu'.2⟩
  cases op with
  | add =>
    simp only [endResults, List.mem_cons, List.not_mem_nil, or_false, forall_eq_or_imp,
      forall_eq] at hall
    obtain ⟨⟨v₁, h₁, hv₁⟩, v₂, h₂, hv₂⟩ := hall
    have e₁ := checkedI128_eq_some h₁
    have e₂ := checkedI128_eq_some h₂
    refine ⟨⟨?_, ?_⟩, by simp⟩
    · exact hv₁.1.trans (by rw [e₁]; exact Int.add_le_add hx.1 hy.1)
    · exact le_trans (by rw [e₂]; exact Int.add_le_add hx.2 hy.2) hv₂.2
  | sub =>
    simp only [endResults, List.mem_cons, List.not_mem_nil, or_false, forall_eq_or_imp,
      forall_eq] at hall
    obtain ⟨⟨v₁, h₁, hv₁⟩, v₂, h₂, hv₂⟩ := hall
    have e₁ := checkedI128_eq_some h₁
    have e₂ := checkedI128_eq_some h₂
    refine ⟨⟨?_, ?_⟩, by simp⟩
    · exact hv₁.1.trans (by rw [e₁]; exact Int.sub_le_sub hx.1 hy.2)
    · exact le_trans (by rw [e₂]; exact Int.sub_le_sub hx.2 hy.1) hv₂.2
  | mul =>
    simp only [endResults, List.mem_cons, List.not_mem_nil, or_false, forall_eq_or_imp,
      forall_eq] at hall
    obtain ⟨⟨v₁, h₁, hv₁⟩, ⟨v₂, h₂, hv₂⟩, ⟨v₃, h₃, hv₃⟩, v₄, h₄, hv₄⟩ := hall
    rw [checkedI128_eq_some h₁] at hv₁
    rw [checkedI128_eq_some h₂] at hv₂
    rw [checkedI128_eq_some h₃] at hv₃
    rw [checkedI128_eq_some h₄] at hv₄
    have hbox : Lib.BoxOneWay (fun a b : ℤ => a * b) lhsMin lhsMax rhsMin rhsMax := boxOneWay_mul
    refine ⟨⟨?_, ?_⟩, by simp⟩
    · exact hbox.le_of_corners hx hy hv₁.1 hv₂.1 hv₃.1 hv₄.1
    · exact hbox.ge_of_corners hx hy hv₁.2 hv₂.2 hv₃.2 hv₄.2
  | floorDiv =>
    unfold endResults at hall
    dsimp only at hall
    split at hall
    · obtain ⟨v, hv, _⟩ := hall none (by simp)
      cases hv
    · next hzero =>
      refine ⟨fdiv_contains hxt hyt (by omega) ?_, fun _ => by omega⟩
      rintro ⟨hym, hnot⟩
      -- `-1` is the upper end, and the least dividend over it was checked
      have hmax : rhsMax = -1 := by omega
      obtain ⟨v, hv, hvt⟩ := hall (checkedDivEuclid lhsMin rhsMax) (by simp)
      rw [hmax] at hv
      unfold checkedDivEuclid at hv
      rw [if_neg (by decide)] at hv
      have hve := checkedI128_eq_some hv
      have hneg : lhsMin / -1 = -lhsMin := by omega
      rw [hneg] at hve
      rw [hve] at hvt
      apply hnot
      refine ⟨?_, le_trans (by omega) hvt.2⟩
      obtain ⟨N, hN, ⟨hs, hc⟩ | ⟨hs, hc⟩⟩ := contains_iff (t := t)
      · have hxc := (hc x).mp hxt
        have hmin := (hc t.min).mp ⟨le_refl _, t.contains_zero.1.trans t.contains_zero.2⟩
        have hN1 := (hc (-N)).mpr ⟨le_refl _, by omega⟩
        exact hN1.1.trans (by omega)
      · have hyc := (hc y).mp hyt
        omega
  | floorMod =>
    unfold endResults at hall
    dsimp only at hall
    split at hall
    · obtain ⟨v, hv, _⟩ := hall none (by simp)
      cases hv
    · next hzero => exact ⟨fmod_contains hyt (by omega), fun _ => by omega⟩

/-! ## Accepted trees -/

theorem const_hasType {c : Const} (hc : c.value ≠ .invalid) :
    HasType c.dtype c.value ((Expr.const c).value ρ) := by
  have h := c.committed
  unfold isCommitted at h
  unfold Expr.value
  cases ht : intType c.dtype with
  | none =>
    rw [ht] at h
    exact absurd (by simpa using h) hc
  | some t =>
    cases hv : c.value.integerValue with
    | none =>
      rw [ht, hv] at h
      exact absurd (by simpa using h) hc
    | some v =>
      rw [ht, hv] at h
      simp only [Bool.and_eq_true, decide_eq_true_eq, beq_iff_eq] at h
      exact ⟨t, ht, h.1, h.2⟩

theorem Accepted.lhs {op : ArithOp} {a b : Expr} {d : ScalarDType}
    (h : Accepted s (.binary op a b d)) : Accepted s a := by
  have hw := h.noWrap
  unfold integerArithmeticDoesNotWrap at hw
  simp only [Bool.and_eq_true] at hw
  exact ⟨h.typed.1, hw.1.1⟩

theorem Accepted.rhs {op : ArithOp} {a b : Expr} {d : ScalarDType}
    (h : Accepted s (.binary op a b d)) : Accepted s b := by
  have hw := h.noWrap
  unfold integerArithmeticDoesNotWrap at hw
  simp only [Bool.and_eq_true] at hw
  exact ⟨h.typed.2.1, hw.1.2⟩

/-- What the check of one operation has found. -/
theorem integerBinaryDoesNotWrap_iff (ht : intType s = some t) (hs : s ≠ .bool) {op : ArithOp}
    {a b : Expr} (h : integerBinaryDoesNotWrap op a b s = true) :
    ∃ lhsMin lhsMax rhsMin rhsMax, soundIntegerRange a = some (lhsMin, lhsMax) ∧
      soundIntegerRange b = some (rhsMin, rhsMax) ∧
      ∀ r ∈ endResults op lhsMin lhsMax rhsMin rhsMax, ∃ v, r = some v ∧ t.Contains v := by
  unfold integerBinaryDoesNotWrap at h
  split at h
  · cases h
  · rw [integerDtypeBounds_eq ht hs] at h
    cases ha : soundIntegerRange a with
    | none =>
      rw [ha] at h
      cases h
    | some ra =>
      cases hb : soundIntegerRange b with
      | none =>
        rw [ha, hb] at h
        cases h
      | some rb =>
        rw [ha, hb] at h
        refine ⟨ra.1, ra.2, rb.1, rb.2, rfl, rfl, ?_⟩
        intro r hr
        have hall := List.all_eq_true.mp h r hr
        cases r with
        | none => cases hall
        | some v =>
          simp only [Bool.and_eq_true, decide_eq_true_eq] at hall
          exact ⟨v, rfl, hall⟩

/-- What is known of an accepted expression: its value fits and lies in its sound range. -/
structure Exact (s : ScalarDType) (t : IntType) (ρ : Expr.Assignment) (e : Expr) : Prop where
  fits : t.Contains (e.value ρ)
  covers : ∀ b, e.range = some b → Covers s b (· = e.value ρ)

theorem Exact.of_soundIntegerRange (ht : intType s = some t) (hs : s ≠ .bool) {e : Expr}
    (hty : e.dtype = s) (he : Exact s t ρ e) {lo hi : ℤ}
    (h : soundIntegerRange e = some (lo, hi)) :
    t.Contains lo ∧ t.Contains hi ∧ lo ≤ e.value ρ ∧ e.value ρ ≤ hi := by
  cases hb : e.range with
  | none =>
    unfold soundIntegerRange at h
    rw [hb] at h
    cases hd : integerDtypeBounds e.dtype with
    | none =>
      rw [hd] at h
      cases h
    | some p =>
      rw [hd] at h
      cases h
  | some b =>
    obtain ⟨hl, hu, hv⟩ := soundIntegerRange_covers ht hs hty hb (he.covers b hb) h
    exact ⟨hl, hu, hv _ rfl⟩

/-- The range of an operation covers its result, reduced to the type. -/
theorem binary_covers (ht : intType s = some t) (hs : s ≠ .bool) {op : ArithOp} {a b : Expr}
    {d : ScalarDType} (hd : d = s) (hea : Exact s t ρ a) (heb : Exact s t ρ b)
    {c : RangeEval.Bounds} (hc : (Expr.binary op a b d).range = some c) :
    Covers s c (· = t.wrap (op.toBinaryOp.apply (a.value ρ) (b.value ρ))) := by
  unfold Expr.range at hc
  simp only [bind_eq_some] at hc
  obtain ⟨ba, hba, bb, hbb, hc⟩ := hc
  have hop : op.toBinaryOp.isComparison = false := by cases op <;> rfl
  have hand : op.toBinaryOp ≠ .and := by cases op <;> decide
  have hcov := soundBinaryRange_covers (d := .scalar d) hop (by rw [hd]; exact ht)
    (fun hb => absurd (by rw [← hd]; exact hb) hs) (hea.covers ba hba) (heb.covers bb hbb)
    (fun hb => absurd hb hand) hc
  rw [hd] at hcov
  apply hcov.mono
  rintro v rfl
  exact ⟨_, _, rfl, rfl, rfl⟩

theorem accepted_exact (ht : intType s = some t) (hs : s ≠ .bool) {e : Expr}
    (h : Accepted s e) : Exact s t ρ e := by
  induction e with
  | const c =>
    have hd : c.dtype = s := h.typed
    by_cases hc : c.value = .invalid
    · refine ⟨?_, ?_⟩
      · unfold Expr.value
        rw [hc]
        exact t.contains_zero
      · intro b hb
        unfold Expr.range at hb
        rw [hc] at hb
        cases hb
    · have hty := const_hasType (ρ := ρ) hc
      rw [hd] at hty
      refine ⟨hty.contains ht, ?_⟩
      intro b hb
      unfold Expr.range at hb
      split at hb
      · cases hb
        exact Covers.point hty
      · cases hb
  | leaf l =>
    have hd : l.dtype = s := h.typed
    have htl : intType l.dtype = some t := by
      rw [hd]
      exact ht
    refine ⟨ρ.typed l t htl, ?_⟩
    intro b hb
    unfold Expr.range at hb
    cases hr : l.range with
    | none =>
      rw [hr] at hb
      cases hb
    | some r =>
      obtain ⟨lo, hi⟩ := r
      rw [hr] at hb
      simp only [Option.bind_eq_bind, Option.bind_some, htl, Option.some.injEq] at hb
      subst hb
      have hfits := l.fits
      rw [hr] at hfits
      unfold rangeFits at hfits
      rw [htl] at hfits
      simp only [Bool.and_eq_true, decide_eq_true_eq] at hfits
      refine ⟨lo, hi, ⟨t, ht, hfits.1.1, rfl⟩, ⟨t, ht, hfits.1.2, rfl⟩, ?_⟩
      intro v hv
      rw [hv]
      exact ρ.inRange l lo hi hr
  | neg src ih =>
    have hd : src.dtype = s := Expr.Typed.dtype_eq h.typed
    have hw := h.noWrap
    unfold integerArithmeticDoesNotWrap at hw
    rw [hd, integerDtypeBounds_eq ht hs] at hw
    cases hr : soundIntegerRange src with
    | none =>
      rw [hr] at hw
      cases hw
    | some r =>
      obtain ⟨lo, hi⟩ := r
      rw [hr] at hw
      simp only [Bool.and_eq_true, decide_eq_true_eq] at hw
      have hsrc := ih ⟨h.typed, hw.1.1.1⟩
      obtain ⟨_, _, hlo, hhi⟩ := hsrc.of_soundIntegerRange ht hs hd hr
      have hfits : t.Contains (-src.value ρ) := by
        have h₁ := hw.1.1.2
        have h₂ := hw.2
        exact ⟨by omega, by omega⟩
      refine ⟨hfits, ?_⟩
      intro b hb
      unfold Expr.range at hb
      cases hsr : src.range with
      | none =>
        rw [hsr] at hb
        cases hb
      | some rs =>
        rw [hsr] at hb
        cases hb
        have hcov : Covers src.dtype
            (RangeEval.computeUnaryRange .neg rs.1 rs.2 (.scalar src.dtype))
            (unaryValues .neg t (· = src.value ρ)) :=
          computeUnaryRange_covers (d := .scalar src.dtype) (t := t) (by rw [hd]; exact ht)
            ((hd.symm ▸ hsrc.covers rs hsr : Covers src.dtype _ _).encloses Iff.rfl) nofun
        rw [hd] at hcov ⊢
        apply hcov.mono
        rintro v rfl
        exact ⟨_, rfl, (IntType.wrap_of_contains hfits).symm⟩
  | binary op a b d iha ihb =>
    have hea := iha h.lhs
    have heb := ihb h.rhs
    have hda : a.dtype = s := h.typed.1.dtype_eq
    have hdb : b.dtype = s := h.typed.2.1.dtype_eq
    have hd : d = s := h.typed.2.2
    have hw := h.noWrap
    unfold integerArithmeticDoesNotWrap at hw
    simp only [Bool.and_eq_true] at hw
    rw [hd] at hw
    obtain ⟨lhsMin, lhsMax, rhsMin, rhsMax, hra, hrb, hall⟩ :=
      integerBinaryDoesNotWrap_iff ht hs hw.2
    obtain ⟨hl, hu, hx⟩ := hea.of_soundIntegerRange ht hs hda hra
    obtain ⟨hl', hu', hy⟩ := heb.of_soundIntegerRange ht hs hdb hrb
    have hfits := (endResults_contains hl hu hl' hu' hx hy hall).1
    refine ⟨hfits, ?_⟩
    intro c hc
    have hcov := binary_covers ht hs hd hea heb hc
    apply hcov.mono
    rintro v rfl
    exact (IntType.wrap_of_contains hfits).symm

/-- The machine computes the exact value of an accepted expression. -/
theorem accepted_machineValue (ht : intType s = some t) (hs : s ≠ .bool) {e : Expr}
    (h : Accepted s e) : e.machineValue ρ = e.value ρ := by
  induction e with
  | const c => rfl
  | leaf l => rfl
  | neg src ih =>
    have hd : src.dtype = s := Expr.Typed.dtype_eq h.typed
    have hfits := (accepted_exact (ρ := ρ) ht hs h).fits
    have hsrc : Accepted s src := by
      refine ⟨h.typed, ?_⟩
      have hw := h.noWrap
      unfold integerArithmeticDoesNotWrap at hw
      split at hw
      · simp only [Bool.and_eq_true] at hw
        exact hw.1.1.1
      · cases hw
    unfold Expr.machineValue
    rw [hd, ht, ih hsrc]
    exact IntType.wrap_of_contains hfits
  | binary op a b d iha ihb =>
    have hd : d = s := h.typed.2.2
    have hfits := (accepted_exact (ρ := ρ) ht hs h).fits
    unfold Expr.machineValue
    rw [hd, ht, iha h.lhs, ihb h.rhs]
    exact IntType.wrap_of_contains hfits

end

/-! ## The two trees of a rewrite -/

/-- In an accepted tree every node is of the type of the root. -/
theorem typed_of_noWrap {e : Expr} (h : integerArithmeticDoesNotWrap e = true) :
    e.Typed e.dtype := by
  induction e with
  | const c => rfl
  | leaf l => rfl
  | neg src ih =>
    unfold integerArithmeticDoesNotWrap at h
    split at h
    · simp only [Bool.and_eq_true] at h
      exact ih h.1.1.1
    · cases h
  | binary op a b d iha ihb =>
    unfold integerArithmeticDoesNotWrap at h
    simp only [Bool.and_eq_true] at h
    obtain ⟨⟨ha, hb⟩, hbin⟩ := h
    have hd : a.dtype = d ∧ b.dtype = d := by
      unfold integerBinaryDoesNotWrap at hbin
      split at hbin
      · cases hbin
      · next hne => exact ⟨by tauto, by tauto⟩
    have h₁ := iha ha
    have h₂ := ihb hb
    rw [hd.1] at h₁
    rw [hd.2] at h₂
    exact ⟨h₁, h₂, rfl⟩

theorem exactIntegerRewrite_eq {x r r' : Expr} (h : exactIntegerRewrite x r = some r') :
    r' = r := by
  unfold exactIntegerRewrite at h
  split at h
  · exact (Option.some.inj h).symm
  · cases h

/-- What the no-wrap proof says of the two trees. -/
theorem exactIntegerRewrite_accepted {x r r' : Expr} (h : exactIntegerRewrite x r = some r') :
    ∃ s t, intType s = some t ∧ s ≠ .bool ∧ Accepted s x ∧ Accepted s r ∧ x.dtype = s := by
  unfold exactIntegerRewrite at h
  by_cases hcheck : typedIntegerRewriteIsExact x r = true
  · unfold typedIntegerRewriteIsExact at hcheck
    simp only [Bool.and_eq_true, beq_iff_eq] at hcheck
    obtain ⟨⟨⟨hdt, hbounds⟩, hnw⟩, hnw'⟩ := hcheck
    obtain ⟨hs, t, ht⟩ := integerDtypeBounds_isSome hbounds
    refine ⟨x.dtype, t, ht, hs, ⟨typed_of_noWrap hnw, hnw⟩, ⟨?_, hnw'⟩, rfl⟩
    rw [hdt]
    exact typed_of_noWrap hnw'
  · rw [if_neg hcheck] at h
    cases h

end Svod.Symbolic
