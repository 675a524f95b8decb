/-
  Svod.Ir.RangeEvalOps

  The interval analysis on leaves, unary operations, casts, `WHERE` and the
  unions of constants and of intervals.
-/

import Svod.Ir.RangeEvalBinary

namespace Svod.Ir

open Svod.Lib ConstValue

variable {t : IntType} {A : ℤ → Prop} {mn mx : ConstValue} {d : DType}

/-! ## Unary operations -/

/-- The results of a unary operation at type `t`. -/
def unaryValues (op : UnaryOp) (t : IntType) (A : ℤ → Prop) (v : ℤ) : Prop :=
  ∃ x, A x ∧ v = t.wrap (op.apply x)

theorem unaryValues_contains {op : UnaryOp} {v : ℤ} (h : unaryValues op t A v) : t.Contains v := by
  obtain ⟨x, -, rfl⟩ := h
  exact t.wrap_contains _

/-- The complement of an unsigned value. -/
theorem wrap_not_uint (ht : t.bits ≤ 64) (u : ℤ) : t.wrap (2 ^ 64 - 1 - u) = t.wrap (-u - 1) := by
  have h : wrapUnsigned 64 (2 ^ 64 - 1 - u) = wrapUnsigned 64 (-u - 1) := by
    unfold wrapUnsigned
    omega
  rw [← t.wrap_wrapUnsigned ht, h, t.wrap_wrapUnsigned ht]

theorem evalUnaryOpTyped_hasType {op : UnaryOp} {sa s : ScalarDType} (ht : intType s = some t)
    (hbool : sa = .bool ↔ s = .bool) {a c : ConstValue} {x : ℤ} (ha : HasType sa a x)
    (h : evalUnaryOpTyped op a s = some c) : HasType s c (t.wrap (op.apply x)) := by
  obtain ⟨c₀, hc₀, hcast⟩ := Option.bind_eq_some_iff.mp h
  have hm := ha.machine
  have hbits := intType_bits_le ht
  rcases ha.kind with ⟨hsa, p, rfl, rfl⟩ | ⟨hsa, -, rfl⟩ | ⟨hsa, -, rfl⟩
  · obtain rfl := hbool.mp hsa
    cases op with
    | neg => cases hc₀
    | not =>
      obtain rfl := Option.some.inj hc₀
      obtain rfl : _ = t := Option.some.inj ht
      cases p
      · obtain rfl := Option.some.inj hcast
        exact hasType_ofBool true
      · obtain rfl := Option.some.inj hcast
        exact hasType_ofBool false
  · have hs : s ≠ .bool := fun h => hsa (hbool.mpr h)
    cases op with
    | neg => cases hc₀
    | not =>
      obtain rfl := Option.some.inj hc₀
      have hmachine : (ConstValue.uint (2 ^ 64 - 1 - x)).Machine := by
        obtain ⟨h₀, h₁⟩ := hm
        exact ⟨by omega, by omega⟩
      obtain ⟨c', hc', hty⟩ := cast_hasType ht hmachine rfl
      obtain rfl : c = c' := Option.some.inj (hcast.symm.trans hc')
      unfold castTo at hty
      rwa [if_neg hs, wrap_not_uint hbits] at hty
  · have hs : s ≠ .bool := fun h => hsa (hbool.mpr h)
    cases op with
    | neg =>
      obtain rfl := Option.some.inj hc₀
      have hmachine : (ConstValue.int (wrapSigned 64 (-x))).Machine :=
        wrapSigned_bounds (by decide) _
      obtain ⟨c', hc', hty⟩ := cast_hasType ht hmachine rfl
      obtain rfl : c = c' := Option.some.inj (hcast.symm.trans hc')
      unfold castTo at hty
      rwa [if_neg hs, t.wrap_wrapSigned hbits] at hty
    | not =>
      obtain rfl := Option.some.inj hc₀
      have hmachine : (ConstValue.int (-x - 1)).Machine := by
        obtain ⟨h₀, h₁⟩ := hm
        exact ⟨by omega, by omega⟩
      obtain ⟨c', hc', hty⟩ := cast_hasType ht hmachine rfl
      obtain rfl : c = c' := Option.some.inj (hcast.symm.trans hc')
      unfold castTo at hty
      rwa [if_neg hs] at hty

/-- The complement runs through a type in the opposite direction. -/
theorem wrap_not_antitone {x y : ℤ} (hx : t.Contains x) (hy : t.Contains y) (hxy : x ≤ y) :
    t.wrap (-y - 1) ≤ t.wrap (-x - 1) := by
  unfold IntType.Contains IntType.min IntType.max at hx hy
  by_cases hs : t.signed = true
  · simp only [hs, if_true] at hx hy
    unfold IntType.wrap
    rw [if_pos hs, if_pos hs, wrapSigned_of_bounds t.pos (by omega) (by omega),
      wrapSigned_of_bounds t.pos (by omega) (by omega)]
    omega
  · simp only [hs, Bool.false_eq_true, if_false] at hx hy
    unfold IntType.wrap
    -- the complement is taken below `2 ^ bits`
    have hcompl : ∀ z : ℤ, 0 ≤ z ∧ z ≤ 2 ^ t.bits - 1 →
        wrapUnsigned t.bits (-z - 1) = 2 ^ t.bits - 1 - z := by
      intro z hz
      unfold wrapUnsigned
      rw [← Int.add_emod_right]
      rw [Int.emod_eq_of_lt (by omega) (by omega)]
      omega
    rw [if_neg hs, if_neg hs, hcompl x hx, hcompl y hy]
    omega

/-- `NOT` on integers, by the complements of the two ends. -/
theorem notRange_covers {sa s : ScalarDType} (ht : intType s = some t)
    (hbool : sa = .bool ↔ s = .bool) {a : RangeEval.Bounds} (ha : Covers sa a A)
    (hin : RangeEval.Within a s) (hmn : evalUnaryOpTyped .not a.2 s = some mn)
    (hmx : evalUnaryOpTyped .not a.1 s = some mx) : Covers s (mn, mx) (unaryValues .not t A) := by
  obtain ⟨l, u, hl, hu, hA⟩ := ha
  refine ⟨_, _, evalUnaryOpTyped_hasType ht hbool hu hmn,
    evalUnaryOpTyped_hasType ht hbool hl hmx, ?_⟩
  intro v hv
  obtain ⟨x, hx, rfl⟩ := hv
  have hxr := hA x hx
  obtain ⟨hlo, hhi⟩ := hin.ends ht hl hu
  have hlt : t.Contains l := ⟨hlo, by omega⟩
  have hut : t.Contains u := ⟨by omega, hhi⟩
  have hxt : t.Contains x := ⟨hlt.1.trans hxr.1, hxr.2.trans hut.2⟩
  exact ⟨wrap_not_antitone hxt hut hxr.2, wrap_not_antitone hlt hxt hxr.1⟩

/-- `Op::Unary`. -/
theorem computeUnaryRange_covers {op : UnaryOp} (ht : intType d.base = some t)
    {a : RangeEval.Bounds} (ha : Encloses d.base a A)
    (hin : op = .not → a.1 = a.2 ∨ RangeEval.Within a d.base) :
    Covers d.base (RangeEval.computeUnaryRange op a.1 a.2 d) (unaryValues op t A) := by
  have hfull : Covers d.base (RangeEval.dtypeBounds d.base) (unaryValues op t A) :=
    Covers.full ht fun v => unaryValues_contains
  unfold RangeEval.computeUnaryRange
  split
  · next value hvalue =>
    -- a constant operand
    simp only [Option.ite_none_right_eq_some] at hvalue
    obtain ⟨x, hx, hA⟩ := ha.2.eq_of_const hvalue.1
    apply (Covers.point (evalUnaryOpTyped_hasType ht ha.1 hx hvalue.2)).mono
    intro v hv
    obtain ⟨x', hx', rfl⟩ := hv
    rw [hA x' hx']
  · next hnone =>
    by_cases hs : d.base = .bool
    · have hint : ¬ d.base.isInt = true := by rw [hs]; decide
      rw [if_neg hint]
      have hcov := ha.2
      rw [ha.1.mpr hs] at hcov
      rw [hs] at ht hfull ⊢
      obtain rfl : _ = t := Option.some.inj ht
      obtain ⟨p, q, rfl, hA⟩ := hcov.bool
      cases op with
      | neg => exact hfull
      | not =>
        show Covers .bool (.bool !q, .bool !p) _
        apply Covers.ofBool
        intro v hv
        obtain ⟨x, hx, rfl⟩ := hv
        obtain ⟨r, rfl, hp, hq⟩ := hA x hx
        refine ⟨!r, ?_, ?_, ?_⟩
        · cases r <;> rfl
        · revert hq; cases r <;> cases q <;> decide
        · revert hp; cases r <;> cases p <;> decide
    · rw [if_pos (isInt_of_ne_bool ht hs)]
      cases op with
      | neg =>
        obtain ⟨l, u, hl, hu, hA⟩ := ha.2
        simp only [hu.integerValue, hl.integerValue]
        apply (Covers.commit ht (r := some (-u, -l)) (S := fun z => ∃ x, A x ∧ z = -x) ?_).mono
        · intro v hv
          obtain ⟨x, hx, rfl⟩ := hv
          exact ⟨-x, ⟨x, hx, rfl⟩, rfl⟩
        · intro lo hi hr z hz
          obtain ⟨rfl, rfl⟩ := Prod.mk.inj (Option.some.inj hr)
          obtain ⟨x, hx, rfl⟩ := hz
          have hxr := hA x hx
          omega
      | not =>
        dsimp only
        split
        · next mn mx hmn hmx =>
          have hwithin : RangeEval.Within a d.base := by
            refine (hin rfl).resolve_left fun hconst => ?_
            rw [hconst, if_pos rfl, hmn] at hnone
            cases hnone
          split
          · exact notRange_covers ht ha.1 ha.2 hwithin hmn hmx
          · exact hfull
        · exact hfull

/-! ## Unions -/

section Union

variable {s : ScalarDType} {a b : ConstValue} {x y : ℤ}

theorem sameKind_refl (s : ScalarDType) : sameKind s s := ⟨Iff.rfl, rfl⟩

theorem minValue_hasType (ha : HasType s a x) (hb : HasType s b y) :
    HasType s (RangeEval.minValue a b) (Min.min x y) := by
  simp only [RangeEval.minValue, compare_hasType ha hb (sameKind_refl s), compare_lt_iff_lt]
  split
  · next h => rwa [min_eq_left h.le]
  · next h => rwa [min_eq_right (not_lt.mp h)]

theorem maxValue_hasType (ha : HasType s a x) (hb : HasType s b y) :
    HasType s (RangeEval.maxValue a b) (Max.max x y) := by
  simp only [RangeEval.maxValue, compare_hasType ha hb (sameKind_refl s), compare_gt_iff_gt]
  split
  · next h => rwa [max_eq_left h.le]
  · next h => rwa [max_eq_right (not_lt.mp h)]

/-- The least of a list of constants of one type. -/
theorem foldl_minValue_hasType {rest : List ConstValue} (hrest : ∀ c ∈ rest, ∃ v, HasType s c v)
    (ha : HasType s a x) :
    ∃ l, HasType s (rest.foldl RangeEval.minValue a) l ∧ l ≤ x ∧
      ∀ c ∈ rest, ∀ v, HasType s c v → l ≤ v := by
  induction rest generalizing a x with
  | nil => exact ⟨x, ha, le_refl x, nofun⟩
  | cons c rest ih =>
    obtain ⟨v, hv⟩ := hrest c (List.mem_cons_self ..)
    obtain ⟨l, hl, hlx, hmem⟩ :=
      ih (fun c hc => hrest c (List.mem_cons_of_mem _ hc)) (minValue_hasType ha hv)
    refine ⟨l, hl, hlx.trans (min_le_left _ _), ?_⟩
    intro c' hc' v' hv'
    rcases List.mem_cons.mp hc' with rfl | hc'
    · obtain rfl := hv.unique hv'
      exact hlx.trans (min_le_right _ _)
    · exact hmem c' hc' v' hv'

/-- The greatest of a list of constants of one type. -/
theorem foldl_maxValue_hasType {rest : List ConstValue} (hrest : ∀ c ∈ rest, ∃ v, HasType s c v)
    (ha : HasType s a x) :
    ∃ u, HasType s (rest.foldl RangeEval.maxValue a) u ∧ x ≤ u ∧
      ∀ c ∈ rest, ∀ v, HasType s c v → v ≤ u := by
  induction rest generalizing a x with
  | nil => exact ⟨x, ha, le_refl x, nofun⟩
  | cons c rest ih =>
    obtain ⟨v, hv⟩ := hrest c (List.mem_cons_self ..)
    obtain ⟨u, hu, hxu, hmem⟩ :=
      ih (fun c hc => hrest c (List.mem_cons_of_mem _ hc)) (maxValue_hasType ha hv)
    refine ⟨u, hu, (le_max_left _ _).trans hxu, ?_⟩
    intro c' hc' v' hv'
    rcases List.mem_cons.mp hc' with rfl | hc'
    · obtain rfl := hv.unique hv'
      exact (le_max_right _ _).trans hxu
    · exact hmem c' hc' v' hv'

/-- `range_union` of constants of one type covers each of them and all between. -/
theorem rangeUnion_hasType {rest : List ConstValue} (hall : ∀ c ∈ a :: rest, ∃ v, HasType s c v) :
    ∃ l u, HasType s (RangeEval.rangeUnion a rest).1 l ∧
      HasType s (RangeEval.rangeUnion a rest).2 u ∧
      ∀ c ∈ a :: rest, ∀ v, HasType s c v → l ≤ v ∧ v ≤ u := by
  obtain ⟨x, hx⟩ := hall a (List.mem_cons_self ..)
  have hrest : ∀ c ∈ rest, ∃ v, HasType s c v := fun c hc => hall c (List.mem_cons_of_mem _ hc)
  obtain ⟨l, hl, hlx, hmin⟩ := foldl_minValue_hasType hrest hx
  obtain ⟨u, hu, hxu, hmax⟩ := foldl_maxValue_hasType hrest hx
  refine ⟨l, u, hl, hu, ?_⟩
  intro c hc v hv
  rcases List.mem_cons.mp hc with rfl | hc
  · obtain rfl := hx.unique hv
    exact ⟨hlx, hxu⟩
  · exact ⟨hmin c hc v hv, hmax c hc v hv⟩

end Union

/-- `VCONST`. -/
theorem soundValuesRange_covers {s : ScalarDType} (ht : intType s = some t)
    {values : List ConstValue} (hv : ∀ c ∈ values, c.Machine ∧ c.cast s = some c)
    {b : RangeEval.Bounds} (h : RangeEval.soundValuesRange values = some b) :
    Covers s b (fun v => ∃ c ∈ values, c.integerValue = some v) := by
  cases values with
  | nil => cases h
  | cons first rest =>
    simp only [RangeEval.soundValuesRange, Option.ite_none_right_eq_some, Option.some.injEq] at h
    obtain ⟨⟨-, hall⟩, rfl⟩ := h
    have htyped : ∀ c ∈ first :: rest, ∃ v, HasType s c v := by
      intro c hc
      apply hasType_of_canonical ht (hv c hc).1 (hv c hc).2
      have hordered := List.all_eq_true.mp hall c hc
      simpa [RangeEval.orderedValue] using hordered
    obtain ⟨l, u, hl, hu, hcov⟩ := rangeUnion_hasType htyped
    refine ⟨l, u, hl, hu, ?_⟩
    intro v hv
    obtain ⟨c, hc, hcv⟩ := hv
    obtain ⟨w, hw⟩ := htyped c hc
    obtain rfl : w = v := Option.some.inj (hw.integerValue.symm.trans hcv)
    exact hcov c hc w hw

/-- One more interval in a union. -/
theorem union_covers {s : ScalarDType} {a b : RangeEval.Bounds} {A B : ℤ → Prop}
    (ha : Covers s a A) (hb : Covers s b B) :
    Covers s (RangeEval.minValue a.1 b.1, RangeEval.maxValue a.2 b.2) (fun v => A v ∨ B v) := by
  obtain ⟨la, ua, hla, hua, hA⟩ := ha
  obtain ⟨lb, ub, hlb, hub, hB⟩ := hb
  refine ⟨_, _, minValue_hasType hla hlb, maxValue_hasType hua hub, ?_⟩
  intro v hv
  rcases hv with hv | hv
  · have h := hA v hv
    omega
  · have h := hB v hv
    omega

/-- An interval with typed ends covers what lies between them. -/
theorem Covers.between {s : ScalarDType} {b : RangeEval.Bounds} {S : ℤ → Prop}
    (h : Covers s b S) : Covers s b (RangeEval.InBounds b) := by
  obtain ⟨l, u, hl, hu, -⟩ := h
  refine ⟨l, u, hl, hu, ?_⟩
  intro v hv
  obtain ⟨lo, hi, hlo, hhi, hr⟩ := hv
  obtain rfl : l = lo := Option.some.inj (hl.integerValue.symm.trans hlo)
  obtain rfl : u = hi := Option.some.inj (hu.integerValue.symm.trans hhi)
  exact hr

/-- `v` lies in the interval of one of the sources. -/
def inSources (sources : List (Option RangeEval.Bounds)) (v : ℤ) : Prop :=
  ∃ b, some b ∈ sources ∧ RangeEval.InBounds b v

/-- The union over the sources of a `STACK`, from the first ones on. -/
theorem foldlM_union_covers {s : ScalarDType} {rest : List (Option RangeEval.Bounds)}
    (hrest : ∀ b, some b ∈ rest → Covers s b (RangeEval.InBounds b)) {acc r : RangeEval.Bounds}
    (hacc : Covers s acc A) (h : rest.foldlM (fun acc src => do
      let s ← src
      some (RangeEval.minValue acc.1 s.1, RangeEval.maxValue acc.2 s.2)) acc = some r) :
    Covers s r (fun v => A v ∨ inSources rest v) := by
  induction rest generalizing acc A with
  | nil =>
    obtain rfl := Option.some.inj h
    apply hacc.mono
    intro v hv
    rcases hv with hv | ⟨b, hb, -⟩
    · exact hv
    · cases hb
  | cons o rest ih =>
    simp only [List.foldlM_cons, bind_eq_some,
      Option.some.injEq] at h
    obtain ⟨acc', ⟨b, rfl, rfl⟩, h⟩ := h
    have hb := hrest b (List.mem_cons_self ..)
    apply (ih (fun b hb => hrest b (List.mem_cons_of_mem _ hb)) (union_covers hacc hb) h).mono
    intro v hv
    rcases hv with hv | ⟨b', hb', hv⟩
    · exact Or.inl (Or.inl hv)
    · rcases List.mem_cons.mp hb' with heq | hb'
      · obtain rfl := Option.some.inj heq
        exact Or.inl (Or.inr hv)
      · exact Or.inr ⟨b', hb', hv⟩

theorem foldlM_union_isSome {rest : List (Option RangeEval.Bounds)} {acc r : RangeEval.Bounds}
    (h : rest.foldlM (fun acc src => do
      let s ← src
      some (RangeEval.minValue acc.1 s.1, RangeEval.maxValue acc.2 s.2)) acc = some r) :
    none ∉ rest := by
  induction rest generalizing acc with
  | nil => exact List.not_mem_nil
  | cons o rest ih =>
    simp only [List.foldlM_cons, bind_eq_some] at h
    obtain ⟨acc', ⟨b, rfl, -⟩, h⟩ := h
    simp only [List.mem_cons, reduceCtorEq, false_or]
    exact ih h

/-- A `STACK` with an interval has sources, and each has an interval. -/
theorem soundSourcesRange_isSome {sources : List (Option RangeEval.Bounds)} {r : RangeEval.Bounds}
    (h : RangeEval.soundSourcesRange sources = some r) : sources ≠ [] ∧ none ∉ sources := by
  cases sources with
  | nil => cases h
  | cons first rest =>
    simp only [RangeEval.soundSourcesRange, bind_eq_some] at h
    obtain ⟨b, rfl, h⟩ := h
    refine ⟨List.cons_ne_nil _ _, ?_⟩
    simp only [List.mem_cons, reduceCtorEq, false_or]
    exact foldlM_union_isSome h

/-- `STACK`: the union covers every source. -/
theorem soundSourcesRange_covers {s : ScalarDType} {sources : List (Option RangeEval.Bounds)}
    (hs : ∀ b, some b ∈ sources → Covers s b (RangeEval.InBounds b)) {r : RangeEval.Bounds}
    (h : RangeEval.soundSourcesRange sources = some r) : Covers s r (inSources sources) := by
  cases sources with
  | nil => cases h
  | cons first rest =>
    simp only [RangeEval.soundSourcesRange, bind_eq_some] at h
    obtain ⟨b, rfl, h⟩ := h
    have hb := hs b (List.mem_cons_self ..)
    apply (foldlM_union_covers (fun b hb => hs b (List.mem_cons_of_mem _ hb)) hb h).mono
    intro v hv
    obtain ⟨b', hb', hv⟩ := hv
    rcases List.mem_cons.mp hb' with heq | hb'
    · obtain rfl := Option.some.inj heq
      exact Or.inl hv
    · exact Or.inr ⟨b', hb', hv⟩

/-! ## Selection -/

/-- The results of `WHERE` at type `t`. -/
def whereValues (t : IntType) (C X Y : ℤ → Prop) (v : ℤ) : Prop :=
  ∃ w, v = t.wrap w ∧ ((∃ k, C k ∧ k ≠ 0) ∧ X w ∨ C 0 ∧ Y w)

/-- A cast is a reduction, except that `bool` tests for zero. -/
theorem castTo_eq_wrap {s : ScalarDType} (ht : intType s = some t) {v : ℤ}
    (hs : s = .bool → t.Contains v) : castTo s t v = t.wrap v := by
  by_cases hb : s = .bool
  · rw [castTo_of_contains ht (hs hb), IntType.wrap_of_contains (hs hb)]
  · exact if_neg hb

/-- A condition with lower end `true` is not zero. -/
theorem Covers.not_zero {c : ConstValue} {C : ℤ → Prop} (h : Covers .bool (.bool true, c) C) :
    ¬ C 0 := by
  intro h0
  obtain ⟨l, u, hl, -, hC⟩ := h
  obtain rfl : 1 = l := Option.some.inj hl.integerValue
  have hle := (hC 0 h0).1
  omega

/-- A condition with both ends `false` is zero. -/
theorem Covers.eq_zero {C : ℤ → Prop} (h : Covers .bool (.bool false, .bool false) C) {k : ℤ}
    (hk : C k) : k = 0 := by
  obtain ⟨l, hl, hC⟩ := h.eq_of_const rfl
  obtain rfl : 0 = l := Option.some.inj hl.integerValue
  exact hC k hk

/-- `WHERE` with constant operands: the selected branch is cast to the dtype. -/
theorem soundWhereRange_const {sx sy : ScalarDType} (ht : intType d.base = some t)
    (hbool : d.base = .bool → sx = .bool ∧ sy = .bool) {c x y r : RangeEval.Bounds}
    {C X Y : ℤ → Prop} (hc : Covers .bool c C) (hx : Covers sx x X) (hy : Covers sy y Y)
    (hconst : c.1 = c.2 ∧ x.1 = x.2 ∧ y.1 = y.2) (h : RangeEval.soundWhereRange c x y d = some r) :
    Covers d.base r (whereValues t C X Y) := by
  obtain ⟨p, q, rfl, -⟩ := hc.bool
  obtain ⟨xv, hxv, hX⟩ := hx.eq_of_const hconst.2.1
  obtain ⟨yv, hyv, hY⟩ := hy.eq_of_const hconst.2.2
  obtain rfl : p = q := ConstValue.bool.inj hconst.1
  have hxt : d.base = .bool → t.Contains xv := fun hb =>
    hxv.contains (by rw [(hbool hb).1, ← hb]; exact ht)
  have hyt : d.base = .bool → t.Contains yv := fun hb =>
    hyv.contains (by rw [(hbool hb).2, ← hb]; exact ht)
  unfold RangeEval.soundWhereRange at h
  rw [if_pos hconst] at h
  simp only [bind_eq_some, Option.ite_none_right_eq_some,
    Option.some.injEq] at h
  obtain ⟨value, hvalue, -, rfl⟩ := h
  cases p with
  | true =>
    obtain ⟨c', hc', hty⟩ := cast_hasType ht hxv.machine hxv.integerValue
    obtain rfl : value = c' := Option.some.inj (hvalue.symm.trans hc')
    rw [castTo_eq_wrap ht hxt] at hty
    apply (Covers.point hty).mono
    intro v hv
    obtain ⟨w, rfl, ⟨-, hw⟩ | ⟨h0, -⟩⟩ := hv
    · rw [hX w hw]
    · exact absurd h0 hc.not_zero
  | false =>
    obtain ⟨c', hc', hty⟩ := cast_hasType ht hyv.machine hyv.integerValue
    obtain rfl : value = c' := Option.some.inj (hvalue.symm.trans hc')
    rw [castTo_eq_wrap ht hyt] at hty
    apply (Covers.point hty).mono
    intro v hv
    obtain ⟨w, rfl, ⟨⟨k, hk, hne⟩, -⟩ | ⟨-, hw⟩⟩ := hv
    · exact absurd (hc.eq_zero hk) hne
    · rw [hY w hw]

/-- `compute_ternary_range`, where every branch that the condition can select has ends of one
    type and values that are not reduced. -/
theorem computeWhereRange_covers {s : ScalarDType} {c x y : RangeEval.Bounds} {C X Y : ℤ → Prop}
    (hc : Covers .bool c C)
    (hx : c ≠ (.bool false, .bool false) → Covers s x X ∧ ∀ w, X w → t.wrap w = w)
    (hy : c ≠ (.bool true, .bool true) → Covers s y Y ∧ ∀ w, Y w → t.wrap w = w) :
    Covers s (RangeEval.computeWhereRange c x y) (whereValues t C X Y) := by
  obtain ⟨p, q, rfl, -⟩ := hc.bool
  have hunion : p ≠ q → Covers s (RangeEval.rangeUnion x.1 [x.2, y.1, y.2])
      (whereValues t C X Y) := by
    intro hpq
    obtain ⟨⟨xl, xu, hxl, hxu, hX⟩, hwx⟩ := hx fun h => hpq (by cases h; rfl)
    obtain ⟨⟨yl, yu, hyl, hyu, hY⟩, hwy⟩ := hy fun h => hpq (by cases h; rfl)
    have hall : ∀ c ∈ [x.1, x.2, y.1, y.2], ∃ v, HasType s c v := by
      intro c hc
      simp only [List.mem_cons, List.not_mem_nil, or_false] at hc
      rcases hc with rfl | rfl | rfl | rfl
      · exact ⟨xl, hxl⟩
      · exact ⟨xu, hxu⟩
      · exact ⟨yl, hyl⟩
      · exact ⟨yu, hyu⟩
    obtain ⟨l, u, hl, hu, hmem⟩ := rangeUnion_hasType hall
    refine ⟨l, u, hl, hu, ?_⟩
    intro v hv
    obtain ⟨w, rfl, ⟨-, hw⟩ | ⟨-, hw⟩⟩ := hv
    · rw [hwx w hw]
      exact ⟨(hmem x.1 (by simp) xl hxl).1.trans (hX w hw).1,
        (hX w hw).2.trans (hmem x.2 (by simp) xu hxu).2⟩
    · rw [hwy w hw]
      exact ⟨(hmem y.1 (by simp) yl hyl).1.trans (hY w hw).1,
        (hY w hw).2.trans (hmem y.2 (by simp) yu hyu).2⟩
  cases p with
  | true =>
    cases q with
    | true =>
      obtain ⟨hcov, hwrap⟩ := hx (by simp)
      apply hcov.mono
      rintro v ⟨w, rfl, ⟨-, hw⟩ | ⟨h0, -⟩⟩
      · rwa [hwrap w hw]
      · exact absurd h0 hc.not_zero
    | false => exact hunion (by decide)
  | false =>
    cases q with
    | true => exact hunion (by decide)
    | false =>
      obtain ⟨hcov, hwrap⟩ := hy (by simp)
      apply hcov.mono
      rintro v ⟨w, rfl, ⟨⟨k, hk, hne⟩, -⟩ | ⟨-, hw⟩⟩
      · exact absurd (hc.eq_zero hk) hne
      · rwa [hwrap w hw]

/-- Values whose interval lies in a type are not reduced. -/
theorem Encloses.wrap_eq {s s' : ScalarDType} (ht : intType s' = some t) {b : RangeEval.Bounds}
    {S : ℤ → Prop} (h : Encloses s b S) (hin : RangeEval.Within b s') {w : ℤ} (hw : S w) :
    t.wrap w = w := by
  obtain ⟨-, l, u, hl, hu, hcov⟩ := h
  have hends := hin.ends ht hl hu
  exact IntType.wrap_of_contains ⟨hends.1.trans (hcov w hw).1, (hcov w hw).2.trans hends.2⟩

/-- `WHERE` on branches of any type. -/
theorem soundWhereRange_encloses (ht : intType d.base = some t) {c x y r : RangeEval.Bounds}
    {C X Y : ℤ → Prop} (hc : Covers .bool c C) (hx : Encloses d.base x X)
    (hy : Encloses d.base y Y) (ho : c.1 = c.2 ∧ x.1 = x.2 ∧ y.1 = y.2 ∨
      (c ≠ (.bool false, .bool false) → RangeEval.Within x d.base) ∧
      (c ≠ (.bool true, .bool true) → RangeEval.Within y d.base) ∧
      (c.1 ≠ c.2 → x.1.wide = y.1.wide)) (h : RangeEval.soundWhereRange c x y d = some r) :
    Encloses d.base r (whereValues t C X Y) := by
  by_cases hconst : c.1 = c.2 ∧ x.1 = x.2 ∧ y.1 = y.2
  · have hbool : d.base = .bool → x.1.wide = .bool ∧ y.1.wide = .bool := fun hd =>
      ⟨hx.1.mpr hd, hy.1.mpr hd⟩
    exact (soundWhereRange_const ht hbool hc hx.2 hy.2 hconst h).encloses Iff.rfl
  obtain ⟨hinX, hinY, hkind⟩ := ho.resolve_left hconst
  unfold RangeEval.soundWhereRange at h
  rw [if_neg hconst] at h
  obtain rfl := Option.some.inj h
  by_cases htrue : c = (.bool true, .bool true)
  · apply Covers.encloses (computeWhereRange_covers hc ?_ fun hne => absurd htrue hne) hx.1
    exact fun hne => ⟨hx.2, fun w => hx.wrap_eq ht (hinX hne)⟩
  · by_cases hfalse : c = (.bool false, .bool false)
    · apply Covers.encloses (computeWhereRange_covers hc (fun hne => absurd hfalse hne) ?_) hy.1
      exact fun hne => ⟨hy.2, fun w => hy.wrap_eq ht (hinY hne)⟩
    · -- undecided: the branches are of one kind
      have hne : c.1 ≠ c.2 := by
        obtain ⟨p, q, rfl, -⟩ := hc.bool
        cases p <;> cases q <;> simp_all
      refine Covers.encloses (computeWhereRange_covers hc (fun hne => ?_) fun hne => ?_) hx.1
      · exact ⟨hx.2, fun w => hx.wrap_eq ht (hinX hne)⟩
      · exact ⟨hkind ‹_› ▸ hy.2, fun w => hy.wrap_eq ht (hinY hne)⟩

/-! ## Casts -/

/-- The results of a cast. -/
def castValues (s : ScalarDType) (t : IntType) (A : ℤ → Prop) (v : ℤ) : Prop :=
  ∃ x, A x ∧ v = castTo s t x

/-- `contains_zero` on ends of an integer type. -/
theorem containsZero_eq {s : ScalarDType} (hs : s ≠ .bool) {l u : ℤ} (hl : HasType s mn l)
    (hu : HasType s mx u) (h : RangeEval.containsZero mn mx = false) : ¬ (l ≤ 0 ∧ 0 ≤ u) := by
  have hm := hl.machine
  rcases hl.kind with ⟨hb, -⟩ | ⟨-, hus, rfl⟩ | ⟨-, hsi, rfl⟩
  · exact absurd hb hs
  · have h' : ¬ l = 0 := by simpa [RangeEval.containsZero] using h
    have h0 : 0 ≤ l := hm.1
    omega
  · rcases hu.kind with ⟨hb, -⟩ | ⟨-, hus, rfl⟩ | ⟨-, -, rfl⟩
    · exact absurd hb hs
    · rw [hsi] at hus
      cases hus
    · simp only [RangeEval.containsZero, Bool.and_eq_false_iff, decide_eq_false_iff_not] at h
      omega

/-- The test for zero of an interval that is not decided. -/
theorem boolTest_covers (h : RangeEval.containsZero mn mx = false → ¬ A 0)
    (ht : intType .bool = some t) :
    Covers .bool (if RangeEval.containsZero mn mx then RangeEval.boolBounds
      else (.bool true, .bool true)) (castValues .bool t A) := by
  obtain rfl : _ = t := Option.some.inj ht
  split
  · apply Covers.ofBool
    intro v hv
    obtain ⟨x, -, rfl⟩ := hv
    refine ⟨decide (x ≠ 0), ?_, Bool.false_le _, Bool.le_true _⟩
    by_cases hx : x = 0 <;> simp [castTo, hx]
  · next hz =>
    apply Covers.ofBool
    intro v hv
    obtain ⟨x, hx, rfl⟩ := hv
    have hne : x ≠ 0 := by
      rintro rfl
      exact h (by simpa using hz) hx
    exact ⟨true, by simp [castTo, hne], le_refl _, le_refl _⟩

/-- `Op::Cast`.  An undecided boolean is not tested for zero. -/
theorem soundCastRange_covers {s : ScalarDType} (ht : intType d.base = some t)
    {a b : RangeEval.Bounds} (ha : Covers s a A) (hbool : s = .bool → d.base = .bool → a.1 = a.2)
    (h : RangeEval.soundCastRange a d = some b) : Covers d.base b (castValues d.base t A) := by
  obtain ⟨mn, mx⟩ := a
  have hcast : RangeEval.castRange mn mx d = some b ∧ (d.base.isInt = true ∧ mn ≠ mx →
      ∀ l u, HasType s mn l → HasType s mx u → t.min ≤ l ∧ u ≤ t.max) := by
    simp only [RangeEval.soundCastRange, Option.bind_eq_bind] at h
    split at h
    · next hd =>
      simp only [integerDtypeBounds_eq ht, Option.bind_some, Option.bind_eq_some_iff] at h
      obtain ⟨lo, hlo, hi, hhi, h⟩ := h
      simp only [Option.ite_none_left_eq_some] at h
      refine ⟨h.2, fun _ l u hl hu => ?_⟩
      obtain rfl : l = lo := Option.some.inj (hl.integerValue.symm.trans hlo)
      obtain rfl : u = hi := Option.some.inj (hu.integerValue.symm.trans hhi)
      omega
    · next hd => exact ⟨h, fun hd' => absurd hd' hd⟩
  obtain ⟨hcast, hfits⟩ := hcast
  unfold RangeEval.castRange at hcast
  by_cases hconst : mn = mx
  · -- a constant operand
    rw [if_pos hconst] at hcast
    simp only [bind_eq_some, Option.ite_none_right_eq_some,
      Option.some.injEq] at hcast
    obtain ⟨value, hvalue, -, rfl⟩ := hcast
    obtain ⟨x, hx, hA⟩ := ha.eq_of_const hconst
    obtain ⟨c', hc', hty⟩ := cast_hasType ht hx.machine hx.integerValue
    obtain rfl : value = c' := Option.some.inj (hvalue.symm.trans hc')
    apply (Covers.point hty).mono
    intro v hv
    obtain ⟨x', hx', rfl⟩ := hv
    rw [hA x' hx']
  · rw [if_neg hconst] at hcast
    obtain ⟨l, u, hl, hu, hA⟩ := ha
    by_cases hd : d.base = .bool
    · -- the test for zero
      have hisBool : d.isBool = true := by simp [DType.isBool, hd]
      rw [if_pos hisBool] at hcast
      obtain rfl := Option.some.inj hcast
      rw [hd] at ht ⊢
      have hs : s ≠ .bool := fun hs => hconst (hbool hs hd)
      apply boolTest_covers _ ht
      intro hz h0
      exact containsZero_eq hs hl hu hz (hA 0 h0)
    · -- both ends fit the target, so nothing is reduced
      have hisBool : ¬ d.isBool = true := by simp [DType.isBool, hd]
      have hint := isInt_of_ne_bool ht hd
      rw [if_neg hisBool, if_pos hint] at hcast
      have hrange := hfits ⟨hint, hconst⟩ l u hl hu
      simp only [RangeEval.castIntegerOrBoolRange, hisBool, if_false, hl.integerValue,
        hu.integerValue, integerDtypeBounds_eq ht, Option.bind_eq_bind, Option.bind_some,
        Bool.false_eq_true] at hcast
      rw [if_neg (by omega)] at hcast
      obtain ⟨hlo, hhi⟩ := commitIntegerMathRange_hasType ht hcast
      refine ⟨l, u, hlo, hhi, ?_⟩
      intro v hv
      obtain ⟨x, hx, rfl⟩ := hv
      have hxr := hA x hx
      have hx' : t.Contains x := ⟨by omega, by omega⟩
      rw [castTo_of_contains ht hx']
      exact hxr

/-! ## Leaves -/

/-- The values of a leaf: inside the declared bounds and the dtype. -/
def declaredValues (t : IntType) (mn mx : ConstValue) (v : ℤ) : Prop :=
  ∃ lo hi, mn.integerValue = some lo ∧ mx.integerValue = some hi ∧ t.Contains v ∧ lo ≤ v ∧ v ≤ hi

/-- `contains_zero` does not miss the zero of declared bounds it can test. -/
theorem containsZero_declared (hm : mn.Machine) (hne : mn ≠ mx) (hz : UOp.ZeroTestable mn mx)
    (h : RangeEval.containsZero mn mx = false) : ¬ declaredValues t mn mx 0 := by
  intro h0
  obtain ⟨lo, hi, hlo, hhi, -, hle, hge⟩ := h0
  rcases hz with heq | ⟨x, y, rfl, rfl⟩ | ⟨x, rfl⟩
  · exact hne heq
  · obtain rfl := Option.some.inj hlo
    obtain rfl := Option.some.inj hhi
    simp only [RangeEval.containsZero, Bool.and_eq_false_iff, decide_eq_false_iff_not] at h
    omega
  · obtain rfl := Option.some.inj hlo
    have h' : ¬ x = 0 := by simpa [RangeEval.containsZero] using h
    have hx : 0 ≤ x := hm.1
    omega

/-- The declared bounds of a boolean leaf. -/
theorem declaredBool_covers (hm : mn.Machine) (hz : UOp.ZeroTestable mn mx) (hd : d.base = .bool)
    (ht : intType .bool = some t) {b : RangeEval.Bounds}
    (h : RangeEval.castIntegerOrBoolRange mn mx d = some b) (hordered : b.1 ≠ .invalid) :
    Covers .bool b (declaredValues t mn mx) := by
  have hisBool : d.isBool = true := by simp [DType.isBool, hd]
  simp only [RangeEval.castIntegerOrBoolRange, hisBool, if_true] at h
  by_cases hconst : mn = mx
  · simp only [hconst, if_true, bind_eq_some,
      Option.some.injEq] at h
    obtain ⟨value, hvalue, rfl⟩ := h
    subst hconst
    cases hx : mn.integerValue with
    | none =>
      -- only the invalid constant has no integer value
      cases mn with
      | invalid => exact absurd (Option.some.inj hvalue).symm hordered
      | int | uint | bool => cases hx
    | some x =>
      obtain ⟨c', hc', hty⟩ := cast_hasType ht hm hx
      obtain rfl : value = c' := Option.some.inj (hvalue.symm.trans hc')
      apply (Covers.point hty).mono
      intro v hv
      obtain ⟨lo, hi, hlo, hhi, hvt, hle, hge⟩ := hv
      obtain rfl : x = lo := Option.some.inj (hx.symm.trans hlo)
      obtain rfl : x = hi := Option.some.inj (hx.symm.trans hhi)
      obtain rfl : v = x := by omega
      exact (castTo_of_contains ht hvt).symm
  · rw [if_neg hconst] at h
    obtain rfl := Option.some.inj h
    apply (boolTest_covers (fun hz0 => containsZero_declared hm hconst hz hz0) ht).mono
    intro v hv
    obtain ⟨-, -, -, -, hvt, -⟩ := id hv
    exact ⟨v, hv, (castTo_of_contains ht hvt).symm⟩

/-- `DEFINE_VAR` and scalar `PARAM`. -/
theorem declared_covers (hm : mn.Machine) (ht : intType d.base = some t)
    (hz : d.base = .bool → UOp.ZeroTestable mn mx) {b : RangeEval.Bounds}
    (h : (RangeEval.normalizeDeclaredBounds mn mx d).bind RangeEval.ifOrdered = some b) :
    Covers d.base b (declaredValues t mn mx) := by
  obtain ⟨b', hb', h⟩ := Option.bind_eq_some_iff.mp h
  simp only [RangeEval.ifOrdered, Option.ite_none_right_eq_some, Option.some.injEq] at h
  obtain ⟨hordered, rfl⟩ := h
  by_cases hd : d.base = .bool
  · have hisBool : d.isBool = true := by simp [DType.isBool, hd]
    simp only [RangeEval.normalizeDeclaredBounds, hisBool, Bool.or_true, if_true,
      RangeEval.normalizeDeclaredIntegerBounds] at hb'
    rw [hd] at ht ⊢
    apply declaredBool_covers hm (hz hd) hd ht hb'
    rintro hinvalid
    simp [RangeEval.orderedRange, RangeEval.orderedValue, hinvalid] at hordered
  · have hisBool : ¬ d.isBool = true := by simp [DType.isBool, hd]
    have hint := isInt_of_ne_bool ht hd
    simp only [RangeEval.normalizeDeclaredBounds, hint, Bool.true_or, if_true,
      RangeEval.normalizeDeclaredIntegerBounds, hisBool, if_false, integerDtypeBounds_eq ht,
      Option.bind_eq_bind, Option.bind_some, Option.bind_eq_some_iff, Bool.false_eq_true] at hb'
    obtain ⟨lo, hlo, hi, hhi, hb'⟩ := hb'
    obtain ⟨hl, hu⟩ := commitIntegerMathRange_hasType ht hb'
    refine ⟨_, _, hl, hu, ?_⟩
    intro v hv
    obtain ⟨lo', hi', hlo', hhi', hvt, hle, hge⟩ := hv
    obtain rfl : lo = lo' := Option.some.inj (hlo.symm.trans hlo')
    obtain rfl : hi = hi' := Option.some.inj (hhi.symm.trans hhi')
    exact ⟨max_le hle hvt.1, le_min hge hvt.2⟩

/-- The zero of a type has the value zero. -/
theorem zero_hasType {s : ScalarDType} (ht : intType s = some t) {c : ConstValue}
    (h : (ConstValue.zero s).cast s = some c) : HasType s c 0 := by
  have hvalue : (ConstValue.zero s).Machine ∧ (ConstValue.zero s).integerValue = some 0 := by
    cases s <;> simp [ConstValue.zero, Machine, integerValue]
  obtain ⟨c', hc', hty⟩ := cast_hasType ht hvalue.1 hvalue.2
  obtain rfl : c = c' := Option.some.inj (h.symm.trans hc')
  have hwrap : t.wrap 0 = 0 := by simp [IntType.wrap, wrapSigned, wrapUnsigned]
  have hcast : castTo s t 0 = 0 := by simp [castTo, hwrap]
  rwa [hcast] at hty

/-- `RANGE` and `SPECIAL`: from zero to below the end. -/
theorem zeroToTypedEndMinusOne_covers {s : ScalarDType} {stop : RangeEval.Bounds} {N : ℤ → Prop}
    (hs : Covers s stop N) (ht : intType d.base = some t) {b : RangeEval.Bounds}
    (h : RangeEval.zeroToTypedEndMinusOne stop.2 d = some b) :
    Covers d.base b (fun v => ∃ n, N n ∧ 0 ≤ v ∧ v ≤ n - 1) := by
  obtain ⟨l, u, -, hu, hN⟩ := hs
  simp only [RangeEval.zeroToTypedEndMinusOne, hu.integerValue, integerDtypeBounds_eq ht,
    Option.bind_eq_bind, Option.bind_some, Option.ite_none_left_eq_some,
    Option.bind_eq_some_iff, Option.some.injEq] at h
  obtain ⟨hrange, lo, hlo, hi, hhi, rfl⟩ := h
  have hzero := zero_hasType ht hlo
  refine ⟨0, u - 1, hzero, makeValue_hasType ht ⟨by omega, by omega⟩ hhi, ?_⟩
  intro v hv
  obtain ⟨n, hn, h0, hle⟩ := hv
  have hnr := hN n hn
  omega

end Svod.Ir
