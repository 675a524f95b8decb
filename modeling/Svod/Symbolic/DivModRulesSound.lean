/-
  Svod.Symbolic.DivModRulesSound

  The rewrite rules on floor divisions and remainders keep the value.

  Two rules trust a sound range alone: the range covers what the machine
  computes, wrapped or not.  The others go through the no-wrap proof, so that
  they are facts about exact floor division.  What is left is that a constant
  that a rule writes is the number it computed: `try_int` reads an unsigned
  constant of 64 bits as a signed one.
-/

import Svod.Symbolic.DivModSound
import Svod.Symbolic.DivModRules
import Svod.Symbolic.RecombineSound

namespace Svod.Symbolic

open Svod.Ir Svod.Lib Svod.Symbolic.Expr

variable {mixed : ArithOp → Expr → Expr → Option Expr} {s : ScalarDType} {t : IntType}
  {ρ : Assignment}
variable {op : ArithOp} {b e n original r : Expr} {v : ℤ} {rangeEnd : Leaf → Option Expr}

/-! ## What the machine computes lies in the range -/

theorem machineValue_neg {src : Expr} (ht : intType src.dtype = some t) :
    (neg src).machineValue ρ = t.wrap (-src.machineValue ρ) := by
  simp only [machineValue, ht]

theorem machineValue_binary {a b : Expr} {d : ScalarDType} (ht : intType d = some t) :
    (binary op a b d).machineValue ρ =
      t.wrap (op.toBinaryOp.apply (a.machineValue ρ) (b.machineValue ρ)) := by
  simp only [machineValue, ht]

/-- The range of a typed expression covers its machine value, whether its arithmetic wraps or
    not. -/
theorem machineValue_covered (ht : intType s = some t) (hs : s ≠ .bool) (he : e.Typed s)
    {b : RangeEval.Bounds} (hb : e.range = some b) : Covers s b (· = e.machineValue ρ) := by
  induction e generalizing b with
  | const c =>
    have hc : Accepted s (const c) := ⟨he, rfl⟩
    exact (accepted_exact (ρ := ρ) ht hs hc).covers b hb
  | leaf l =>
    have hl : Accepted s (leaf l) := ⟨he, rfl⟩
    exact (accepted_exact (ρ := ρ) ht hs hl).covers b hb
  | neg src ih =>
    have hd : src.dtype = s := Expr.Typed.dtype_eq he
    unfold Expr.range at hb
    simp only [bind_eq_some, Option.some.injEq] at hb
    obtain ⟨rs, hrs, rfl⟩ := hb
    have hcov : Covers src.dtype
        (RangeEval.computeUnaryRange .neg rs.1 rs.2 (.scalar src.dtype))
        (unaryValues .neg t (· = src.machineValue ρ)) :=
      computeUnaryRange_covers (d := .scalar src.dtype) (t := t) (by rw [hd]; exact ht)
        ((hd.symm ▸ ih he hrs : Covers src.dtype _ _).encloses Iff.rfl)
        fun h => absurd h (by decide)
    rw [hd] at hcov
    rw [hd]
    apply hcov.mono
    rintro v rfl
    exact ⟨_, rfl, machineValue_neg (by rw [hd]; exact ht)⟩
  | binary op a b d iha ihb =>
    obtain ⟨ha, hb', rfl⟩ := he
    unfold Expr.range at hb
    simp only [bind_eq_some] at hb
    obtain ⟨ra, hra, rb, hrb, hc⟩ := hb
    have hop : op.toBinaryOp.isComparison = false := by cases op <;> rfl
    have hand : op.toBinaryOp ≠ .and := by cases op <;> decide
    have hcov := soundBinaryRange_covers (d := .scalar d) hop ht
      (fun hbool => absurd hbool hs) (iha ha hra) (ihb hb' hrb) (fun hb => absurd hb hand) hc
    apply hcov.mono
    rintro v rfl
    exact ⟨_, _, rfl, rfl, machineValue_binary ht⟩

/-- The machine value, when the ends of the range are signed. -/
theorem machineValue_bounds (ht : intType s = some t) (hs : s ≠ .bool) (he : e.Typed s)
    {lo hi : ℤ} (hb : e.range = some (.int lo, .int hi)) :
    SignedType s t ∧ t.Contains lo ∧ t.Contains hi ∧
      lo ≤ e.machineValue ρ ∧ e.machineValue ρ ≤ hi := by
  obtain ⟨l, u, hl, hu, hv⟩ := machineValue_covered (ρ := ρ) ht hs he hb
  obtain ⟨hT, hcl, rfl⟩ := hasType_int ht hl
  obtain ⟨-, hcu, rfl⟩ := hasType_int ht hu
  exact ⟨hT, hcl, hcu, (hv _ rfl).1, (hv _ rfl).2⟩

/-- The exact value of an accepted expression, when the ends of the range are signed. -/
theorem accepted_bounds (ht : intType s = some t) (hs : s ≠ .bool) (he : Accepted s e) {lo hi : ℤ}
    (hb : e.range = some (.int lo, .int hi)) :
    SignedType s t ∧ t.Contains lo ∧ t.Contains hi ∧ lo ≤ e.value ρ ∧ e.value ρ ≤ hi := by
  have h := machineValue_bounds (ρ := ρ) ht hs he.typed hb
  rwa [accepted_machineValue ht hs he] at h

theorem liesBelow_bounds (ht : intType s = some t) (hs : s ≠ .bool) (he : Accepted s e)
    {range : RangeEval.Bounds} {n : ℤ} (hb : e.range = some range) (h : liesBelow range n = true) :
    0 ≤ e.value ρ ∧ e.value ρ < n := by
  unfold liesBelow at h
  split at h
  · next min max =>
    simp only [decide_eq_true_eq] at h
    obtain ⟨-, -, -, hmin, hmax⟩ := accepted_bounds (ρ := ρ) ht hs he hb
    omega
  · cases h

/-! ## Matching -/

theorem byConst_eq_some {e x n : Expr} (h : e.byConst op = some (x, n)) :
    ∃ d, e = binary op x n d ∧ ∃ c, n = const c := by
  unfold byConst at h
  split at h
  · next op' x' n' d =>
    split at h
    · next hop =>
      simp only [Option.some.injEq, Prod.mk.injEq] at h
      obtain ⟨rfl, rfl⟩ := h
      refine ⟨d, by rw [hop.1], ?_⟩
      cases n' with
      | const c => exact ⟨c, rfl⟩
      | leaf l => cases hop.2
      | neg src => cases hop.2
      | binary _ _ _ _ => cases hop.2
    · cases h
  · cases h

theorem mem_operands {e p q : Expr} (h : (p, q) ∈ e.operands op) :
    ∃ d, e = binary op p q d ∨ e = binary op q p d := by
  unfold operands at h
  split at h
  · next op' a b d =>
    split at h
    · next hop =>
      subst hop
      simp only [List.mem_cons, Prod.mk.injEq, List.not_mem_nil, or_false] at h
      rcases h with ⟨rfl, rfl⟩ | ⟨rfl, rfl⟩
      · exact ⟨d, Or.inl rfl⟩
      · exact ⟨d, Or.inr rfl⟩
    · cases h
  · cases h

theorem operands_accepted {e p q : Expr} (h : (p, q) ∈ e.operands op) (he : Accepted s e) :
    Accepted s p ∧ Accepted s q := by
  obtain ⟨d, rfl | rfl⟩ := mem_operands h
  · exact ⟨he.lhs, he.rhs⟩
  · exact ⟨he.rhs, he.lhs⟩

theorem operands_add_value {e p q : Expr} (h : (p, q) ∈ e.operands .add) :
    e.value ρ = p.value ρ + q.value ρ := by
  obtain ⟨d, rfl | rfl⟩ := mem_operands h
  · rfl
  · exact Int.add_comm _ _

theorem operands_mul_value {e p q : Expr} (h : (p, q) ∈ e.operands .mul) :
    e.value ρ = p.value ρ * q.value ρ := by
  obtain ⟨d, rfl | rfl⟩ := mem_operands h
  · rfl
  · exact Int.mul_comm _ _

/-! ## Constants -/

theorem intType_bits (ht : intType s = some t) : t.bits ≤ 32 ∨ t.bits = 64 := by
  cases s <;> simp only [intType, Option.some.injEq, reduceCtorEq] at ht <;> subst ht <;> decide

/-- A constant of an integer type, read by `try_int`: the number itself, unless it is one of the
    upper half of the unsigned type of 64 bits. -/
theorem matchInt_value (ht : intType s = some t) (hn : n.Typed s) (h : n.matchInt = some v) :
    n.operandInt = some (n.value ρ) ∧ v < 2 ^ 63 ∧
      (n.value ρ = v ∨
        v < 0 ∧ 2 ^ 63 ≤ n.value ρ ∧ n.value ρ = v + 2 ^ 64 ∧ t.signed = false ∧ t.bits = 64) := by
  cases n with
  | const c =>
    have hd : c.dtype = s := hn
    change tryInt c.value = some v at h
    have hc : c.value ≠ .invalid := by
      intro hinv
      rw [hinv] at h
      cases h
    obtain ⟨t', ht', hfits, hval⟩ := const_hasType (ρ := ρ) hc
    rw [hd] at ht'
    obtain rfl : t = t' := Option.some.inj (ht.symm.trans ht')
    show integerValue c.value = some ((const c).value ρ) ∧ _
    generalize (const c).value ρ = w at hfits hval ⊢
    have hbits := intType_bits ht
    rw [hval] at h ⊢
    unfold constOf at h ⊢
    rw [IntType.Contains, IntType.min, IntType.max] at hfits
    split at h
    · next hsg =>
      obtain rfl := Option.some.inj h
      rw [if_pos hsg] at hfits ⊢
      have hpow : (2 : ℤ) ^ (t.bits - 1) ≤ 2 ^ 63 := pow_le_pow_right₀ (by decide) (by omega)
      rw [if_pos hsg] at hfits
      exact ⟨rfl, by omega, Or.inl rfl⟩
    · next hsg =>
      rw [if_neg hsg, if_neg hsg] at hfits
      split at h
      · cases h
      · next hbool =>
        rw [if_neg hsg, if_neg hbool]
        obtain rfl : wrapSigned 64 w = v := Option.some.inj h
        rcases lt_or_ge w (2 ^ 63) with hlt | hge
        · have hread : wrapSigned 64 w = w := by
            unfold wrapSigned
            rw [Int.bmod_def]
            omega
          exact ⟨rfl, by omega, Or.inl hread.symm⟩
        · rcases hbits with hsmall | h64
          · have hpow : (2 : ℤ) ^ t.bits ≤ 2 ^ 32 := pow_le_pow_right₀ (by decide) hsmall
            omega
          · rw [h64] at hfits
            have hread : wrapSigned 64 w = w - 2 ^ 64 := by
              unfold wrapSigned
              rw [Int.bmod_def]
              omega
            exact ⟨rfl, by omega, Or.inr ⟨by omega, hge, by omega, by simpa using hsg, h64⟩⟩
  | leaf l => cases h
  | neg src => cases h
  | binary op a b d => cases h

theorem matchInt_nonneg (ht : intType s = some t) (hn : n.Typed s) (h : n.matchInt = some v)
    (hv : 0 ≤ v) : n.value ρ = v := by
  obtain ⟨-, -, hval | ⟨hneg, -⟩⟩ := matchInt_value (ρ := ρ) ht hn h
  · exact hval
  · exact absurd hv (Int.not_le.mpr hneg)

theorem matchInt_signed (hT : SignedType s t) (hn : n.Typed s) (h : n.matchInt = some v) :
    n.value ρ = v := by
  obtain ⟨-, -, hval | ⟨-, -, -, hsg, -⟩⟩ := matchInt_value (ρ := ρ) hT.intType hn h
  · exact hval
  · rw [hT.signed] at hsg
    cases hsg

/-- A signed constant, as the patterns on ranges read it. -/
theorem constValue_int (h : n.constValue = some (.int v)) :
    n.value ρ = v ∧ n.machineValue ρ = v := by
  cases n with
  | const c =>
    have hc : c.value = .int v := Option.some.inj h
    constructor <;> (show c.value.integerValue.getD 0 = v) <;> rw [hc] <;> rfl
  | leaf l => cases h
  | neg src => cases h
  | binary op a b d => cases h

theorem constOfType_value_of_contains (ht : intType s = some t) (hs : s ≠ .bool)
    (hv : t.Contains v) : (constOfType s v).value ρ = v := by
  rw [constOfType_reduced ht hs, IntType.wrap_of_contains hv]

/-- Numbers between zero and a number of the type. -/
theorem contains_of_between {x y : ℤ} (hy : t.Contains y) (h : 0 ≤ x ∧ x ≤ y ∨ y ≤ x ∧ x ≤ 0) :
    t.Contains x := by
  have hzero := t.contains_zero
  unfold IntType.Contains at *
  omega

/-! ## Division -/

/-- The divisor of an accepted division is not zero. -/
theorem Accepted.divisor_ne_zero (ht : intType s = some t) (hs : s ≠ .bool) {a b : Expr}
    {d : ScalarDType} (hop : op = .floorDiv ∨ op = .floorMod) (h : Accepted s (binary op a b d)) :
    b.value ρ ≠ 0 := by
  have hw := h.noWrap
  unfold integerArithmeticDoesNotWrap at hw
  simp only [Bool.and_eq_true] at hw
  have hd : d = s := h.typed.2.2
  rw [hd] at hw
  obtain ⟨lhsMin, lhsMax, rhsMin, rhsMax, -, hrb, hall⟩ := integerBinaryDoesNotWrap_iff ht hs hw.2
  obtain ⟨-, -, hlo, hhi⟩ := (accepted_exact (ρ := ρ) ht hs h.rhs).of_soundIntegerRange ht hs
    h.rhs.typed.dtype_eq hrb
  -- the range of the divisor leaves zero out
  have hzero : ¬ (rhsMin ≤ 0 ∧ rhsMax ≥ 0) := by
    intro hz
    have hnone : none ∈ endResults op lhsMin lhsMax rhsMin rhsMax := by
      rcases hop with rfl | rfl <;> simp only [endResults, if_pos hz, List.mem_singleton]
    obtain ⟨v, hv, -⟩ := hall none hnone
    cases hv
  omega

/-! ## Rules that trust a range -/

theorem modInRange_value (ht : intType s = some t) (hs : s ≠ .bool) (hx : original.Typed s)
    (h : modInRange original = some r) : r.machineValue ρ = original.machineValue ρ := by
  unfold modInRange at h
  simp only [bind_eq_some] at h
  obtain ⟨⟨x, n⟩, hmatch, h⟩ := h
  obtain ⟨d, rfl, -⟩ := byConst_eq_some hmatch
  obtain ⟨hxt, hnt, rfl⟩ := hx
  dsimp only at h
  split at h
  · next min max nInt hrange hn =>
    split at h
    · next hin =>
      obtain rfl := Option.some.inj h
      obtain ⟨-, hlo, hhi, hmin, hmax⟩ := machineValue_bounds (ρ := ρ) ht hs hxt hrange
      rw [machineValue_binary ht, (constValue_int hn).2]
      show _ = t.wrap ((x.machineValue ρ).fmod nInt)
      have hfits : t.Contains (x.machineValue ρ) := contains_of_between hhi (Or.inl (by omega))
      rw [Int.fmod_eq_of_lt (by omega) (by omega), IntType.wrap_of_contains hfits]
    · cases h
  · cases h

theorem divSameBucket_value (ht : intType s = some t) (hs : s ≠ .bool) (hx : original.Typed s)
    (h : divSameBucket original = some r) : r.machineValue ρ = original.machineValue ρ := by
  unfold divSameBucket at h
  simp only [bind_eq_some] at h
  obtain ⟨⟨x, n⟩, hmatch, h⟩ := h
  obtain ⟨d, rfl, -⟩ := byConst_eq_some hmatch
  obtain ⟨hxt, hnt, rfl⟩ := hx
  dsimp only at h
  split at h
  · next min max nInt hrange hn =>
    split at h
    · next hin =>
      obtain rfl := Option.some.inj h
      obtain ⟨-, hlo, hhi, hmin, hmax⟩ := machineValue_bounds (ρ := ρ) ht hs hxt hrange
      rw [machineValue_binary ht, (constValue_int hn).2]
      show (constOfType x.dtype (min / nInt)).value ρ = t.wrap ((x.machineValue ρ).fdiv nInt)
      rw [hxt.dtype_eq, constOfType_reduced ht hs, fdiv_eq_of_ends hin.1 hmin hmax hin.2]
    · cases h
  · cases h

/-! ## Rules behind the no-wrap proof -/

/-- Behind the no-wrap proof a rule is a fact about exact values. -/
theorem value_of_exactIntegerRewrite {original replacement r : Expr}
    (h : exactIntegerRewrite original replacement = some r)
    (hv : ∀ s t, intType s = some t → s ≠ .bool → Accepted s original → Accepted s replacement →
      replacement.value ρ = original.value ρ) :
    r.machineValue ρ = original.machineValue ρ := by
  obtain ⟨s, t, ht, hs, hx, hr, -⟩ := exactIntegerRewrite_accepted h
  rw [exactIntegerRewrite_eq h, accepted_machineValue ht hs hr, accepted_machineValue ht hs hx]
  exact hv s t ht hs hx hr

/-- A loop range runs below its end. -/
def RunsBelowEnd (rangeEnd : Leaf → Option Expr) (ρ : Assignment) : Prop :=
  ∀ l e, rangeEnd l = some e → 0 ≤ ρ.val l ∧ ρ.val l < e.machineValue ρ

theorem rangeModEnd_value (hend : RunsBelowEnd rangeEnd ρ)
    (h : rangeModEnd rangeEnd original = some r) : r.machineValue ρ = original.machineValue ρ := by
  unfold rangeModEnd at h
  split at h
  · next l y d =>
    split at h
    · next hl =>
      refine value_of_exactIntegerRewrite h fun s t ht hs hx _ => ?_
      obtain ⟨hlo, hhi⟩ := hend l y hl
      rw [accepted_machineValue ht hs hx.rhs] at hhi
      exact (Int.fmod_eq_of_lt hlo hhi).symm
    · cases h
  · cases h

theorem rangeDivEnd_value (hend : RunsBelowEnd rangeEnd ρ)
    (h : rangeDivEnd rangeEnd original = some r) : r.machineValue ρ = original.machineValue ρ := by
  unfold rangeDivEnd at h
  split at h
  · next l y d =>
    split at h
    · next hl =>
      refine value_of_exactIntegerRewrite h fun s t ht hs hx _ => ?_
      obtain ⟨hlo, hhi⟩ := hend l y hl
      rw [accepted_machineValue ht hs hx.rhs] at hhi
      rw [constLike_eq hx.typed, constOfType_value_of_contains ht hs t.contains_zero]
      exact (Int.fdiv_eq_zero_of_lt hlo hhi).symm
    · cases h
  · cases h

theorem modDropMultiple_value (h : modDropMultiple mixed original = some r) :
    r.machineValue ρ = original.machineValue ρ := by
  unfold modDropMultiple at h
  simp only [bind_eq_some] at h
  obtain ⟨⟨sum, n⟩, hmatch, h⟩ := h
  obtain ⟨d, rfl, -⟩ := byConst_eq_some hmatch
  obtain ⟨⟨m, b⟩, hsum, h⟩ := List.exists_of_findSome?_eq_some h
  obtain ⟨⟨a, n'⟩, hm, h⟩ := List.exists_of_findSome?_eq_some h
  dsimp only at h
  split at h
  · next hcond =>
    obtain ⟨rfl, -⟩ := hcond
    obtain ⟨replacement, hmod, h⟩ := Option.bind_eq_some_iff.mp h
    refine value_of_exactIntegerRewrite h fun s t ht hs hx _ => ?_
    obtain ⟨rfl, -⟩ := tryMod_typed (operands_accepted hsum hx.lhs).2.typed hx.rhs.typed hmod
    rw [value_floorMod, value_floorMod, operands_add_value hsum, operands_mul_value hm]
    exact (fmod_of_eq_add_mul (Int.add_comm _ _)).symm
  · cases h

theorem modDropMultipleOfThree_value (h : modDropMultipleOfThree mixed original = some r) :
    r.machineValue ρ = original.machineValue ρ := by
  unfold modDropMultipleOfThree at h
  simp only [bind_eq_some] at h
  obtain ⟨⟨sum, n⟩, hmatch, h⟩ := h
  obtain ⟨d, rfl, -⟩ := byConst_eq_some hmatch
  obtain ⟨⟨ab, c⟩, hsum, h⟩ := List.exists_of_findSome?_eq_some h
  obtain ⟨⟨m, b⟩, hab, h⟩ := List.exists_of_findSome?_eq_some h
  obtain ⟨⟨a, n'⟩, hm, h⟩ := List.exists_of_findSome?_eq_some h
  dsimp only at h
  split at h
  · next hn =>
    subst hn
    obtain ⟨bc, hbc, h⟩ := Option.bind_eq_some_iff.mp h
    split at h
    · obtain ⟨replacement, hmod, h⟩ := Option.bind_eq_some_iff.mp h
      refine value_of_exactIntegerRewrite h fun s t ht hs hx _ => ?_
      obtain ⟨habacc, hc⟩ := operands_accepted hsum hx.lhs
      obtain ⟨rfl, hty⟩ := tryAdd_typed (operands_accepted hab habacc).2.typed hc.typed hbc
      obtain ⟨rfl, -⟩ := tryMod_typed hty hx.rhs.typed hmod
      rw [value_floorMod, value_floorMod, value_add, operands_add_value hsum,
        operands_add_value hab, operands_mul_value hm]
      exact (fmod_of_eq_add_mul (k := a.value ρ) (by ring)).symm
    · cases h
  · cases h

theorem divFactorOut_value (h : divFactorOut mixed original = some r) :
    r.machineValue ρ = original.machineValue ρ := by
  unfold divFactorOut at h
  simp only [bind_eq_some] at h
  obtain ⟨⟨sum, n⟩, hmatch, h⟩ := h
  obtain ⟨d, rfl, -⟩ := byConst_eq_some hmatch
  obtain ⟨⟨m, b⟩, hsum, h⟩ := List.exists_of_findSome?_eq_some h
  obtain ⟨⟨a, n'⟩, hm, h⟩ := List.exists_of_findSome?_eq_some h
  dsimp only at h
  split at h
  · next hn =>
    subst hn
    obtain ⟨nInt, hnInt, h⟩ := Option.bind_eq_some_iff.mp h
    split at h
    · cases h
    · next hpos =>
      obtain ⟨range, hrange, h⟩ := Option.bind_eq_some_iff.mp h
      -- the quotient of the whole sum
      have hwhole : ∀ s t, intType s = some t → s ≠ .bool →
          Accepted s (binary .floorDiv sum n' d) → (binary .floorDiv sum n' d).value ρ =
            (b.value ρ).fdiv (n'.value ρ) + a.value ρ ∧ n'.value ρ = nInt := by
        intro s t ht hs hx
        have hval := matchInt_nonneg (ρ := ρ) ht hx.rhs.typed hnInt (by omega)
        refine ⟨?_, hval⟩
        rw [value_floorDiv, operands_add_value hsum, operands_mul_value hm]
        exact fdiv_of_eq_add_mul (by omega) (Int.add_comm _ _)
      split at h
      · next hsmall =>
        refine value_of_exactIntegerRewrite h fun s t ht hs hx _ => ?_
        obtain ⟨hval, hn⟩ := hwhole s t ht hs hx
        obtain ⟨hlo, hhi⟩ := liesBelow_bounds (ρ := ρ) ht hs (operands_accepted hsum hx.lhs).2
          hrange hsmall
        rw [hval, hn, Int.fdiv_eq_zero_of_lt hlo hhi, Int.zero_add]
      · split at h
        · obtain ⟨quotient, hquot, h⟩ := Option.bind_eq_some_iff.mp h
          obtain ⟨replacement, hadd, h⟩ := Option.bind_eq_some_iff.mp h
          refine value_of_exactIntegerRewrite h fun s t ht hs hx _ => ?_
          obtain ⟨hmacc, hb⟩ := operands_accepted hsum hx.lhs
          obtain ⟨rfl, hty⟩ := tryDiv_typed hb.typed hx.rhs.typed hquot
          obtain ⟨rfl, -⟩ := tryAdd_typed (operands_accepted hm hmacc).1.typed hty hadd
          rw [(hwhole s t ht hs hx).1, value_add, value_floorDiv]
          exact Int.add_comm _ _
        · cases h
  · cases h

theorem divOfRounded_value (h : divOfRounded mixed original = some r) :
    r.machineValue ρ = original.machineValue ρ := by
  unfold divOfRounded at h
  split at h
  · next sum n d =>
    obtain ⟨⟨a, product⟩, hsum, h⟩ := List.exists_of_findSome?_eq_some h
    obtain ⟨⟨quotient, n'⟩, hproduct, h⟩ := List.exists_of_findSome?_eq_some h
    dsimp only at h
    split at h
    · next x n'' hquot =>
      obtain ⟨d', rfl, -⟩ := byConst_eq_some hquot
      split at h
      · next hn =>
        obtain ⟨rfl, rfl⟩ := hn
        split at h
        · next min max nInt hrange hnInt =>
          split at h
          · next hin =>
            obtain ⟨replacement, hdiv, h⟩ := Option.bind_eq_some_iff.mp h
            refine value_of_exactIntegerRewrite h fun s t ht hs hx _ => ?_
            obtain ⟨ha, hp⟩ := operands_accepted hsum hx.lhs
            have hxacc := (operands_accepted hproduct hp).1.lhs
            obtain ⟨rfl, -⟩ := tryDiv_typed hxacc.typed hx.rhs.typed hdiv
            obtain ⟨-, -, -, hmin, hmax⟩ := accepted_bounds (ρ := ρ) ht hs ha hrange
            have hn := (constValue_int (ρ := ρ) hnInt).1
            rw [value_floorDiv, value_floorDiv, operands_add_value hsum,
              operands_mul_value hproduct, value_floorDiv,
              fdiv_of_eq_add_mul (by omega) rfl,
              Int.fdiv_eq_zero_of_lt (a := a.value ρ) (by omega) (by omega), Int.zero_add]
          · cases h
        · cases h
      · cases h
    · cases h
  · cases h

/-- No number of the interval has a remainder above the one found. -/
theorem maxRemainder_spec {min max d r v : ℤ} (hd : 0 < d) (h0 : 0 ≤ min)
    (h : maxRemainder min max d = some r) (hmin : min ≤ v) (hmax : v ≤ max) : v % d ≤ r := by
  have hlt : v % d < d := Int.emod_lt_of_pos v hd
  unfold maxRemainder at h
  simp only [Option.bind_eq_bind, Option.bind_eq_some_iff] at h
  obtain ⟨dMinusOne, hdm, width, hw, h⟩ := h
  obtain ⟨rfl, -⟩ := checkedI64_eq_some hdm
  obtain ⟨rfl, -⟩ := checkedI64_eq_some hw
  have hrem : ∀ {x y : ℤ}, 0 ≤ x → checkedRem x d = some y → y = x % d := by
    intro x y hx hy
    unfold checkedRem at hy
    split at hy
    · cases hy
    · rw [← Option.some.inj hy, Int.tmod_eq_emod_of_nonneg hx]
  split at h
  · -- the interval spans a whole cycle
    have := Option.some.inj h
    omega
  · next hnarrow =>
    simp only [Option.bind_eq_some_iff] at h
    obtain ⟨minRem, hminRem, maxRem, hmaxRem, h⟩ := h
    have h₁ := hrem h0 hminRem
    have h₂ := hrem (by omega) hmaxRem
    split at h
    · have := Option.some.inj h
      omega
    · next hord =>
      have h₃ := hrem (by omega) h
      -- both ends lie in one bucket
      have hbucket : min / d = max / d := by
        have e₁ := Int.emod_add_mul_ediv min d
        have e₂ := Int.emod_add_mul_ediv max d
        have hle : min / d ≤ max / d := Int.ediv_le_ediv hd (by omega)
        by_contra hne
        have hmul : d * (min / d + 1) ≤ d * (max / d) :=
          Int.mul_le_mul_of_nonneg_left (by omega) hd.le
        rw [Int.mul_add, Int.mul_one] at hmul
        omega
      have hv : v / d = max / d := by
        have hle₁ : min / d ≤ v / d := Int.ediv_le_ediv hd hmin
        have hle₂ : v / d ≤ max / d := Int.ediv_le_ediv hd hmax
        omega
      have e₁ := Int.emod_add_mul_ediv v d
      have e₂ := Int.emod_add_mul_ediv max d
      rw [hv] at e₁
      omega

theorem divKeepBucket_value (h : divKeepBucket mixed original = some r) :
    r.machineValue ρ = original.machineValue ρ := by
  unfold divKeepBucket at h
  simp only [Option.bind_eq_bind, Option.bind_eq_some_iff] at h
  obtain ⟨⟨sum, d⟩, hmatch, h⟩ := h
  obtain ⟨dt, rfl, -⟩ := byConst_eq_some hmatch
  obtain ⟨⟨x, c⟩, hsum, h⟩ := List.exists_of_findSome?_eq_some h
  simp only [Option.bind_eq_some_iff] at h
  obtain ⟨cInt, hc, dInt, hd, h⟩ := h
  split at h
  · cases h
  · next hpos =>
    split at h
    · next min max hrange =>
      split at h
      · next hmin0 =>
        obtain ⟨maxRem, hmaxRem, h⟩ := Option.bind_eq_some_iff.mp h
        split at h
        · next total htotal =>
          obtain ⟨rfl, -⟩ := checkedI64_eq_some htotal
          split at h
          · next hfits =>
            obtain ⟨replacement, hdiv, h⟩ := Option.bind_eq_some_iff.mp h
            refine value_of_exactIntegerRewrite h fun s t ht hs hx _ => ?_
            obtain ⟨hxacc, hcacc⟩ := operands_accepted hsum hx.lhs
            obtain ⟨rfl, -⟩ := tryDiv_typed hxacc.typed hx.rhs.typed hdiv
            obtain ⟨-, -, -, hmin, hmax⟩ := accepted_bounds (ρ := ρ) ht hs hxacc hrange
            have hcv := matchInt_nonneg (ρ := ρ) ht hcacc.typed hc (by omega)
            have hdv := matchInt_nonneg (ρ := ρ) ht hx.rhs.typed hd (by omega)
            have hrem := maxRemainder_spec (by omega) hmin0 hmaxRem hmin hmax
            have hsplit := Int.emod_add_mul_ediv (x.value ρ) dInt
            have hnonneg := Int.emod_nonneg (x.value ρ) (by omega : dInt ≠ 0)
            rw [value_floorDiv, value_floorDiv, operands_add_value hsum, hcv, hdv]
            -- `x + c` stays in the bucket of `x`
            have hbucket : (x.value ρ + cInt).fdiv dInt = x.value ρ / dInt := by
              apply fdiv_eq_of_bucket (by omega) <;> rw [Int.mul_comm] <;> omega
            rw [hbucket, Int.fdiv_eq_ediv_of_nonneg _ (by omega)]
          · cases h
        · cases h
      · cases h
    · cases h

/-! ## Splitting a constant -/

theorem floorDivmod_spec {c d q r : ℤ} (h : floorDivmod c d = some (q, r)) :
    d ≠ 0 ∧ q = c.fdiv d ∧ r = c.fmod d := by
  unfold floorDivmod at h
  simp only [bind_eq_some] at h
  obtain ⟨q₀, hq₀, r₀, hr₀, h⟩ := h
  unfold ConstValue.checkedDivI64 at hq₀
  unfold ConstValue.checkedRemI64 at hr₀
  split at hq₀
  · cases hq₀
  · next hd =>
    rw [if_neg hd] at hr₀
    obtain rfl := Option.some.inj hq₀
    obtain rfl := Option.some.inj hr₀
    have hd0 : d ≠ 0 := fun hz => hd (Or.inl hz)
    have hsum : c = c.tmod d + c.tdiv d * d := by
      rw [Int.mul_comm]
      exact (Int.tmod_add_mul_tdiv c d).symm
    have habs := (tmod_bounds c hd0).1
    have hspec : ∀ {q' r' : ℤ}, c = r' + q' * d → (0 ≤ r' ∧ r' < d ∨ d < r' ∧ r' ≤ 0) →
        (q', r') = (q, r) → d ≠ 0 ∧ q = c.fdiv d ∧ r = c.fmod d := by
      intro q' r' hc hr heq
      obtain ⟨rfl, rfl⟩ := Prod.mk.inj heq
      obtain ⟨h₁, h₂⟩ := fdiv_fmod_of_eq hc hr
      exact ⟨hd0, h₁.symm, h₂.symm⟩
    split at h
    · next hadj =>
      obtain ⟨q₁, hq₁, h⟩ := Option.bind_eq_some_iff.mp h
      obtain ⟨rfl, -⟩ := checkedI64_eq_some hq₁
      refine hspec ?_ ?_ (Option.some.inj h)
      · rw [Int.sub_mul, Int.one_mul]
        omega
      · have hsign := hadj.2
        rw [ne_eq, decide_eq_decide] at hsign
        omega
    · next hadj =>
      refine hspec hsum ?_ (Option.some.inj h)
      rw [not_and, Decidable.not_not, decide_eq_decide] at hadj
      by_cases hz : c.tmod d = 0
      · omega
      · have := hadj hz
        omega

/-- A split constant is read as the number it is, or reading it as another does no harm: the
    divisor is one or the constant itself, or, for a remainder, divides `2 ^ 64`. -/
def SplitsAsRead (original : Expr) : Prop :=
  ∀ sum d dt x c v m, (x, c) ∈ sum.operands .add → c.operandInt = some v →
    d.operandInt = some m →
    (original = binary .floorDiv sum d dt → v < 2 ^ 63 ∧ m < 2 ^ 63 ∨ m = 1 ∨ m = v ∨ v = 0) ∧
      (original = binary .floorMod sum d dt → v < 2 ^ 63 ∨ m ∣ 2 ^ 64 ∨ 2 ^ 63 ≤ m)

theorem agree_of_bits {a b : ℤ} (h64 : t.bits = 64) (h : b = a + 2 ^ 64) : Agree t a b := by
  unfold Agree modulus
  rw [h64, h]
  exact (Int.add_modEq_right (a := a) (n := 2 ^ 64)).symm

/-- The quotient of a sum whose constant was split, up to the size of the type. -/
theorem split_quotient {x C D c d : ℤ} (hD : D ≠ 0) (hd : d ≠ 0)
    (hc : C = c ∨ t.bits = 64 ∧ C = c + 2 ^ 64)
    (hcase : C = c ∧ D = d ∨ D = 1 ∧ d = 1 ∨ C = D ∧ c = d) :
    Agree t ((x + c.fmod d).fdiv D + c.fdiv d) ((x + C).fdiv D) := by
  have hagree : Agree t c C := by
    rcases hc with rfl | ⟨h64, hC⟩
    · exact Agree.refl _
    · exact agree_of_bits h64 hC
  rcases hcase with ⟨rfl, rfl⟩ | ⟨rfl, rfl⟩ | ⟨rfl, rfl⟩
  · have hsum : x + C = x + C.fmod D + C.fdiv D * D := by
      have := Int.fdiv_mul_add_fmod C D
      omega
    rw [hsum, fdiv_of_eq_add_mul hD rfl]
    exact Agree.refl _
  · rw [Int.fmod_one, Int.fdiv_one, Int.fdiv_one, Int.fdiv_one, Int.add_zero]
    exact (Agree.refl x).add hagree
  · have hshift : x + C = x + 1 * C := by omega
    rw [Int.fmod_self, Int.fdiv_self hd, Int.add_zero, hshift, fdiv_of_eq_add_mul hD rfl]
    exact Agree.refl _

theorem divSplitConst_value (hsplit : SplitsAsRead original)
    (h : divSplitConst mixed original = some r) : r.machineValue ρ = original.machineValue ρ := by
  unfold divSplitConst at h
  simp only [Option.bind_eq_bind, Option.bind_eq_some_iff] at h
  obtain ⟨⟨sum, n⟩, hmatch, h⟩ := h
  obtain ⟨dt, rfl, -⟩ := byConst_eq_some hmatch
  obtain ⟨⟨x, k⟩, hsum, h⟩ := List.exists_of_findSome?_eq_some h
  simp only [Option.bind_eq_some_iff] at h
  obtain ⟨c, hc, d, hd, ⟨q, rem⟩, hqr, h⟩ := h
  obtain ⟨hd0, rfl, rfl⟩ := floorDivmod_spec hqr
  split at h
  · cases h
  · next hkeep =>
    simp only [Option.bind_eq_some_iff] at h
    obtain ⟨shifted, hshifted, quotient, hquotient, replacement, hreplacement, h⟩ := h
    refine value_of_exactIntegerRewrite h fun s t ht hs hx hr => ?_
    obtain ⟨hxacc, hkacc⟩ := operands_accepted hsum hx.lhs
    have hn := hx.rhs.typed
    rw [hn.dtype_eq] at hshifted hreplacement
    obtain ⟨rfl, hty⟩ := tryAdd_typed hxacc.typed (constOfType_typed _) hshifted
    obtain ⟨rfl, hty'⟩ := tryDiv_typed hty hn hquotient
    obtain ⟨rfl, -⟩ := tryAdd_typed hty' (constOfType_typed _) hreplacement
    -- both trees fit, so it is enough that they agree
    refine Agree.eq (t := t) ?_ (accepted_exact ht hs hr).fits (accepted_exact ht hs hx).fits
    have hD : n.value ρ ≠ 0 := Accepted.divisor_ne_zero ht hs (Or.inl rfl) hx
    obtain ⟨hcop, hclt, hcv⟩ := matchInt_value (ρ := ρ) ht hkacc.typed hc
    obtain ⟨hdop, hdlt, hdv⟩ := matchInt_value (ρ := ρ) ht hn hd
    have hcond := (hsplit sum n dt x k _ _ hsum hcop hdop).1 rfl
    have hcase : k.value ρ = c ∧ n.value ρ = d ∨ n.value ρ = 1 ∧ d = 1 ∨
        k.value ρ = n.value ρ ∧ c = d := by
      have hzero : c = 0 → c.fmod d = c := by
        rintro rfl
        exact Int.zero_fmod d
      by_cases hc0 : c = 0
      · exact absurd (hzero hc0) hkeep
      · omega
    have hrem : (constOfType s (c.fmod d)).value ρ = c.fmod d := by
      apply constOfType_value_of_contains ht hs
      rcases hcase with ⟨-, hn⟩ | ⟨-, rfl⟩ | ⟨-, rfl⟩
      · exact fmod_contains (hn ▸ (accepted_exact ht hs hx.rhs).fits) hd0
      · rw [Int.fmod_one]
        exact t.contains_zero
      · rw [Int.fmod_self]
        exact t.contains_zero
    rw [value_add, value_floorDiv, value_add, hrem, constOfType_reduced ht hs, value_floorDiv,
      operands_add_value hsum]
    refine ((Agree.refl _).add (wrap_agree _)).trans (split_quotient hD hd0 ?_ hcase)
    rcases hcv with hcv | ⟨-, -, hcv, -, h64⟩
    · exact Or.inl hcv
    · exact Or.inr ⟨h64, hcv⟩

theorem modSplitConst_value (hsplit : SplitsAsRead original)
    (h : modSplitConst mixed original = some r) : r.machineValue ρ = original.machineValue ρ := by
  unfold modSplitConst at h
  simp only [Option.bind_eq_bind, Option.bind_eq_some_iff] at h
  obtain ⟨⟨sum, n⟩, hmatch, h⟩ := h
  obtain ⟨dt, rfl, -⟩ := byConst_eq_some hmatch
  obtain ⟨⟨x, k⟩, hsum, h⟩ := List.exists_of_findSome?_eq_some h
  simp only [Option.bind_eq_some_iff] at h
  obtain ⟨c, hc, d, hd, h⟩ := h
  split at h
  · cases h
  · next hcond =>
    simp only [Option.bind_eq_some_iff] at h
    obtain ⟨shifted, hshifted, replacement, hreplacement, h⟩ := h
    refine value_of_exactIntegerRewrite h fun s t ht hs hx _ => ?_
    obtain ⟨hxacc, hkacc⟩ := operands_accepted hsum hx.lhs
    have hn := hx.rhs.typed
    rw [hn.dtype_eq] at hshifted
    obtain ⟨rfl, hty⟩ := tryAdd_typed hxacc.typed (constOfType_typed _) hshifted
    obtain ⟨rfl, -⟩ := tryMod_typed hty hn hreplacement
    have hpos : 0 < d := by omega
    have hdv := matchInt_nonneg (ρ := ρ) ht hn hd hpos.le
    obtain ⟨hcop, -, hcv⟩ := matchInt_value (ρ := ρ) ht hkacc.typed hc
    obtain ⟨hdop, hdlt, -⟩ := matchInt_value (ρ := ρ) ht hn hd
    have hread := (hsplit sum n dt x k _ _ hsum hcop hdop).2 rfl
    have hrem : (constOfType s (c % d)).value ρ = c % d := by
      apply constOfType_value_of_contains ht hs
      exact contains_of_between (hdv ▸ (accepted_exact (ρ := ρ) ht hs hx.rhs).fits)
        (Or.inl ⟨Int.emod_nonneg c hpos.ne', (Int.emod_lt_of_pos c hpos).le⟩)
    rw [value_floorMod, value_floorMod, value_add, hrem, operands_add_value hsum, hdv]
    -- the constant read differs from the one meant by a multiple of the divisor
    have hmeant : d ∣ c - k.value ρ := by
      rcases hcv with hcv | ⟨-, hge, hcv, -⟩
      · rw [hcv, Int.sub_self]
        exact Int.dvd_zero d
      · rcases hread with hlt | hdvd | hbig
        · omega
        · rw [hdv] at hdvd
          have heq : c - k.value ρ = -2 ^ 64 := by omega
          rw [heq]
          exact (Int.dvd_neg).mpr hdvd
        · omega
    apply fmod_congr
    have hsplit' : x.value ρ + c % d - (x.value ρ + k.value ρ) =
        (c - k.value ρ) - d * (c / d) := by
      have := Int.emod_add_mul_ediv c d
      omega
    rw [hsplit']
    exact Int.dvd_sub hmeant (Int.dvd_mul_right d _)

/-! ## Negative numerators -/

/-- The quotient from below, by the quotient of the negated number. -/
theorem neg_fdiv_neg_sub {m d : ℤ} (hd : 0 < d) :
    -((-(m - (d - 1))).fdiv d) = m.fdiv d := by
  have hsplit := Int.emod_add_mul_ediv m d
  have hlo := Int.emod_nonneg m hd.ne'
  have hhi := Int.emod_lt_of_pos m hd
  have h : -(m - (d - 1)) = (d - 1 - m % d) + -(m / d) * d := by
    rw [Int.neg_mul, Int.mul_comm]
    omega
  rw [(fdiv_fmod_of_eq h (Or.inl (by omega))).1, Int.fdiv_eq_ediv_of_nonneg m hd.le, Int.neg_neg]

theorem tryNeg_signed (hT : SignedType s t) (he : e.Typed s) (h : tryNeg mixed e = some b) :
    b.Typed s ∧ ∀ ρ, b.value ρ = -e.value ρ := by
  obtain ⟨rfl, hty⟩ := tryMul_typed he (constLike_typed he _) h
  refine ⟨hty, fun ρ => ?_⟩
  rw [value_mul, hT.constLike_exact he (hT.contains_small (by omega) (by omega))]
  omega

theorem divNegative_value (h : divNegative mixed original = some r) :
    r.machineValue ρ = original.machineValue ρ := by
  unfold divNegative at h
  obtain ⟨⟨sum, n⟩, hmatch, h⟩ := Option.bind_eq_some_iff.mp h
  obtain ⟨dt, rfl, -⟩ := byConst_eq_some hmatch
  obtain ⟨⟨x, k⟩, hsum, h⟩ := List.exists_of_findSome?_eq_some h
  obtain ⟨c, hc, h⟩ := Option.bind_eq_some_iff.mp h
  obtain ⟨d, hd, h⟩ := Option.bind_eq_some_iff.mp h
  split at h
  · cases h
  · next hpos =>
    obtain ⟨_, -, h⟩ := Option.bind_eq_some_iff.mp h
    obtain ⟨xRange, hxRange, h⟩ := Option.bind_eq_some_iff.mp h
    obtain ⟨_, -, h⟩ := Option.bind_eq_some_iff.mp h
    obtain ⟨nRange, -, h⟩ := Option.bind_eq_some_iff.mp h
    split at h
    · next xMin xMax nMin nMax =>
      split at h
      · simp only [bind_eq_some] at h
        obtain ⟨dMinusOne, hdm, shifted, hshifted, lowered, hlowered, inner, hinner, quotient,
          hquotient, result, hresult, replacement, hreplacement, h⟩ := h
        obtain ⟨rfl, -⟩ := checkedI64_eq_some hdm
        refine value_of_exactIntegerRewrite h fun s t ht hs hx _ => ?_
        obtain ⟨hxacc, hkacc⟩ := operands_accepted hsum hx.lhs
        have hn := hx.rhs.typed
        obtain ⟨hT, -, -, -, -⟩ := accepted_bounds (ρ := ρ) ht hs hxacc hxRange
        have hcv := matchInt_signed (ρ := ρ) hT hkacc.typed hc
        have hdv := matchInt_signed (ρ := ρ) hT hn hd
        have hcfits := hcv ▸ (accepted_exact (ρ := ρ) ht hs hkacc).fits
        have hdfits := hdv ▸ (accepted_exact (ρ := ρ) ht hs hx.rhs).fits
        have hd0 : 0 < d := by omega
        -- the constants that the rule writes are numbers of the type
        have hrem : (constOfType s (c % d)).value ρ = c % d :=
          constOfType_value_of_contains ht hs (contains_of_between hdfits
            (Or.inl ⟨Int.emod_nonneg c hd0.ne', (Int.emod_lt_of_pos c hd0).le⟩))
        have hlow : (constOfType s (d - 1)).value ρ = d - 1 :=
          constOfType_value_of_contains ht hs (contains_of_between hdfits
            (Or.inl ⟨by omega, by omega⟩))
        have hquot : (constOfType s (c / d)).value ρ = c / d := by
          apply constOfType_value_of_contains ht hs (contains_of_between hcfits _)
          rcases le_or_gt 0 c with hc0 | hc0
          · exact Or.inl ⟨Int.ediv_nonneg hc0 hd0.le, Int.ediv_le_self d hc0⟩
          · refine Or.inr ⟨?_, ?_⟩
            · rw [Int.le_ediv_iff_mul_le hd0]
              have hone : (1 : ℤ) ≤ d := hd0
              have := Int.mul_le_mul_of_nonpos_left hc0.le hone
              omega
            · have := Int.ediv_neg_of_neg_of_pos hc0 hd0
              omega
        rw [hn.dtype_eq] at hshifted hlowered hreplacement
        obtain ⟨rfl, hty₁⟩ := tryAdd_typed (constOfType_typed _) hxacc.typed hshifted
        obtain ⟨rfl, hty₂⟩ := trySub_typed hty₁ (constOfType_typed _) hlowered
        obtain ⟨hty₃, hinnerv⟩ := tryNeg_signed hT hty₂ hinner
        obtain ⟨rfl, hty₄⟩ := tryDiv_typed hty₃ hn hquotient
        obtain ⟨hty₅, hresultv⟩ := tryNeg_signed hT hty₄ hresult
        obtain ⟨rfl, -⟩ := tryAdd_typed hty₅ (constOfType_typed _) hreplacement
        have hminus : ((constOfType s (d - 1)).constLike (-1)).value ρ = -1 :=
          hT.constLike_exact (constOfType_typed _) (hT.contains_small (by omega) (by omega))
        have hm : x.value ρ + c = c % d + x.value ρ + c / d * d := by
          have := Int.emod_add_mul_ediv c d
          rw [Int.mul_comm] at this
          omega
        have hlowv : c % d + x.value ρ + (d - 1) * -1 = c % d + x.value ρ - (d - 1) := by omega
        rw [value_add, hresultv, value_floorDiv, hinnerv, value_add, value_add, value_mul, hrem,
          hlow, hminus, hquot, hdv, hlowv, neg_fdiv_neg_sub hd0, value_floorDiv,
          operands_add_value hsum, hcv, hdv, hm, fdiv_of_eq_add_mul hd0.ne' rfl]
      · cases h
    · cases h

/-! ## Products of constants -/

theorem noWrap_mul_contains (ht : intType s = some t) (hs : s ≠ .bool) {a b : Expr}
    (ha : Accepted s a) (hb : Accepted s b) (h : integerBinaryDoesNotWrap .mul a b s = true) :
    t.Contains (a.value ρ * b.value ρ) := by
  have hprod : Accepted s (binary .mul a b s) := by
    refine ⟨⟨ha.typed, hb.typed, rfl⟩, ?_⟩
    unfold integerArithmeticDoesNotWrap
    rw [ha.noWrap, hb.noWrap, h]
    rfl
  exact (accepted_exact ht hs hprod).fits

theorem productConst_value (ht : intType s = some t) (hs : s ≠ .bool) {a b p : Expr}
    (ha : a.Typed s) (hb : b.Typed s) (hfits : ∀ ρ, t.Contains (a.value ρ * b.value ρ))
    (h : productConst s a b = some p) : p.Typed s ∧ ∀ ρ, p.value ρ = a.value ρ * b.value ρ := by
  unfold productConst at h
  simp only [Option.bind_eq_bind, Option.bind_eq_some_iff] at h
  obtain ⟨x, hx, y, hy, c, ⟨c₀, hc₀, hcast⟩, h⟩ := h
  obtain ⟨w, hw, rfl⟩ := Option.map_eq_some_iff.mp h
  refine ⟨constOfType_typed _, fun ρ => ?_⟩
  have hvalid : ∀ {e : Expr} {v : ConstValue}, e.Typed s → e.constValue = some v → v ≠ .invalid →
      HasType s v (e.value ρ) := by
    intro e v he hv hne
    cases e with
    | const k =>
      obtain rfl : k.value = v := Option.some.inj hv
      obtain rfl : k.dtype = s := he
      exact const_hasType hne
    | leaf l => cases hv
    | neg src => cases hv
    | binary _ _ _ _ => cases hv
  have hxne : x ≠ .invalid := by
    rintro rfl
    cases hc₀
  have hyne : y ≠ .invalid := by
    rintro rfl
    cases x <;> cases hc₀
  have heval : ConstValue.evalBinaryOpTyped .mul x y s = some c := by
    unfold ConstValue.evalBinaryOpTyped ConstValue.evalBinaryOp
    rw [if_neg (not_or.mpr ⟨hxne, hyne⟩)]
    exact Option.bind_eq_some_iff.mpr ⟨c₀, hc₀, hcast⟩
  have hop : BinaryOp.mul.isComparison = false := rfl
  have hty := evalBinaryOpTyped_hasType hop ht (fun hb => absurd hb hs)
    (hvalid ha hx hxne) (hvalid hb hy hyne) heval
  have hwv : w = a.value ρ * b.value ρ := by
    have hint := hty.integerValue
    rw [hw, Option.some.injEq] at hint
    rw [hint]
    exact IntType.wrap_of_contains (hfits ρ)
  rw [hwv, constOfType_value_of_contains ht hs (hfits ρ)]

theorem divDiv_value (h : divDiv mixed original = some r) :
    r.machineValue ρ = original.machineValue ρ := by
  unfold divDiv at h
  simp only [Option.bind_eq_bind, Option.bind_eq_some_iff] at h
  obtain ⟨⟨inner, c⟩, hmatch, ⟨a, b⟩, hinner, h⟩ := h
  obtain ⟨dt, rfl, -⟩ := byConst_eq_some hmatch
  obtain ⟨dt', rfl, -⟩ := byConst_eq_some hinner
  split at h
  · cases h
  · obtain ⟨cInt, hc, h⟩ := Option.bind_eq_some_iff.mp h
    split at h
    · cases h
    · next hpos =>
      split at h
      · next hnowrap =>
        simp only [Option.bind_eq_some_iff] at h
        obtain ⟨product, hproduct, replacement, hreplacement, h⟩ := h
        refine value_of_exactIntegerRewrite h fun s t ht hs hx _ => ?_
        rw [hx.lhs.rhs.typed.dtype_eq] at hnowrap hproduct
        have hcv := matchInt_nonneg (ρ := ρ) ht hx.rhs.typed hc (by omega)
        obtain ⟨hty, hval⟩ := productConst_value ht hs hx.lhs.rhs.typed hx.rhs.typed
          (fun ρ => noWrap_mul_contains ht hs hx.lhs.rhs hx.rhs hnowrap) hproduct
        obtain ⟨rfl, -⟩ := tryDiv_typed hx.lhs.lhs.typed hty hreplacement
        rw [value_floorDiv, value_floorDiv, value_floorDiv, hval, fdiv_fdiv (by omega)]
      · cases h

theorem divAddDiv_value (h : divAddDiv mixed original = some r) :
    r.machineValue ρ = original.machineValue ρ := by
  unfold divAddDiv at h
  obtain ⟨⟨sum, c3⟩, hmatch, h⟩ := Option.bind_eq_some_iff.mp h
  obtain ⟨dt, rfl, -⟩ := byConst_eq_some hmatch
  obtain ⟨⟨inner, c2⟩, hsum, h⟩ := List.exists_of_findSome?_eq_some h
  obtain ⟨⟨a, c1⟩, hinner, h⟩ := Option.bind_eq_some_iff.mp h
  obtain ⟨c2Value, hc2Value, h⟩ := Option.bind_eq_some_iff.mp h
  obtain ⟨c1Int, hc1, h⟩ := Option.bind_eq_some_iff.mp h
  obtain ⟨_, -, h⟩ := Option.bind_eq_some_iff.mp h
  obtain ⟨c3Int, hc3, h⟩ := Option.bind_eq_some_iff.mp h
  obtain ⟨dt', hquotient, -⟩ := byConst_eq_some hinner
  split at h
  · cases h
  · next hpos =>
    obtain ⟨_, -, h⟩ := Option.bind_eq_some_iff.mp h
    obtain ⟨_, -, h⟩ := Option.bind_eq_some_iff.mp h
    obtain ⟨_, -, h⟩ := Option.bind_eq_some_iff.mp h
    split at h
    · cases h
    · split at h
      · next hnowrap =>
        obtain ⟨c2', hc2', h⟩ := Option.bind_eq_some_iff.mp h
        split at h
        · next hnowrap' =>
          simp only [bind_eq_some] at h
          obtain ⟨offset, hoffset, divisor, hdivisor, shifted, hshifted, replacement,
            hreplacement, h⟩ := h
          refine value_of_exactIntegerRewrite h fun s t ht hs hx _ => ?_
          obtain ⟨hiacc, hc2acc⟩ := operands_accepted hsum hx.lhs
          rw [hquotient] at hiacc
          have hc1t := hiacc.rhs.typed
          rw [hc1t.dtype_eq] at hnowrap hnowrap' hoffset hdivisor hc2'
          have hc1v := matchInt_nonneg (ρ := ρ) ht hc1t hc1 (by omega)
          have hc3v := matchInt_nonneg (ρ := ρ) ht hx.rhs.typed hc3 (by omega)
          -- the constant, committed again, is the same constant
          have hsame : ∀ ρ, c2'.value ρ = c2.value ρ := by
            intro ρ
            obtain ⟨w, hw, rfl⟩ := Option.map_eq_some_iff.mp hc2'
            have hwv : c2.value ρ = w := by
              cases c2 with
              | const k =>
                obtain rfl : k.value = c2Value := Option.some.inj hc2Value
                show k.value.integerValue.getD 0 = w
                rw [hw, Option.getD_some]
              | leaf l => cases hc2Value
              | neg src => cases hc2Value
              | binary _ _ _ _ => cases hc2Value
            rw [hwv, constOfType_value_of_contains ht hs]
            exact hwv ▸ (accepted_exact ht hs hc2acc).fits
          have hc2'acc : Accepted s c2' := by
            obtain ⟨w, hw, rfl⟩ := Option.map_eq_some_iff.mp hc2'
            exact ⟨constOfType_typed w, rfl⟩
          obtain ⟨hot, hov⟩ := productConst_value ht hs hc1t hc2acc.typed (fun ρ => by
            rw [← hsame ρ]
            exact noWrap_mul_contains ht hs hiacc.rhs hc2'acc hnowrap') hoffset
          obtain ⟨hdt, hdv⟩ := productConst_value ht hs hc1t hx.rhs.typed
            (fun ρ => noWrap_mul_contains ht hs hiacc.rhs hx.rhs hnowrap) hdivisor
          obtain ⟨rfl, hty⟩ := tryAdd_typed hiacc.lhs.typed hot hshifted
          obtain ⟨rfl, -⟩ := tryDiv_typed hty hdt hreplacement
          have hc10 : c1.value ρ ≠ 0 := by omega
          rw [value_floorDiv, value_add, hov, hdv, value_floorDiv, operands_add_value hsum,
            hquotient, value_floorDiv, ← fdiv_fdiv (by omega),
            fdiv_of_eq_add_mul (r := a.value ρ) (k := c2.value ρ) hc10 (by ring)]
        · cases h
      · cases h

/-! ## Exact quotients -/

/-- An unsigned expression holds no signed constant, so that it is divided by one only. -/
theorem divides_unsigned (ht : intType s = some t) (hsg : ¬ t.signed = true) (he : e.Typed s)
    (h : e.divides mixed v = some b) : v = 1 ∧ b = e := by
  by_cases hv : v = 1
  · subst hv
    unfold divides at h
    rw [if_pos rfl] at h
    exact ⟨rfl, (Option.some.inj h).symm⟩
  · exfalso
    induction e generalizing b with
    | const c =>
      unfold divides at h
      rw [if_neg hv] at h
      split at h
      · cases h
      · simp only [bind_eq_some] at h
        obtain ⟨val, hval, -⟩ := h
        have hd : c.dtype = s := he
        have hint : c.value = .int val := by
          unfold intConst at hval
          dsimp only at hval
          split at hval
          · next w hw => rw [hw, Option.some.inj hval]
          · cases hval
        have hne : c.value ≠ .invalid := by
          rw [hint]
          exact fun hc => by cases hc
        have hty := const_hasType (ρ := .least) hne
        rw [hd, hint] at hty
        exact hsg (hasType_int ht hty).1.signed
    | leaf l =>
      unfold divides at h
      rw [if_neg hv] at h
      split at h <;> cases h
    | neg src _ =>
      unfold divides at h
      rw [if_neg hv] at h
      split at h <;> cases h
    | binary op x y d ihx ihy =>
      unfold divides at h
      rw [if_neg hv] at h
      split at h
      · cases h
      · cases op with
        | add =>
          simp only [bind_eq_some] at h
          obtain ⟨d0, hd0, -⟩ := h
          exact ihx he.1 hd0
        | mul =>
          simp only at h
          split at h
          · next d0 hd0 => exact ihx he.1 hd0
          · split at h
            · next d1 hd1 => exact ihy he.2.1 hd1
            · cases h
        | sub | floorDiv | floorMod => cases h

/-- What is divided by a number, for every integer type. -/
theorem divides_value (ht : intType s = some t) (he : e.Typed s)
    (h : e.divides mixed v = some b) (hn : n.Typed s) (hv : n.matchInt = some v) :
    b.Typed s ∧ ∀ ρ, n.value ρ = v ∧ ∃ q, e.value ρ = v * q ∧ Agree t (b.value ρ) q := by
  by_cases hsg : t.signed = true
  · have hT : SignedType s t := ⟨ht, hsg⟩
    obtain ⟨hb, hval⟩ := divides_spec hT he h
    exact ⟨hb, fun ρ => ⟨matchInt_signed hT hn hv, hval ρ⟩⟩
  · obtain ⟨rfl, rfl⟩ := divides_unsigned ht hsg he h
    refine ⟨he, fun ρ => ⟨matchInt_nonneg ht hn hv (by decide), b.value ρ, ?_, Agree.refl _⟩⟩
    rw [Int.one_mul]

theorem divExact_value (h : divExact mixed original = some r) :
    r.machineValue ρ = original.machineValue ρ := by
  unfold divExact at h
  simp only [bind_eq_some] at h
  obtain ⟨⟨e, n⟩, hmatch, v, hv, b, hb, h⟩ := h
  obtain ⟨dt, rfl, -⟩ := byConst_eq_some hmatch
  refine value_of_exactIntegerRewrite h fun s t ht hs hx hr => ?_
  obtain ⟨hn, q, hq, hagree⟩ := (divides_value ht hx.lhs.typed hb hx.rhs.typed hv).2 ρ
  have hv0 : v ≠ 0 := divides_ne_zero hb
  -- the quotient and the result of the rule both fit the type
  have hquot : (binary .floorDiv e n dt).value ρ = q := by
    rw [value_floorDiv, hq, hn, Int.mul_fdiv_cancel_left q hv0]
  rw [hquot]
  refine hagree.eq (accepted_exact ht hs hr).fits ?_
  rw [← hquot]
  exact (accepted_exact ht hs hx).fits

theorem modDropDivisible_value (h : modDropDivisible mixed original = some r) :
    r.machineValue ρ = original.machineValue ρ := by
  unfold modDropDivisible at h
  simp only [Option.bind_eq_bind, Option.bind_eq_some_iff] at h
  obtain ⟨⟨sum, n⟩, hmatch, h⟩ := h
  obtain ⟨dt, rfl, -⟩ := byConst_eq_some hmatch
  dsimp only at h
  split at h
  · next a b dt' =>
    simp only [Option.bind_eq_some_iff] at h
    obtain ⟨v, hv, h⟩ := h
    split at h
    · next ha =>
      obtain ⟨d, hd⟩ := Option.isSome_iff_exists.mp ha
      obtain ⟨replacement, hmod, h⟩ := Option.bind_eq_some_iff.mp h
      refine value_of_exactIntegerRewrite h fun s t ht hs hx _ => ?_
      obtain ⟨rfl, -⟩ := tryMod_typed hx.lhs.rhs.typed hx.rhs.typed hmod
      obtain ⟨hn, q, hq, -⟩ := (divides_value ht hx.lhs.lhs.typed hd hx.rhs.typed hv).2 ρ
      rw [value_floorMod, value_floorMod, value_add, hq, hn]
      exact (fmod_of_eq_add_mul (k := q) (by ring)).symm
    · split at h
      · next hb =>
        obtain ⟨d, hd⟩ := Option.isSome_iff_exists.mp hb
        obtain ⟨replacement, hmod, h⟩ := Option.bind_eq_some_iff.mp h
        refine value_of_exactIntegerRewrite h fun s t ht hs hx _ => ?_
        obtain ⟨rfl, -⟩ := tryMod_typed hx.lhs.lhs.typed hx.rhs.typed hmod
        obtain ⟨hn, q, hq, -⟩ := (divides_value ht hx.lhs.rhs.typed hd hx.rhs.typed hv).2 ρ
        rw [value_floorMod, value_floorMod, value_add, hq, hn]
        exact (fmod_of_eq_add_mul (k := q) (by ring)).symm
      · cases h
  · cases h

theorem divSubExact_value (h : divSubExact mixed original = some r) :
    r.machineValue ρ = original.machineValue ρ := by
  unfold divSubExact at h
  simp only [Option.bind_eq_bind, Option.bind_eq_some_iff] at h
  obtain ⟨⟨difference, n⟩, hmatch, h⟩ := h
  obtain ⟨dt, rfl, -⟩ := byConst_eq_some hmatch
  dsimp only at h
  split at h
  · next a b dt' =>
    simp only [Option.bind_eq_some_iff] at h
    obtain ⟨v, hv, lhs, hlhs, rhs, hrhs, replacement, hsub, h⟩ := h
    refine value_of_exactIntegerRewrite h fun s t ht hs hx hr => ?_
    obtain ⟨hlt, hlv⟩ := divides_value ht hx.lhs.lhs.typed hlhs hx.rhs.typed hv
    obtain ⟨hrt, hrv⟩ := divides_value ht hx.lhs.rhs.typed hrhs hx.rhs.typed hv
    obtain ⟨hn, q, hq, hagree⟩ := hlv ρ
    obtain ⟨-, q', hq', hagree'⟩ := hrv ρ
    obtain ⟨rfl, -⟩ := trySub_typed hlt hrt hsub
    have hv0 : v ≠ 0 := divides_ne_zero hlhs
    have hquot : (binary .floorDiv (binary .sub a b dt') n dt).value ρ = q - q' := by
      rw [value_floorDiv, value_sub, hq, hq', hn, ← Int.mul_sub, Int.mul_fdiv_cancel_left _ hv0]
    refine Agree.eq (t := t) ?_ (accepted_exact ht hs hr).fits (accepted_exact ht hs hx).fits
    rw [hquot, value_add, value_mul]
    have hneg := hagree'.mul (constLike_agree (ρ := ρ) ht hs hrt (-1))
    have hsum := hagree.add hneg
    have hring : q + q' * -1 = q - q' := by omega
    rwa [hring] at hsum
  · cases h

/-! ## All rules -/

/-- What a rule relies on beyond the ranges of the leaves. -/
structure RuleApplies (mixed : ArithOp → Expr → Expr → Option Expr)
    (order : List Expr → List Expr) (nodeCount : Expr → ℕ) (rangeEnd : Leaf → Option Expr)
    (ρ : Assignment) (rule : Expr → Option Expr) (original : Expr) : Prop where
  /-- A loop range runs below its end. -/
  loops : RunsBelowEnd rangeEnd ρ
  /-- A PARAM that is folded is a multiple of the number it declares. -/
  promise : rule = modFold mixed order nodeCount ∨ rule = divFold mixed order nodeCount →
    ∀ (isMod : Bool) y d l m,
    original = binary (if isMod then .floorMod else .floorDiv) (leaf l) y d →
      l.multipleOf = some m → (m : ℤ) ∣ ρ.val l
  /-- The remainder sums that decide a folded quotient do not wrap. -/
  quotients : rule = modFold mixed order nodeCount ∨ rule = divFold mixed order nodeCount →
    ∀ (isMod : Bool) x y d c,
    original = binary (if isMod then .floorMod else .floorDiv) x y d → y.constInt = some c →
      0 < c → QuotientsExact mixed isMod x c
  /-- The constants that are split are read as the numbers they are. -/
  splits : rule = divSplitConst mixed ∨ rule = modSplitConst mixed → SplitsAsRead original

theorem modFold_value {order : List Expr → List Expr} (hord : ∀ l, (order l).Perm l)
    {nodeCount : Expr → ℕ}
    (happly : RuleApplies mixed order nodeCount rangeEnd ρ (modFold mixed order nodeCount) original)
    (h : modFold mixed order nodeCount original = some r) :
    r.machineValue ρ = original.machineValue ρ := by
  unfold modFold at h
  split at h
  · next x y d =>
    obtain ⟨replacement, hfold, h⟩ := Option.bind_eq_some_iff.mp h
    refine value_of_exactIntegerRewrite h fun s t ht hs hx hr => ?_
    refine foldDivmodGeneral_accepted ht hs hord true hx hr ?_ ?_ hfold
    · exact fun l m hl hm => happly.promise (.inl rfl) true y d l m (by rw [hl]; rfl) hm
    · exact fun c hc hpos => happly.quotients (.inl rfl) true x y d c rfl hc hpos
  · cases h

theorem divFold_value {order : List Expr → List Expr} (hord : ∀ l, (order l).Perm l)
    {nodeCount : Expr → ℕ}
    (happly : RuleApplies mixed order nodeCount rangeEnd ρ (divFold mixed order nodeCount) original)
    (h : divFold mixed order nodeCount original = some r) :
    r.machineValue ρ = original.machineValue ρ := by
  unfold divFold at h
  split at h
  · next x y d =>
    obtain ⟨replacement, hfold, h⟩ := Option.bind_eq_some_iff.mp h
    refine value_of_exactIntegerRewrite h fun s t ht hs hx hr => ?_
    refine foldDivmodGeneral_accepted ht hs hord false hx hr ?_ ?_ hfold
    · exact fun l m hl hm => happly.promise (.inr rfl) false y d l m (by rw [hl]; rfl) hm
    · exact fun c hc hpos => happly.quotients (.inr rfl) false x y d c rfl hc hpos
  · cases h

/-- Every rule on floor divisions and remainders keeps the machine value. -/
theorem divModRules_value (mixed : ArithOp → Expr → Expr → Option Expr)
    (order : List Expr → List Expr) (hord : ∀ l, (order l).Perm l) (nodeCount : Expr → ℕ)
    (rangeEnd : Leaf → Option Expr) (ρ : Assignment) (s : ScalarDType) (t : IntType)
    (original r : Expr) (rule : Expr → Option Expr)
    (hrule : rule ∈ rangeBasedModDivPatterns mixed rangeEnd ++
      advancedDivisionDslPatterns mixed order nodeCount)
    (h : rule original = some r) (hx : original.Typed s) (ht : intType s = some t)
    (hs : s ≠ .bool)
    (happly : RuleApplies mixed order nodeCount rangeEnd ρ rule original) :
    r.machineValue ρ = original.machineValue ρ := by
  simp only [rangeBasedModDivPatterns, advancedDivisionDslPatterns, List.cons_append,
    List.nil_append, List.mem_cons, List.not_mem_nil, or_false] at hrule
  rcases hrule with rfl | rfl | rfl | rfl | rfl | rfl | rfl | rfl | rfl | rfl | rfl | rfl | rfl |
    rfl | rfl | rfl | rfl | rfl | rfl
  · exact rangeModEnd_value happly.loops h
  · exact rangeDivEnd_value happly.loops h
  · exact modInRange_value ht hs hx h
  · exact modDropMultiple_value h
  · exact modDropMultipleOfThree_value h
  · exact divFactorOut_value h
  · exact divSameBucket_value ht hs hx h
  · exact divOfRounded_value h
  · exact divKeepBucket_value h
  · exact divSplitConst_value (happly.splits (.inl rfl)) h
  · exact divNegative_value h
  · exact divDiv_value h
  · exact divExact_value h
  · exact modDropDivisible_value h
  · exact modSplitConst_value (happly.splits (.inr rfl)) h
  · exact modFold_value hord happly h
  · exact divFold_value hord happly h
  · exact divSubExact_value h
  · exact divAddDiv_value h

/-- `(i + 7) // -4` is `(i + -1) // -4 + -2`. -/
theorem divModRules_value_negativeDivisor :
    let i : Expr := leaf ⟨0, .int32, some (0, 10), by decide, none⟩
    let k := constOfType .int32
    let div := fun a b : Expr => binary .floorDiv a b .int32
    let add := fun a b : Expr => binary .add a b .int32
    (add (div (add i (k (-1))) (k (-4))) (k (-2))).machineValue .least =
      (div (add i (k 7)) (k (-4))).machineValue .least := by
  intro i k div add
  have hfour : (k (-4)).constInt = some (-4) := by decide
  have hterms : (add i (k 7)).operands .add = [(i, k 7), (k 7, i)] := rfl
  refine divModRules_value (fun _ _ _ => none) id (fun _ => List.Perm.refl _) (fun _ => 0)
    (fun _ => none) .least .int32 _ (div (add i (k 7)) (k (-4))) _
    (divSplitConst fun _ _ _ => none) (by simp [rangeBasedModDivPatterns]) (by decide +kernel)
    ⟨⟨rfl, rfl, rfl⟩, rfl, rfl⟩ rfl (by decide) ⟨?_, ?_, ?_, ?_⟩
  · intro l e hl
    cases hl
  · intro _ isMod y d l m horig
    injection horig with _ hleaf
    cases hleaf
  · intro _ isMod x y d c horig hc hpos
    injection horig with _ _ hy _
    rw [← hy, hfour] at hc
    have := Option.some.inj hc
    omega
  · intro _ sum d dt x c v m hmem hv hm
    constructor
    · intro horig
      injection horig with _ hsum hd _
      rw [← hsum, hterms] at hmem
      have hm' : m = -4 := by
        rw [← hd, show (k (-4)).operandInt = some (-4) by decide] at hm
        exact (Option.some.inj hm).symm
      simp only [List.mem_cons, Prod.mk.injEq, List.not_mem_nil, or_false] at hmem
      rcases hmem with ⟨-, rfl⟩ | ⟨-, rfl⟩
      · rw [show (k 7).operandInt = some 7 by decide] at hv
        have := Option.some.inj hv
        omega
      · cases hv
    · intro horig
      injection horig with hop
      cases hop

/-- `(i + c) // 10` and `(i + c) % 10` with the unsigned constant `c = 2 ^ 63 + 5`, which is split as
    the negative number `c - 2 ^ 64`; and a PARAM with values in `[8, 100]` that is declared to be a
    multiple of `16`, whose remainder by `16` folds to `0`. -/
theorem divModRules_value_fails :
    (let i : Expr := leaf ⟨0, .uint64, some (0, 10), by decide, none⟩
      let k := constOfType .uint64
      let x := binary .add i (k (2 ^ 63 + 5)) .uint64
      let quotient := binary .floorDiv x (k 10) .uint64
      let remainder := binary .floorMod x (k 10) .uint64
      let q := binary .add (binary .floorDiv (binary .add i (k 7) .uint64) (k 10) .uint64)
        (k (-922337203685477581)) .uint64
      let r := binary .floorMod (binary .add i (k 7) .uint64) (k 10) .uint64
      divSplitConst (fun _ _ _ => none) quotient = some q ∧
        q.machineValue .least ≠ quotient.machineValue .least ∧
        modSplitConst (fun _ _ _ => none) remainder = some r ∧
        r.machineValue .least ≠ remainder.machineValue .least) ∧
      (let p : Expr := leaf ⟨0, .int32, some (8, 100), by decide, some 16⟩
        let c := constOfType .int32 16
        let remainder := binary .floorMod p c .int32
        let r := constOfType .int32 0
        modFold (fun _ _ _ => none) id (fun _ => 0) remainder = some r ∧
          r.machineValue .least ≠ remainder.machineValue .least) := by
  decide +kernel

end Svod.Symbolic
