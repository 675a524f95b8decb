/-
  Svod.Symbolic.FactorSound

  What the factor helpers return.  A constant is reduced to its type when it is
  built, so a quotient is known up to a multiple of the size of the type; in an
  accepted tree it is the exact one.
-/

import Svod.Lib.FloorDiv
import Svod.Symbolic.Exact
import Svod.Symbolic.Factor

namespace Svod.Symbolic

open Svod.Ir Svod.Lib Svod.Symbolic.Expr

variable {mixed : ArithOp → Expr → Expr → Option Expr} {s : ScalarDType} {t : IntType}
  {ρ : Assignment}
variable {a b e result : Expr} {v : ℤ} {c : Const} {factors : List Expr}

/-! ## Reduction to a type -/

/-- The number of values of a type. -/
def modulus (t : IntType) : ℤ := 2 ^ t.bits

/-- Equal up to a multiple of the size of the type. -/
def Agree (t : IntType) (a b : ℤ) : Prop := Int.ModEq (modulus t) a b

theorem Agree.refl (a : ℤ) : Agree t a a := Int.ModEq.refl a

theorem Agree.add {a b c d : ℤ} (h₁ : Agree t a b) (h₂ : Agree t c d) : Agree t (a + c) (b + d) :=
  Int.ModEq.add h₁ h₂

theorem Agree.mul {a b c d : ℤ} (h₁ : Agree t a b) (h₂ : Agree t c d) : Agree t (a * c) (b * d) :=
  Int.ModEq.mul h₁ h₂

theorem Agree.sub {a b c d : ℤ} (h₁ : Agree t a b) (h₂ : Agree t c d) : Agree t (a - c) (b - d) :=
  Int.ModEq.sub h₁ h₂

theorem Agree.trans {a b c : ℤ} (h₁ : Agree t a b) (h₂ : Agree t b c) : Agree t a c :=
  Int.ModEq.trans h₁ h₂

theorem wrap_agree (v : ℤ) : Agree t (t.wrap v) v := by
  unfold Agree modulus IntType.wrap
  split
  · unfold wrapSigned
    have h : v.bmod (2 ^ t.bits) % ((2 ^ t.bits : ℕ) : ℤ) = v % ((2 ^ t.bits : ℕ) : ℤ) :=
      Int.bmod_emod
    push_cast at h
    exact h
  · unfold wrapUnsigned
    exact Int.mod_modEq v _

/-- Two values of the type that agree are equal. -/
theorem Agree.eq {a b : ℤ} (h : Agree t a b) (ha : t.Contains a) (hb : t.Contains b) : a = b := by
  have hpow : (2 : ℤ) ^ t.bits = 2 * 2 ^ (t.bits - 1) := by
    rw [← pow_succ', Nat.sub_add_cancel t.pos]
  have hpos : (0 : ℤ) < 2 ^ (t.bits - 1) := by positivity
  have hdvd : (2 ^ t.bits : ℤ) ∣ b - a := Int.ModEq.dvd h
  obtain ⟨k, hk⟩ := hdvd
  have hlt : |b - a| < 2 ^ t.bits := by
    unfold IntType.Contains IntType.min IntType.max at ha hb
    rw [abs_lt]
    split at ha
    · next hsg =>
      simp only [if_pos hsg] at ha hb
      omega
    · next hsg =>
      simp only [if_neg hsg] at ha hb
      omega
  have hk0 : k = 0 := by
    by_contra hne
    have h1 : 1 ≤ |k| := Int.one_le_abs hne
    have habs : |b - a| = 2 ^ t.bits * |k| := by
      rw [hk, abs_mul, abs_of_pos (by positivity : (0 : ℤ) < 2 ^ t.bits)]
    have : (2 : ℤ) ^ t.bits * 1 ≤ 2 ^ t.bits * |k| :=
      Int.mul_le_mul_of_nonneg_left h1 (by positivity)
    omega
  rw [hk0] at hk
  omega

/-! ## Construction -/

theorem tryBinary_typed {op : ArithOp} (ha : a.Typed s) (hb : b.Typed s)
    (h : tryBinary mixed op a b = some e) : e = binary op a b s ∧ e.Typed s := by
  unfold tryBinary at h
  rw [ha.dtype_eq, hb.dtype_eq, if_pos rfl] at h
  cases h
  exact ⟨rfl, ha, hb, rfl⟩

theorem tryAdd_typed (ha : a.Typed s) (hb : b.Typed s) (h : tryAdd mixed a b = some e) :
    e = binary .add a b s ∧ e.Typed s :=
  tryBinary_typed ha hb h

theorem tryMul_typed (ha : a.Typed s) (hb : b.Typed s) (h : tryMul mixed a b = some e) :
    e = binary .mul a b s ∧ e.Typed s :=
  tryBinary_typed ha hb h

theorem tryDiv_typed (ha : a.Typed s) (hb : b.Typed s) (h : tryDiv mixed a b = some e) :
    e = binary .floorDiv a b s ∧ e.Typed s := by
  unfold tryDiv at h
  split at h
  · cases h
  · exact tryBinary_typed ha hb h

theorem tryMod_typed (ha : a.Typed s) (hb : b.Typed s) (h : tryMod mixed a b = some e) :
    e = binary .floorMod a b s ∧ e.Typed s := by
  unfold tryMod at h
  split at h
  · cases h
  · exact tryBinary_typed ha hb h

theorem constOfType_typed (v : ℤ) : (constOfType s v).Typed s := rfl

theorem constLike_eq (he : e.Typed s) (v : ℤ) : e.constLike v = constOfType s v := by
  have h := he.dtype_eq
  subst h
  rfl

theorem constLike_typed (he : e.Typed s) (v : ℤ) : (e.constLike v).Typed s := by
  rw [constLike_eq he]
  exact constOfType_typed v

theorem trySub_typed (ha : a.Typed s) (hb : b.Typed s) (h : trySub mixed a b = some e) :
    e = binary .add a (binary .mul b (b.constLike (-1)) s) s ∧ e.Typed s := by
  unfold trySub at h
  rw [ha.dtype_eq, hb.dtype_eq, if_pos rfl] at h
  simp only [bind_eq_some] at h
  obtain ⟨negated, hneg, hadd⟩ := h
  obtain ⟨rfl, htn⟩ := tryMul_typed hb (constLike_typed hb (-1)) hneg
  exact tryAdd_typed ha htn hadd

/-! ## Signed types -/

/-- A range whose ends are signed is one of a signed type. -/
structure SignedType (s : ScalarDType) (t : IntType) : Prop where
  intType : intType s = some t
  signed : t.signed = true

/-- The magnitude of the least value of a signed type. -/
def half (t : IntType) : ℤ := 2 ^ (t.bits - 1)

namespace SignedType

variable (hT : SignedType s t)

include hT

theorem ne_bool : s ≠ .bool := by
  rintro rfl
  have h := hT.intType
  simp only [Ir.intType, Option.some.injEq] at h
  have hsg := hT.signed
  rw [← h] at hsg
  cases hsg

theorem bits : 8 ≤ t.bits ∧ t.bits ≤ 64 := by
  have h := hT.intType
  have hb := hT.ne_bool
  cases s <;> simp only [Ir.intType, reduceCtorEq, Option.some.injEq] at h <;> subst h <;> simp at hb ⊢

theorem half_bounds : 128 ≤ half t ∧ half t ≤ 2 ^ 63 := by
  obtain ⟨hlo, hhi⟩ := hT.bits
  unfold half
  constructor
  · calc (128 : ℤ) = 2 ^ 7 := by norm_num
      _ ≤ 2 ^ (t.bits - 1) := pow_le_pow_right₀ (by norm_num) (by omega)
  · exact pow_le_pow_right₀ (by norm_num) (by omega)

theorem contains_iff {x : ℤ} : t.Contains x ↔ -half t ≤ x ∧ x < half t := by
  unfold IntType.Contains IntType.min IntType.max half
  rw [if_pos hT.signed, if_pos hT.signed]
  omega

/-- A small number is a value of the type. -/
theorem contains_small {x : ℤ} (hlo : -2 ≤ x) (hhi : x ≤ 2) : t.Contains x := by
  have h := hT.half_bounds
  exact hT.contains_iff.mpr ⟨by omega, by omega⟩

theorem contains_between {x z : ℤ} (hx : t.Contains x) (hlo : 0 ≤ z) (hhi : z ≤ x) :
    t.Contains z := by
  rw [hT.contains_iff] at hx ⊢
  have h := hT.half_bounds
  omega

/-- The quotient of a value of the type is one, unless the divisor is `-1`. -/
theorem contains_quotient {x v b : ℤ} (hx : t.Contains x) (hv : v ≠ 0) (hv' : v ≠ -1)
    (h : x = v * b) : t.Contains b := by
  rw [hT.contains_iff] at hx ⊢
  have hN := hT.half_bounds
  rcases lt_or_gt_of_ne hv with hneg | hpos
  · rcases le_or_gt 0 b with hb | hb
    · have : v * b ≤ -2 * b := Int.mul_le_mul_of_nonneg_right (by omega) hb
      omega
    · have : -2 * b ≤ v * b := Int.mul_le_mul_of_nonpos_right (by omega) hb.le
      omega
  · rcases le_or_gt 0 b with hb | hb
    · have : 1 * b ≤ v * b := Int.mul_le_mul_of_nonneg_right (by omega) hb
      omega
    · have : v * b ≤ 1 * b := Int.mul_le_mul_of_nonpos_right (by omega) hb.le
      omega

theorem constOf_eq (v : ℤ) : constOf t v = .int v := by
  unfold constOf
  rw [if_pos hT.signed]

theorem not_float : s.isFloat = false := by
  have h := hT.intType
  cases s <;> simp only [Ir.intType, reduceCtorEq] at h <;> rfl

/-- The magnitude of the least value is reduced to the least value. -/
theorem wrap_half : t.wrap (half t) = -half t := by
  have hN := hT.half_bounds
  have ha : Agree t (-half t) (half t) := by
    unfold Agree modulus
    apply (Int.modEq_iff_dvd).mpr
    refine ⟨1, ?_⟩
    unfold half
    have hp : (2 : ℤ) ^ t.bits = 2 * 2 ^ (t.bits - 1) := by
      rw [← pow_succ', Nat.sub_add_cancel t.pos]
    omega
  have hmin : t.Contains (-half t) := hT.contains_iff.mpr ⟨by omega, by omega⟩
  exact ((wrap_agree (half t)).trans ha.symm).eq (t.wrap_contains _) hmin

/-- A constant holds its number reduced to the type. -/
theorem committed_eq (v : ℤ) : committed s v = .int (t.wrap v) := by
  unfold committed
  rw [hT.intType]
  dsimp only
  rw [hT.constOf_eq]
  unfold castTo
  rw [if_neg hT.ne_bool]

theorem constOfType_value (v : ℤ) : (constOfType s v).value ρ = t.wrap v := by
  show (committed s v).integerValue.getD 0 = t.wrap v
  rw [hT.committed_eq]
  rfl

theorem constLike_value (he : e.Typed s) (v : ℤ) : (e.constLike v).value ρ = t.wrap v := by
  rw [constLike_eq he, hT.constOfType_value]

theorem constLike_exact (he : e.Typed s) (hv : t.Contains v) : (e.constLike v).value ρ = v := by
  rw [hT.constLike_value he, IntType.wrap_of_contains hv]

/-- The number of a constant is a value of its type. -/
theorem const_int (hc : c.dtype = s) :
    c.value = .invalid ∨ ∃ v, c.value = .int v ∧ t.Contains v := by
  have h := c.committed
  unfold isCommitted at h
  rw [hc, hT.intType] at h
  cases hv : c.value.integerValue with
  | none =>
    rw [hv] at h
    exact Or.inl (by simpa using h)
  | some v =>
    rw [hv] at h
    simp only [Bool.and_eq_true, decide_eq_true_eq, beq_iff_eq] at h
    rw [hT.constOf_eq] at h
    exact Or.inr ⟨v, h.2, h.1⟩

theorem intConst_cases (he : e.Typed s) (h : intConst e = some v) :
    ∃ c, e = const c ∧ c.dtype = s ∧ c.value = .int v ∧ t.Contains v := by
  cases e with
  | const c =>
    rcases hT.const_int (show c.dtype = s from he) with hc | ⟨w, hw, hcw⟩
    · unfold intConst at h
      simp only [hc] at h
      cases h
    · unfold intConst at h
      simp only [hw, Option.some.injEq] at h
      subst h
      exact ⟨c, rfl, he, hw, hcw⟩
  | leaf l => cases h
  | neg src => cases h
  | binary op a b d => cases h

omit hT in
theorem const_value (h : c.value = .int v) : (const c).value ρ = v := by
  unfold value
  rw [h]
  rfl

theorem intConst_value (he : e.Typed s) (h : intConst e = some v) : e.value ρ = v := by
  obtain ⟨c, rfl, _, hc, _⟩ := hT.intConst_cases he h
  exact const_value hc

end SignedType

/-! ## Division by a number -/

theorem gcd_nonneg (a b : ℤ) : 0 ≤ gcd a b := by
  unfold gcd
  split
  · omega
  · exact Int.natCast_nonneg _

section

variable (hT : SignedType s t)

include hT

/-- What is divided by a number is the number times a value that the quotient agrees with. -/
theorem divides_spec (he : e.Typed s) (h : e.divides mixed v = some b) :
    b.Typed s ∧ ∀ ρ : Assignment, ∃ q, e.value ρ = v * q ∧ Agree t (b.value ρ) q := by
  induction e generalizing b with
  | const c =>
    unfold divides at h
    split at h
    · next hv =>
      cases h
      exact ⟨he, fun ρ => ⟨_, by rw [hv, one_mul], Agree.refl _⟩⟩
    · split at h
      · cases h
      · next hv0 =>
        simp only [bind_eq_some] at h
        obtain ⟨val, hval, rem, hrem, h⟩ := h
        unfold checkedRem at hrem
        split at hrem
        · cases hrem
        · cases hrem
          split at h
          · next hr =>
            cases h
            rw [show c.dtype = s from he]
            refine ⟨constOfType_typed _, fun ρ => ⟨val.tdiv v, ?_, ?_⟩⟩
            · rw [hT.intConst_value he hval]
              exact (Int.mul_tdiv_cancel' (Int.dvd_of_tmod_eq_zero hr)).symm
            · rw [hT.constOfType_value]
              exact wrap_agree _
          · cases h
  | leaf l =>
    unfold divides at h
    split at h
    · next hv =>
      cases h
      exact ⟨he, fun ρ => ⟨_, by rw [hv, one_mul], Agree.refl _⟩⟩
    · split at h <;> cases h
  | neg src _ =>
    unfold divides at h
    split at h
    · next hv =>
      cases h
      exact ⟨he, fun ρ => ⟨_, by rw [hv, one_mul], Agree.refl _⟩⟩
    · split at h <;> cases h
  | binary op x y d ihx ihy =>
    obtain ⟨hx, hy, hd⟩ := he
    unfold divides at h
    split at h
    · next hv =>
      cases h
      exact ⟨⟨hx, hy, hd⟩, fun ρ => ⟨_, by rw [hv, one_mul], Agree.refl _⟩⟩
    · split at h
      · cases h
      · cases op with
        | add =>
          simp only [bind_eq_some] at h
          obtain ⟨d0, h0, d1, h1, hadd⟩ := h
          obtain ⟨ht0, hq0⟩ := ihx hx h0
          obtain ⟨ht1, hq1⟩ := ihy hy h1
          obtain ⟨rfl, hty⟩ := tryAdd_typed ht0 ht1 hadd
          refine ⟨hty, fun ρ => ?_⟩
          obtain ⟨q0, hq0, ha0⟩ := hq0 ρ
          obtain ⟨q1, hq1, ha1⟩ := hq1 ρ
          exact ⟨q0 + q1, by rw [value_add, hq0, hq1, Int.mul_add], ha0.add ha1⟩
        | mul =>
          dsimp only at h
          cases h0 : x.divides mixed v with
          | some d0 =>
            rw [h0] at h
            obtain ⟨ht0, hq0⟩ := ihx hx h0
            obtain ⟨rfl, hty⟩ := tryMul_typed ht0 hy h
            refine ⟨hty, fun ρ => ?_⟩
            obtain ⟨q0, hq0, ha0⟩ := hq0 ρ
            exact ⟨q0 * y.value ρ, by rw [value_mul, hq0, Int.mul_assoc],
              ha0.mul (Agree.refl _)⟩
          | none =>
            rw [h0] at h
            cases h1 : y.divides mixed v with
            | some d1 =>
              rw [h1] at h
              obtain ⟨ht1, hq1⟩ := ihy hy h1
              obtain ⟨rfl, hty⟩ := tryMul_typed hx ht1 h
              refine ⟨hty, fun ρ => ?_⟩
              obtain ⟨q1, hq1, ha1⟩ := hq1 ρ
              refine ⟨x.value ρ * q1, ?_, (Agree.refl _).mul ha1⟩
              rw [value_mul, hq1]
              ring
            | none =>
              rw [h1] at h
              cases h
        | sub | floorDiv | floorMod => cases h

omit hT in
theorem divides_ne_zero (h : e.divides mixed v = some b) : v ≠ 0 := by
  rintro rfl
  cases e <;> unfold divides at h <;> norm_num at h <;> cases h

/-- The quotient by a number other than `-1` is exact where both sides are accepted. -/
theorem divides_exact (he : Accepted s e) (hb : Accepted s b) (hv : v ≠ -1)
    (h : e.divides mixed v = some b) : e.value ρ = v * b.value ρ := by
  obtain ⟨q, hq, ha⟩ := (divides_spec hT he.typed h).2 ρ
  have hqc := hT.contains_quotient (accepted_exact hT.intType hT.ne_bool he).fits
    (divides_ne_zero h) hv hq
  rw [hq, ha.eq (accepted_exact hT.intType hT.ne_bool hb).fits hqc]

/-- An expression over its own numeric factor is a value of the type. -/
theorem constFactor_quotient {q : ℤ} (he : Accepted s e) (hf : e.constFactor ≠ 0)
    (h : e.value ρ = e.constFactor * q) : t.Contains q := by
  have hfits := (accepted_exact (ρ := ρ) hT.intType hT.ne_bool he).fits
  rcases lt_or_gt_of_ne hf with hneg | hpos
  · -- only a constant, or a product by one, has a negative factor
    cases e with
    | const c =>
      rcases hT.const_int (show c.dtype = s from he.typed) with hc | ⟨v, hv, _⟩
      · unfold constFactor at hneg
        simp only [hc] at hneg
        omega
      · unfold constFactor at hneg h hf
        simp only [hv] at hneg h hf
        split at hneg
        · omega
        · next hmin =>
          rw [if_neg hmin, SignedType.const_value hv] at h
          have hq : q = 1 := by
            have h1 : v * 1 = v * q := by omega
            exact (Int.eq_of_mul_eq_mul_left (by omega) h1).symm
          rw [hq]
          exact hT.contains_small (by omega) (by omega)
    | leaf l =>
      unfold constFactor at hneg
      omega
    | neg src =>
      unfold constFactor at hneg
      omega
    | binary op a b d =>
      have hea := (accepted_exact (ρ := ρ) hT.intType hT.ne_bool he.lhs).fits
      have heb := (accepted_exact (ρ := ρ) hT.intType hT.ne_bool he.rhs).fits
      cases op with
      | mul =>
        unfold constFactor at hneg h
        cases hca : intConst a with
        | some i =>
          simp only [hca] at hneg h
          split at hneg
          · omega
          · next hmin =>
            rw [if_neg hmin, value_mul, (hT.intConst_value (ρ := ρ) he.typed.1 hca)] at h
            rw [← Int.eq_of_mul_eq_mul_left (by omega) h]
            exact heb
        | none =>
          simp only [hca] at hneg h
          cases hcb : intConst b with
          | some i =>
            simp only [hcb] at hneg h
            split at hneg
            · omega
            · next hmin =>
              rw [if_neg hmin, value_mul, (hT.intConst_value (ρ := ρ) he.typed.2.1 hcb),
                Int.mul_comm] at h
              rw [← Int.eq_of_mul_eq_mul_left (by omega) h]
              exact hea
          | none =>
            simp only [hcb] at hneg
            omega
      | add =>
        unfold constFactor at hneg
        have hg := gcd_nonneg a.constFactor b.constFactor
        omega
      | sub | floorDiv | floorMod =>
        unfold constFactor at hneg
        omega
  · exact hT.contains_quotient hfits hf (by omega) h

/-! ## Sums and products -/

/-- What is left of a sum without its constant. -/
theorem popConst_add {k : ℤ} (he : Accepted s e) (h : e.popConst .add = (a, .int k)) :
    Accepted s a ∧ t.Contains k ∧ e.value ρ = a.value ρ + k := by
  unfold popConst at h
  have hid : identityElement .add e.dtype = .int 0 := by
    unfold identityElement
    rw [he.typed.dtype_eq, hT.not_float]
    rfl
  have hsame : (e, identityElement .add e.dtype) = (a, ConstValue.int k) →
      Accepted s a ∧ t.Contains k ∧ e.value ρ = a.value ρ + k := by
    intro hp
    rw [hid] at hp
    cases hp
    exact ⟨he, t.contains_zero, by omega⟩
  split at h
  · next op x c d =>
    split at h
    · next hop =>
      subst hop
      obtain ⟨rfl, hck⟩ := Prod.mk.inj h
      rcases hT.const_int (show c.dtype = s from he.typed.2.1) with hc | ⟨v, hv, hvc⟩
      · rw [hc] at hck
        cases hck
      · rw [hv] at hck
        cases hck
        exact ⟨he.lhs, hvc, by rw [value_add, SignedType.const_value hv]⟩
    · exact hsame h
  · exact hsame h

omit hT in
theorem splitUop_typed {sep : ArithOp} (he : e.Typed s) : ∀ u ∈ e.splitUop sep, u.Typed s := by
  induction e with
  | const c => simpa [splitUop] using he
  | leaf l => simpa [splitUop] using he
  | neg src _ => simpa [splitUop] using he
  | binary op a b d iha ihb =>
    unfold splitUop
    split
    · intro u hu
      rcases List.mem_append.mp hu with h | h
      · exact iha he.1 u h
      · exact ihb he.2.1 u h
    · intro u hu
      rw [List.mem_singleton] at hu
      subst hu
      exact he

omit hT in
theorem splitUop_accepted {sep : ArithOp} (he : Accepted s e) :
    ∀ u ∈ e.splitUop sep, Accepted s u := by
  induction e with
  | const c => simpa [splitUop] using he
  | leaf l => simpa [splitUop] using he
  | neg src _ => simpa [splitUop] using he
  | binary op a b d iha ihb =>
    unfold splitUop
    split
    · intro u hu
      rcases List.mem_append.mp hu with h | h
      · exact iha he.lhs u h
      · exact ihb he.rhs u h
    · intro u hu
      rw [List.mem_singleton] at hu
      subst hu
      exact he

omit hT in
theorem splitUop_add_value (e : Expr) :
    ((e.splitUop .add).map fun u => u.value ρ).sum = e.value ρ := by
  induction e with
  | const c => simp [splitUop]
  | leaf l => simp [splitUop]
  | neg src _ => simp [splitUop]
  | binary op a b d iha ihb =>
    unfold splitUop
    split
    · next hop =>
      subst hop
      rw [List.map_append, List.sum_append, iha, ihb, value_add]
    · simp

omit hT in
theorem splitUop_mul_value (e : Expr) :
    ((e.splitUop .mul).map fun u => u.value ρ).prod = e.value ρ := by
  induction e with
  | const c => simp [splitUop]
  | leaf l => simp [splitUop]
  | neg src _ => simp [splitUop]
  | binary op a b d iha ihb =>
    unfold splitUop
    split
    · next hop =>
      subst hop
      rw [List.map_append, List.prod_append, iha, ihb, value_mul]
    · simp

/-! ## Products -/

omit hT in
theorem mulAll_typed (hr : result.Typed s) (hf : ∀ f ∈ factors, f.Typed s)
    (h : mulAll mixed result factors = some e) : e.Typed s := by
  induction factors generalizing result with
  | nil =>
    cases h
    exact hr
  | cons f rest ih =>
    unfold mulAll at h
    simp only [bind_eq_some] at h
    obtain ⟨next, hnext, h⟩ := h
    obtain ⟨_, hty⟩ := tryMul_typed hr (hf f (by simp)) hnext
    exact ih hty (fun f' hf' => hf f' (List.mem_cons_of_mem _ hf')) h

omit hT in
theorem mulAll_value (hr : result.Typed s) (hf : ∀ f ∈ factors, f.Typed s)
    (h : mulAll mixed result factors = some e) :
    e.value ρ = result.value ρ * (factors.map fun f => f.value ρ).prod := by
  induction factors generalizing result with
  | nil =>
    cases h
    simp
  | cons f rest ih =>
    unfold mulAll at h
    simp only [bind_eq_some] at h
    obtain ⟨next, hnext, h⟩ := h
    obtain ⟨rfl, hty⟩ := tryMul_typed hr (hf f (by simp)) hnext
    rw [ih hty (fun f' hf' => hf f' (List.mem_cons_of_mem _ hf')) h, List.map_cons,
      List.prod_cons, value_mul]
    ring

omit hT in
theorem mulAll_accepted (hr : result.Typed s) (hf : ∀ f ∈ factors, f.Typed s)
    (h : mulAll mixed result factors = some e) (he : Accepted s e) : Accepted s result := by
  induction factors generalizing result with
  | nil =>
    cases h
    exact he
  | cons f rest ih =>
    unfold mulAll at h
    simp only [bind_eq_some] at h
    obtain ⟨next, hnext, h⟩ := h
    obtain ⟨rfl, hty⟩ := tryMul_typed hr (hf f (by simp)) hnext
    exact (ih hty (fun f' hf' => hf f' (List.mem_cons_of_mem _ hf')) h).lhs

/-- An accepted product that starts at the least value never meets a factor `-1` before `0`. -/
theorem mulAll_least (hr : result.Typed s) (hf : ∀ f ∈ factors, f.Typed s)
    (h : mulAll mixed result factors = some e) (he : Accepted s e)
    (hstart : result.value ρ = -half t ∨ result.value ρ = 0)
    (hneg : ∃ f ∈ factors, f.value ρ = -1) : e.value ρ = 0 := by
  induction factors generalizing result with
  | nil => simp at hneg
  | cons f rest ih =>
    have hN := hT.half_bounds
    have hfr : ∀ f' ∈ rest, f'.Typed s := fun f' hf' => hf f' (List.mem_cons_of_mem _ hf')
    unfold mulAll at h
    simp only [bind_eq_some] at h
    obtain ⟨next, hnext, h⟩ := h
    obtain ⟨rfl, hty⟩ := tryMul_typed hr (hf f (by simp)) hnext
    have hacc := mulAll_accepted hty hfr h he
    have hfits := (accepted_exact (ρ := ρ) hT.intType hT.ne_bool hacc).fits
    rw [value_mul] at hfits
    rcases hstart with hs | hs
    · -- the factor is zero or one
      rw [hs, hT.contains_iff] at hfits
      have hlo : 0 ≤ f.value ρ := by
        by_contra hlt
        have : -half t * f.value ρ ≥ -half t * (-1) :=
          Int.mul_le_mul_of_nonpos_left (by omega) (by omega)
        omega
      have hhi : f.value ρ ≤ 1 := by
        by_contra hlt
        have : -half t * f.value ρ ≤ -half t * 2 :=
          Int.mul_le_mul_of_nonpos_left (by omega) (by omega)
        omega
      have hrest : ∃ f' ∈ rest, f'.value ρ = -1 := by
        obtain ⟨f', hmem, hval⟩ := hneg
        rcases List.mem_cons.mp hmem with rfl | hmem
        · omega
        · exact ⟨f', hmem, hval⟩
      refine ih hty hfr h ?_ hrest
      rw [value_mul, hs]
      rcases (by omega : f.value ρ = 0 ∨ f.value ρ = 1) with h0 | h1
      · right
        rw [h0, Int.mul_zero]
      · left
        rw [h1, Int.mul_one]
    · rw [mulAll_value hty hfr h, value_mul, hs]
      simp

/-- The numeric factor of a product. -/
theorem popConst_mul {e f : Expr} {c : ConstValue} {k : ℤ} (he : e.Typed s)
    (h : e.popConst .mul = (f, c)) (hk : tryInt c = some k) :
    f.Typed s ∧ e.value ρ = f.value ρ * k ∧
      (k = 1 ∨ ∃ cc d, e = binary .mul f (const cc) d ∧ cc.dtype = s ∧ cc.value = .int k ∧
        t.Contains k) := by
  have hid : identityElement .mul e.dtype = .int 1 := by
    unfold identityElement
    rw [he.dtype_eq, hT.not_float]
    rfl
  have hsame : (e, identityElement .mul e.dtype) = (f, c) →
      f.Typed s ∧ e.value ρ = f.value ρ * k ∧
      (k = 1 ∨ ∃ cc d, e = binary .mul f (const cc) d ∧ cc.dtype = s ∧ cc.value = .int k ∧
        t.Contains k) := by
    intro hp
    rw [hid] at hp
    cases hp
    cases hk
    exact ⟨he, by omega, Or.inl rfl⟩
  unfold popConst at h
  split at h
  · next op x cc d =>
    split at h
    · next hop =>
      subst hop
      obtain ⟨rfl, hck⟩ := Prod.mk.inj h
      rcases hT.const_int (show cc.dtype = s from he.2.1) with hc | ⟨v, hv, hvc⟩
      · rw [← hck, hc] at hk
        cases hk
      · rw [← hck, hv] at hk
        cases hk
        exact ⟨he.1, by rw [value_mul, SignedType.const_value hv], Or.inr ⟨cc, d, rfl, he.2.1, hv, hvc⟩⟩
    · exact hsame h
  · exact hsame h

omit hT in
/-- The factors of the divisor and the remaining ones are the factors of the dividend. -/
theorem remainingFactors_perm {fs ds rest : List Expr} (h : remainingFactors fs ds = some rest) :
    (ds ++ rest).Perm fs ∧ rest = fs.diff ds := by
  unfold remainingFactors at h
  split at h
  · next hall =>
    cases h
    refine ⟨?_, rfl⟩
    apply List.subperm_append_diff_self_of_count_le
    intro f hf
    simpa using List.all_eq_true.mp hall f hf
  · cases h

end

/-! ## Exact division -/

/-- How `divide_exact` finds a quotient. -/
inductive DivideExact (mixed : ArithOp → Expr → Expr → Option Expr)
    (order : List Expr → List Expr) : Expr → Expr → Expr → Prop
  | same (e : Expr) : DivideExact mixed order e e (e.constLike 1)
  | number {e v b : Expr} {d : ℤ} (hd : intConst v = some d) (h : e.divides mixed d = some b) :
    DivideExact mixed order e v b
  | sum {x y v b d0 d1 : Expr} {d : ScalarDType} (h0 : DivideExact mixed order x v d0)
    (h1 : DivideExact mixed order y v d1) (h : tryAdd mixed d0 d1 = some b) :
    DivideExact mixed order (binary .add x y d) v b
  | product {x y v b fac divFac : Expr} {d : ScalarDType} {c c' : ConstValue} {k k' rem : ℤ}
    {remaining : List Expr} (hpop : (binary .mul x y d).popConst .mul = (fac, c))
    (hpop' : v.popConst .mul = (divFac, c')) (hk : tryInt c = some k) (hk' : tryInt c' = some k')
    (hk0 : k' ≠ 0) (hrem : checkedRem k k' = some rem) (hrem0 : rem = 0)
    (hrest : remainingFactors (fac.splitUop .mul) (divFac.splitUop .mul) = some remaining)
    (h : mulAll mixed ((binary .mul x y d).constLike (k.tdiv k')) (order remaining) = some b) :
    DivideExact mixed order (binary .mul x y d) v b

theorem divideExact_cases {order : List Expr → List Expr} {e v b : Expr}
    (h : e.divideExact mixed order v = some b) : DivideExact mixed order e v b := by
  induction e generalizing b with
  | binary op x y d ihx ihy =>
    unfold divideExact at h
    split at h
    · next hev =>
      cases h
      subst hev
      exact DivideExact.same _
    · cases hd : intConst v with
      | some n =>
        rw [hd] at h
        exact DivideExact.number hd h
      | none =>
        rw [hd] at h
        cases op with
        | add =>
          simp only [Option.bind_eq_bind, Option.bind_eq_some_iff] at h
          obtain ⟨d0, h0, d1, h1, hadd⟩ := h
          exact DivideExact.sum (ihx h0) (ihy h1) hadd
        | mul =>
          simp only [Option.bind_eq_bind, Option.bind_eq_some_iff] at h
          obtain ⟨k, hk, k', hk', h⟩ := h
          split at h
          · cases h
          · next hk0 =>
            simp only [Option.bind_eq_some_iff] at h
            obtain ⟨rem, hrem, h⟩ := h
            split at h
            · cases h
            · next hrem0 =>
              simp only [Option.bind_eq_some_iff] at h
              obtain ⟨remaining, hrest, h⟩ := h
              exact DivideExact.product rfl rfl hk hk' hk0 hrem (not_not.mp hrem0) hrest h
        | sub | floorDiv | floorMod => cases h
  | const c | leaf l | neg src _ =>
    unfold divideExact at h
    split at h
    · next hev =>
      cases h
      subst hev
      exact DivideExact.same _
    · cases hd : intConst v with
      | some n =>
        rw [hd] at h
        exact DivideExact.number hd h
      | none =>
        rw [hd] at h
        cases h

section

variable (hT : SignedType s t) {order : List Expr → List Expr} (hord : ∀ l, (order l).Perm l)

include hT hord

/-- The factors of a product quotient. -/
theorem productQuotient_value {e v b fac divFac : Expr} {c c' : ConstValue} {k k' rem : ℤ}
    {remaining : List Expr} (he : e.Typed s) (hv : v.Typed s) (hpop : e.popConst .mul = (fac, c))
    (hpop' : v.popConst .mul = (divFac, c')) (hk : tryInt c = some k) (hk' : tryInt c' = some k')
    (hrem : checkedRem k k' = some rem) (hrem0 : rem = 0)
    (hrest : remainingFactors (fac.splitUop .mul) (divFac.splitUop .mul) = some remaining)
    (h : mulAll mixed (e.constLike (k.tdiv k')) (order remaining) = some b) :
    (∀ f ∈ order remaining, f.Typed s) ∧ b.Typed s ∧ k = k' * k.tdiv k' ∧
      ∃ p, e.value ρ = v.value ρ * (k.tdiv k' * p) ∧ b.value ρ = t.wrap (k.tdiv k') * p := by
  obtain ⟨hft, hfv, _⟩ := popConst_mul hT (ρ := ρ) he hpop hk
  obtain ⟨hdt, hdv, _⟩ := popConst_mul hT (ρ := ρ) hv hpop' hk'
  obtain ⟨hperm, _⟩ := remainingFactors_perm hrest
  have hrt : ∀ f ∈ order remaining, f.Typed s := by
    intro f hf
    apply splitUop_typed hft
    exact hperm.subset (List.mem_append_right _ ((hord remaining).subset hf))
  have hbt := mulAll_typed (constLike_typed he _) hrt h
  have hbv := mulAll_value (ρ := ρ) (constLike_typed he _) hrt h
  have hkk : k = k' * k.tdiv k' := by
    unfold checkedRem at hrem
    split at hrem
    · cases hrem
    · cases hrem
      exact (Int.mul_tdiv_cancel' (Int.dvd_of_tmod_eq_zero hrem0)).symm
  refine ⟨hrt, hbt, hkk, (remaining.map fun f => f.value ρ).prod, ?_, ?_⟩
  · have hprod := (hperm.map fun f => f.value ρ).prod_eq
    rw [List.map_append, List.prod_append, splitUop_mul_value, splitUop_mul_value] at hprod
    rw [hfv, hdv, ← hprod]
    calc divFac.value ρ * (remaining.map fun f => f.value ρ).prod * k
        = divFac.value ρ * (remaining.map fun f => f.value ρ).prod * (k' * k.tdiv k') := by
          rw [← hkk]
      _ = divFac.value ρ * k' * (k.tdiv k' * (remaining.map fun f => f.value ρ).prod) := by
          ring
  · rw [hbv, hT.constLike_value he, ((hord remaining).map fun f => f.value ρ).prod_eq]

/-- What is divided by an expression is the expression times a value that the quotient agrees
with. -/
theorem DivideExact.spec {e v b : Expr} (h : DivideExact mixed order e v b) (he : e.Typed s)
    (hv : v.Typed s) :
    b.Typed s ∧ ∃ q, e.value ρ = v.value ρ * q ∧ Agree t (b.value ρ) q := by
  induction h with
  | same e =>
    refine ⟨constLike_typed he 1, 1, by rw [mul_one], ?_⟩
    rw [hT.constLike_value he]
    exact wrap_agree 1
  | number hd h =>
    obtain ⟨hbt, hq⟩ := divides_spec hT he h
    obtain ⟨q, hq, ha⟩ := hq ρ
    exact ⟨hbt, q, by rw [hq, hT.intConst_value hv hd], ha⟩
  | sum h0 h1 h ih0 ih1 =>
    obtain ⟨ht0, q0, hq0, ha0⟩ := ih0 he.1 hv
    obtain ⟨ht1, q1, hq1, ha1⟩ := ih1 he.2.1 hv
    obtain ⟨rfl, hbt⟩ := tryAdd_typed ht0 ht1 h
    exact ⟨hbt, q0 + q1, by rw [value_add, hq0, hq1, Int.mul_add], ha0.add ha1⟩
  | product hpop hpop' hk hk' _ hrem hrem0 hrest h =>
    obtain ⟨_, hbt, _, p, hp, hb⟩ :=
      productQuotient_value hT hord (ρ := ρ) he hv hpop hpop' hk hk' hrem hrem0 hrest h
    refine ⟨hbt, _, hp, ?_⟩
    rw [hb]
    exact (wrap_agree _).mul (Agree.refl p)

end

/-! ## Factors `-1` -/

/-- The constant `-1` of a type. -/
def minusOne (s : ScalarDType) : Expr := constOfType s (-1)

/-- How often `-1` is a factor. -/
def minusOnes (s : ScalarDType) (e : Expr) : ℕ := (e.splitUop .mul).count (minusOne s)

section

variable (hT : SignedType s t)

include hT

theorem minusOne_value : (minusOne s).value ρ = -1 := by
  unfold minusOne
  rw [hT.constOfType_value, IntType.wrap_of_contains (hT.contains_small (by omega) (by omega))]

theorem const_eq_minusOne (hc : c.dtype = s) : const c = minusOne s ↔ c.value = .int (-1) := by
  have hw : committed s (-1) = .int (-1) := by
    rw [hT.committed_eq, IntType.wrap_of_contains (hT.contains_small (by omega) (by omega))]
  obtain ⟨d, v, hcom⟩ := c
  simp only at hc
  subst hc
  unfold minusOne constOfType
  simp only [const.injEq, Const.mk.injEq, true_and, hw]

theorem minusOnes_const (hc : c.dtype = s) (h : c.value ≠ .int (-1)) :
    minusOnes s (const c) = 0 := by
  unfold minusOnes splitUop
  rw [List.count_eq_zero, List.mem_singleton]
  intro he
  exact h ((const_eq_minusOne hT hc).mp he.symm)

theorem minusOnes_constOfType (hv : t.Contains v) (h : v ≠ -1) :
    minusOnes s (constOfType s v) = 0 := by
  apply minusOnes_const hT rfl
  show committed s v ≠ .int (-1)
  rw [hT.committed_eq, IntType.wrap_of_contains hv]
  simpa using h

omit hT in
theorem minusOnes_mul (a b : Expr) (d : ScalarDType) :
    minusOnes s (binary .mul a b d) = minusOnes s a + minusOnes s b := by
  unfold minusOnes
  rw [splitUop, if_pos rfl, List.count_append]

omit hT in
theorem minusOnes_other {op : ArithOp} (hop : op ≠ .mul) (a b : Expr) (d : ScalarDType) :
    minusOnes s (binary op a b d) = 0 := by
  unfold minusOnes
  rw [splitUop, if_neg hop, List.count_eq_zero, List.mem_singleton]
  intro h
  cases h

/-- Division by the least value brings in no factor `-1`. -/
theorem divides_least_minusOnes (he : e.Typed s) (h : e.divides mixed (-half t) = some b) :
    b.Typed s ∧ minusOnes s b ≤ minusOnes s e := by
  have hN := hT.half_bounds
  have hn1 : ¬ -half t = 1 := by omega
  have hn0 : ¬ -half t = 0 := by omega
  induction e generalizing b with
  | const c =>
    unfold divides at h
    rw [if_neg hn1, if_neg hn0] at h
    simp only [bind_eq_some] at h
    obtain ⟨val, hval, rem, hrem, h⟩ := h
    obtain ⟨_, _, _, _, hc⟩ := hT.intConst_cases he hval
    rw [hT.contains_iff] at hc
    unfold checkedRem at hrem
    split at hrem
    · cases hrem
    · cases hrem
      split at h
      · next hr =>
        cases h
        -- only zero and the least value are multiples
        obtain ⟨q, hq⟩ := Int.dvd_of_tmod_eq_zero hr
        have hq0 : 0 ≤ q := by
          by_contra hlt
          have : -half t * q ≥ -half t * (-1) :=
            Int.mul_le_mul_of_nonpos_left (by omega) (by omega)
          omega
        have hq1 : q ≤ 1 := by
          by_contra hlt
          have : -half t * q ≤ -half t * 2 :=
            Int.mul_le_mul_of_nonpos_left (by omega) (by omega)
          omega
        have hdiv : val.tdiv (-half t) = q := by
          rw [hq]
          exact Int.mul_tdiv_cancel_left q hn0
        rw [show c.dtype = s from he, hdiv]
        refine ⟨constOfType_typed q, ?_⟩
        rw [minusOnes_constOfType hT (hT.contains_small (by omega) (by omega)) (by omega)]
        exact Nat.zero_le _
      · cases h
  | leaf l =>
    unfold divides at h
    rw [if_neg hn1, if_neg hn0] at h
    cases h
  | neg src _ =>
    unfold divides at h
    rw [if_neg hn1, if_neg hn0] at h
    cases h
  | binary op x y d ihx ihy =>
    unfold divides at h
    rw [if_neg hn1, if_neg hn0] at h
    cases op with
    | add =>
      simp only [bind_eq_some] at h
      obtain ⟨d0, h0, d1, h1, hadd⟩ := h
      obtain ⟨rfl, hbt⟩ := tryAdd_typed (ihx he.1 h0).1 (ihy he.2.1 h1).1 hadd
      refine ⟨hbt, ?_⟩
      rw [minusOnes_other (by decide)]
      exact Nat.zero_le _
    | mul =>
      dsimp only at h
      rw [minusOnes_mul]
      cases h0 : x.divides mixed (-half t) with
      | some d0 =>
        rw [h0] at h
        obtain ⟨ht0, hle⟩ := ihx he.1 h0
        obtain ⟨rfl, hbt⟩ := tryMul_typed ht0 he.2.1 h
        refine ⟨hbt, ?_⟩
        rw [minusOnes_mul]
        omega
      | none =>
        rw [h0] at h
        cases h1 : y.divides mixed (-half t) with
        | some d1 =>
          rw [h1] at h
          obtain ⟨ht1, hle⟩ := ihy he.2.1 h1
          obtain ⟨rfl, hbt⟩ := tryMul_typed he.1 ht1 h
          refine ⟨hbt, ?_⟩
          rw [minusOnes_mul]
          omega
        | none =>
          rw [h1] at h
          cases h
    | sub | floorDiv | floorMod => cases h

/-- A sum has no factor `-1`, with or without its numeric factor. -/
theorem withoutFactor_add {x y : Expr} {d : ScalarDType} (he : (binary .add x y d).Typed s) :
    minusOnes s (withoutFactor mixed (binary .add x y d)) = 0 := by
  unfold withoutFactor
  dsimp only
  split
  · exact minusOnes_other (by decide) x y d
  · next hf =>
    have hf1 : (binary .add x y d).constFactor ≠ 1 := fun h => hf (Or.inl h)
    have hf0 : (binary .add x y d).constFactor ≠ 0 := fun h => hf (Or.inr h)
    cases hd : (binary .add x y d).divides mixed (binary .add x y d).constFactor with
    | none =>
      rw [Option.getD_none, constLike_eq he]
      exact minusOnes_constOfType hT (hT.contains_small (by omega) (by omega)) (by omega)
    | some b =>
      rw [Option.getD_some]
      generalize (binary .add x y d).constFactor = f at hd hf1 hf0
      unfold divides at hd
      rw [if_neg hf1, if_neg hf0] at hd
      simp only [bind_eq_some] at hd
      obtain ⟨d0, h0, d1, h1, hadd⟩ := hd
      have ht0 := (divides_spec hT he.1 h0).1
      have ht1 := (divides_spec hT he.2.1 h1).1
      obtain ⟨rfl, _⟩ := tryAdd_typed ht0 ht1 hadd
      exact minusOnes_other (by decide) d0 d1 s

/-- The factors `-1` of a product by the least value are those of the other side. -/
theorem withoutFactor_least (ρ : Assignment) {fac : Expr} {d : ScalarDType}
    (he : Accepted s (binary .mul fac (const c) d)) (hc : c.value = .int (-half t)) :
    minusOnes s (withoutFactor mixed (binary .mul fac (const c) d)) ≤ minusOnes s fac := by
  have hN := hT.half_bounds
  have hcount : minusOnes s (const c) = 0 := by
    apply minusOnes_const hT he.typed.2.1
    rw [hc]
    simp only [ne_eq, ConstValue.int.injEq]
    omega
  have hself : minusOnes s (binary .mul fac (const c) d) ≤ minusOnes s fac := by
    rw [minusOnes_mul, hcount]
    omega
  unfold withoutFactor
  dsimp only
  split
  · exact hself
  · next hf =>
    have hf1 : (binary .mul fac (const c) d).constFactor ≠ 1 := fun h => hf (Or.inl h)
    have hf0 : (binary .mul fac (const c) d).constFactor ≠ 0 := fun h => hf (Or.inr h)
    have hci : intConst (const c) = some (-half t) := by
      unfold intConst
      simp only [hc]
    have hfac : (binary .mul fac (const c) d).constFactor = -half t := by
      unfold constFactor at hf1 hf0 ⊢
      cases hfi : intConst fac with
      | none =>
        simp only [hfi, hci] at hf1 ⊢
        split
        · next hmin => simp [hmin] at hf1
        · rfl
      | some i =>
        -- a constant times the least value fits for zero and one only
        exfalso
        have hfits := (accepted_exact (ρ := ρ) hT.intType hT.ne_bool he).fits
        rw [value_mul, hT.intConst_value he.typed.1 hfi, SignedType.const_value hc,
          hT.contains_iff] at hfits
        simp only [hfi] at hf1 hf0
        split at hf1
        · exact hf1 rfl
        · next hmin =>
          rw [if_neg hmin] at hf0
          rcases (by omega : i ≤ -1 ∨ 2 ≤ i) with hlo | hhi
          · have : i * -half t ≥ -1 * -half t :=
              Int.mul_le_mul_of_nonpos_right hlo (by omega)
            omega
          · have : i * -half t ≤ 2 * -half t :=
              Int.mul_le_mul_of_nonpos_right hhi (by omega)
            omega
    rw [hfac]
    cases hd : (binary .mul fac (const c) d).divides mixed (-half t) with
    | none =>
      rw [Option.getD_none, constLike_eq he.typed,
        minusOnes_constOfType hT (hT.contains_small (by omega) (by omega)) (by omega)]
      exact Nat.zero_le _
    | some b =>
      rw [Option.getD_some]
      exact (divides_least_minusOnes hT he.typed hd).2.trans hself

/-! ## The common divisor -/

omit hT in
theorem gcd_abs_le {a b n : ℤ} (hn : 1 ≤ n) (ha : |a| ≤ n) (hb : |b| ≤ n) : |gcd a b| ≤ n := by
  unfold gcd
  split
  · simpa using hn
  · rw [abs_of_nonneg (Int.natCast_nonneg _)]
    by_cases ha0 : a = 0
    · rw [ha0, Int.gcd_zero_left]
      simpa using hb
    · have h := Int.gcd_le_natAbs_left (a := a) b ha0
      have hcast : ((Int.gcd a b : ℕ) : ℤ) ≤ (a.natAbs : ℤ) := by exact_mod_cast h
      rw [Int.natCast_natAbs] at hcast
      omega

/-- The numeric factor is bounded as the values of the type are. -/
theorem constFactor_abs_le (he : e.Typed s) : |e.constFactor| ≤ half t := by
  have hN := hT.half_bounds
  have hone : |(1 : ℤ)| ≤ half t := by
    rw [abs_one]
    omega
  have habs : ∀ i, t.Contains i → |if i = -2 ^ 63 then (1 : ℤ) else i| ≤ half t := by
    intro i hi
    rw [hT.contains_iff] at hi
    split
    · exact hone
    · rw [abs_le]
      omega
  induction e with
  | const c =>
    unfold constFactor
    rcases hT.const_int (show c.dtype = s from he) with hc | ⟨v, hv, hvc⟩
    · simp only [hc]
      exact hone
    · simp only [hv]
      exact habs v hvc
  | leaf l => exact hone
  | neg src _ => exact hone
  | binary op x y d ihx ihy =>
    cases op with
    | add => exact gcd_abs_le (by omega) (ihx he.1) (ihy he.2.1)
    | mul =>
      unfold constFactor
      cases hx : intConst x with
      | some i =>
        obtain ⟨_, _, _, _, hi⟩ := hT.intConst_cases he.1 hx
        exact habs i hi
      | none =>
        cases hy : intConst y with
        | some i =>
          obtain ⟨_, _, _, _, hi⟩ := hT.intConst_cases he.2.1 hy
          exact habs i hi
        | none => exact hone
    | sub | floorDiv | floorMod => exact hone

theorem withoutFactor_typed (he : e.Typed s) : (withoutFactor mixed e).Typed s := by
  unfold withoutFactor
  dsimp only
  split
  · exact he
  · cases hd : e.divides mixed e.constFactor with
    | none => exact constLike_typed he 1
    | some b => exact (divides_spec hT he hd).1

omit hT in
/-- A factor is no product. -/
theorem splitUop_irreducible {sep : ArithOp} {e f : Expr} (h : f ∈ e.splitUop sep) :
    f.splitUop sep = [f] := by
  induction e with
  | const c => simp_all [splitUop]
  | leaf l => simp_all [splitUop]
  | neg src _ => simp_all [splitUop]
  | binary op x y d ihx ihy =>
    unfold splitUop at h
    split at h
    · rcases List.mem_append.mp h with hx | hy
      · exact ihx hx
      · exact ihy hy
    · next hop =>
      rw [List.mem_singleton] at h
      subst h
      rw [splitUop, if_neg hop]

omit hT in
theorem commonFactors_count (mixed : ArithOp → Expr → Expr → Option Expr) (a : Expr) (first : Expr)
    (others : List Expr) :
    ∀ u ∈ first :: others, (commonFactors mixed first others).count a ≤
      ((withoutFactor mixed u).splitUop .mul).count a := by
  have hfold : ∀ (others : List Expr) (common : List Expr),
      let r := others.foldl (fun common u => common.bagInter ((withoutFactor mixed u).splitUop .mul))
        common
      r.count a ≤ common.count a ∧
        ∀ u ∈ others, r.count a ≤ ((withoutFactor mixed u).splitUop .mul).count a := by
    intro others
    induction others with
    | nil =>
      intro common
      exact ⟨le_refl _, by simp⟩
    | cons v rest ih =>
      intro common
      obtain ⟨h₁, h₂⟩ := ih (common.bagInter ((withoutFactor mixed v).splitUop .mul))
      rw [List.count_bagInter] at h₁
      refine ⟨h₁.trans (min_le_left _ _), ?_⟩
      intro u hu
      rcases List.mem_cons.mp hu with rfl | hu
      · exact h₁.trans (min_le_right _ _)
      · exact h₂ u hu
  intro u hu
  obtain ⟨h₁, h₂⟩ := hfold others ((withoutFactor mixed first).splitUop .mul)
  rcases List.mem_cons.mp hu with rfl | hu
  · exact h₁
  · exact h₂ u hu

omit hT in
theorem commonFactors_subset (first : Expr) (others : List Expr) :
    commonFactors mixed first others ⊆ (withoutFactor mixed first).splitUop .mul := by
  intro a ha
  have h := commonFactors_count mixed a first others first (by simp)
  exact List.count_pos_iff.mp ((List.count_pos_iff.mpr ha).trans_le h)

omit hT in
theorem mulAll_minusOnes (hr : result.Typed s)
    (hf : ∀ f ∈ factors, f.Typed s ∧ f.splitUop .mul = [f])
    (h : mulAll mixed result factors = some e) :
    minusOnes s e = minusOnes s result + factors.count (minusOne s) ∧
      (factors ≠ [] → intConst e = none) := by
  induction factors generalizing result with
  | nil =>
    cases h
    exact ⟨by simp, fun h => absurd rfl h⟩
  | cons f rest ih =>
    unfold mulAll at h
    simp only [bind_eq_some] at h
    obtain ⟨next, hnext, h⟩ := h
    obtain ⟨hft, hfs⟩ := hf f (by simp)
    obtain ⟨rfl, hty⟩ := tryMul_typed hr hft hnext
    obtain ⟨hcount, hint⟩ := ih hty (fun f' hf' => hf f' (List.mem_cons_of_mem _ hf')) h
    constructor
    · rw [hcount, minusOnes_mul]
      have hsingle : minusOnes s f = [f].count (minusOne s) := by
        unfold minusOnes
        rw [hfs]
      rw [hsingle, List.count_cons, List.count_cons, List.count_nil]
      omega
    · intro _
      cases rest with
      | nil =>
        cases h
        rfl
      | cons f' rest' => exact hint (by simp)

theorem symbolicGcd_minusOnes (ρ : Assignment) {order : List Expr → List Expr}
    (hord : ∀ l, (order l).Perm l)
    {first g : Expr} {others : List Expr} (hf : first.Typed s) (ho : ∀ u ∈ others, u.Typed s)
    (h : symbolicGcd mixed order first others = some g) :
    g.Typed s ∧ intConst g ≠ some (-1) ∧
      ∀ u ∈ first :: others, minusOnes s g ≤ minusOnes s (withoutFactor mixed u) := by
  have hN := hT.half_bounds
  -- the numeric divisor is not negative, and small enough not to become `-1`
  have hnum : ∀ (others : List Expr) (acc : ℤ), (∀ u ∈ others, u.Typed s) → 0 ≤ acc →
      acc ≤ half t →
      0 ≤ others.foldl (fun acc u => gcd acc |u.constFactor|) acc ∧
        others.foldl (fun acc u => gcd acc |u.constFactor|) acc ≤ half t := by
    intro others
    induction others with
    | nil =>
      intro acc _ h₁ h₂
      exact ⟨h₁, h₂⟩
    | cons u rest ih =>
      intro acc hty h₁ h₂
      rw [List.foldl_cons]
      apply ih _ (fun u' hu' => hty u' (List.mem_cons_of_mem _ hu')) (gcd_nonneg _ _)
      have hg := gcd_abs_le (n := half t) (a := acc) (b := |u.constFactor|) (by omega)
        (by rw [abs_of_nonneg h₁]; exact h₂)
        (by rw [abs_abs]; exact constFactor_abs_le hT (hty u (by simp)))
      exact (le_abs_self _).trans hg
  unfold symbolicGcd at h
  dsimp only at h
  obtain ⟨hn0, hnN⟩ := hnum others |first.constFactor| ho (abs_nonneg _)
    (constFactor_abs_le hT hf)
  generalize others.foldl (fun acc u => gcd acc |u.constFactor|) |first.constFactor| = n at h hn0 hnN
  rw [constLike_eq hf] at h
  have hseed : t.wrap n ≠ -1 := by
    intro hw
    rcases (by omega : n < half t ∨ n = half t) with hlt | heq
    · rw [IntType.wrap_of_contains (hT.contains_iff.mpr ⟨by omega, hlt⟩)] at hw
      omega
    · rw [heq, hT.wrap_half] at hw
      omega
  have hseedc : minusOnes s (constOfType s n) = 0 := by
    apply minusOnes_const hT rfl
    show committed s n ≠ .int (-1)
    rw [hT.committed_eq]
    simpa using hseed
  have hfactors : ∀ f ∈ order ((commonFactors mixed first others).filter fun f => !isOne f),
      f ∈ (withoutFactor mixed first).splitUop .mul := by
    intro f hmem
    have hmem' := (hord _).subset hmem
    exact commonFactors_subset first others (List.mem_of_mem_filter hmem')
  have hft : ∀ f ∈ order ((commonFactors mixed first others).filter fun f => !isOne f),
      f.Typed s ∧ f.splitUop .mul = [f] := by
    intro f hmem
    exact ⟨splitUop_typed (withoutFactor_typed hT hf) f (hfactors f hmem),
      splitUop_irreducible (hfactors f hmem)⟩
  obtain ⟨hcount, hint⟩ := mulAll_minusOnes (constOfType_typed n) hft h
  refine ⟨(mulAll_typed (constOfType_typed n) (fun f hf => (hft f hf).1) h), ?_, ?_⟩
  · intro hg
    by_cases hnil : order ((commonFactors mixed first others).filter fun f => !isOne f) = []
    · rw [hnil] at h
      cases h
      have hv := hT.intConst_value (ρ := ρ) (constOfType_typed n) hg
      rw [hT.constOfType_value] at hv
      exact hseed hv
    · rw [hint hnil] at hg
      cases hg
  · intro u hu
    rw [hcount, hseedc, Nat.zero_add, (hord _).count_eq]
    exact (List.filter_sublist.count_le _).trans (commonFactors_count mixed _ first others u hu)

/-- The quotient by a common divisor is exact where both sides are accepted: the one case where
the numeric quotient leaves the type would need a factor `-1` that is still there. -/
theorem DivideExact.exact {order : List Expr → List Expr} (hord : ∀ l, (order l).Perm l)
    {e v b : Expr} (h : DivideExact mixed order e v b) (he : Accepted s e) (hb : Accepted s b)
    (hv : v.Typed s) (hv1 : intConst v ≠ some (-1))
    (hcount : ∀ u ∈ e.splitUop .add, minusOnes s v ≤ minusOnes s (withoutFactor mixed u)) :
    e.value ρ = v.value ρ * b.value ρ := by
  have hN := hT.half_bounds
  induction h with
  | same e =>
    rw [hT.constLike_exact he.typed (hT.contains_small (by omega) (by omega)), mul_one]
  | number hd h =>
    rw [divides_exact hT he hb (fun hm => hv1 (by rw [hd, hm])) h, hT.intConst_value hv hd]
  | sum h0 h1 h ih0 ih1 =>
    have ht0 := (h0.spec hT hord (ρ := ρ) he.typed.1 hv).1
    have ht1 := (h1.spec hT hord (ρ := ρ) he.typed.2.1 hv).1
    obtain ⟨rfl, _⟩ := tryAdd_typed ht0 ht1 h
    rw [splitUop, if_pos rfl] at hcount
    rw [value_add, value_add, ih0 he.lhs hb.lhs hv hv1 fun u hu => hcount u (by simp [hu]),
      ih1 he.rhs hb.rhs hv hv1 fun u hu => hcount u (by simp [hu]), Int.mul_add]
  | @product x y v b fac divFac d c c' k k' rem remaining hpop hpop' hk hk' hk0 hrem hrem0 hrest h =>
    obtain ⟨hrt, _, hkk, p, hp, hbv⟩ := productQuotient_value hT hord (ρ := ρ) he.typed hv
      hpop hpop' hk hk' hrem hrem0 hrest h
    by_cases hq : t.Contains (k.tdiv k')
    · rw [hp, hbv, IntType.wrap_of_contains hq]
    · -- the least value over `-1`
      obtain ⟨_, _, hkc⟩ := popConst_mul hT (ρ := ρ) he.typed hpop hk
      obtain ⟨_, _, hkc'⟩ := popConst_mul hT (ρ := ρ) hv hpop' hk'
      have hkt : t.Contains k := by
        rcases hkc with h1 | ⟨_, _, _, _, _, hkt⟩
        · exact hT.contains_small (by omega) (by omega)
        · exact hkt
      have hk1 : k' = -1 := by
        by_contra hne
        exact hq (hT.contains_quotient hkt hk0 hne hkk)
      rw [hk1] at hkk hkc' hbv hq h
      rw [hT.contains_iff] at hkt hq
      have hqN : k.tdiv (-1) = half t := by omega
      have hkN : k = -half t := by omega
      rcases hkc with h1 | ⟨cc, d₁, hec, _, hcc, _⟩
      · omega
      rcases hkc' with h1 | ⟨cc', d₂, hvc, hcd', hcc', _⟩
      · omega
      -- a factor `-1` of the divisor stays among the remaining ones
      have hle : minusOnes s v ≤ minusOnes s fac := by
        refine (hcount (binary .mul x y d) (by simp [splitUop])).trans ?_
        rw [hec] at he ⊢
        exact withoutFactor_least hT ρ he (by rw [hcc, hkN])
      rw [hvc, minusOnes_mul, (const_eq_minusOne hT hcd').mpr hcc'] at hle
      have hself : minusOnes s (minusOne s) = 1 := by
        unfold minusOnes minusOne constOfType
        simp [splitUop]
      have hmem : minusOne s ∈ remaining := by
        rw [(remainingFactors_perm hrest).2, ← List.count_pos_iff, List.count_diff]
        unfold minusOnes at hle hself
        omega
      have hzero : b.value ρ = 0 := by
        refine mulAll_least hT (constLike_typed he.typed _) hrt h hb (Or.inl ?_)
          ⟨minusOne s, (hord remaining).mem_iff.mpr hmem, minusOne_value hT⟩
        rw [hT.constLike_value he.typed, hqN, hT.wrap_half]
      have hp0 : p = 0 := by
        rw [hzero, hqN, hT.wrap_half] at hbv
        rcases Int.mul_eq_zero.mp hbv.symm with h0 | h0
        · omega
        · exact h0
      rw [hp, hzero, hp0]
      simp

end

end Svod.Symbolic
