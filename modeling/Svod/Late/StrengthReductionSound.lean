/-
  Svod.Late.StrengthReductionSound

  Where the late rewrites keep the value of a node.

  The arithmetic rules are identities of the integers that the reduction to the
  type respects.  The rules of negated comparisons move a constant by one, or
  across a negation; at the end of the type the moved constant comes back at the
  other end, and there the rule goes wrong.
-/

import Svod.Late.StrengthReduction
import Svod.Lib.TypedInt
import Svod.Symbolic.FactorSound

namespace Svod.Late.StrengthReduction

open Svod.Ir Svod.Lib Svod.Symbolic

variable {s : ScalarDType} {t : IntType} {env : Env} {e : Node} {out : Outcome}
  {x y a b : Term} {c c1 c2 : ConstValue} {v v1 v2 : ℤ} {k : ℕ}
variable {checks : Bool} {vmin : Term → ConstValue}

/-! ## Values of a type -/

theorem eval_contains (ht : intType s = some t) (henv : env.InType t) :
    ∀ e : Term, e.Typed s → t.Contains (e.eval t env)
  | .leaf i, _ => henv i
  | .const _, ⟨v, hv⟩ => by
    simp only [Term.eval, hv.integerValue, Option.getD_some]
    exact hv.contains ht
  | .neg _, _ => by rw [Term.eval]; exact t.wrap_contains _
  | .binary _ _ _, _ => by rw [Term.eval]; exact t.wrap_contains _
  | .mulacc _ _ _, _ => by rw [Term.eval]; exact t.wrap_contains _
  | .where_ c a b, h => by
    rw [Term.eval]
    split
    · exact eval_contains ht henv a h.2.1
    · exact eval_contains ht henv b h.2.2

theorem eval_const (h : HasType s c v) : (Term.const c).eval t env = v := by
  simp only [Term.eval, h.integerValue, Option.getD_some]

theorem shiftsBelow_of_ne {op : AluOp} (hl : op ≠ .shl) (hr : op ≠ .shr) (n : ℤ) :
    op.ShiftsBelow t n := fun h => h.elim (absurd · hl) (absurd · hr)

theorem ok_bind {α β : Type} (v : α) (f : α → Except HostError β) :
    (Except.ok v >>= f) = f v := rfl

/-- An assignment of every type. -/
def Env.zero : Env := { num := fun _ => 0, bool := fun _ => false }

theorem Env.zero_inType (t : IntType) : Env.zero.InType t := fun _ => t.contains_zero

theorem Keeps.intro {e' : Node} (htyped : e'.Typed s)
    (h : ∀ env : Env, env.InType t →
      e'.eval t env = e.eval t env ∧ (e.ShiftsBelow t env → e'.ShiftsBelow t env)) :
    Keeps s t e (.ok e') := ⟨e', rfl, htyped, h⟩

theorem Keeps.value {e e' : Term} (htyped : e'.Typed s)
    (h : ∀ env : Env, env.InType t →
      e'.eval t env = e.eval t env ∧ (e.ShiftsBelow t env → e'.ShiftsBelow t env)) :
    Keeps s t (.value e) (.ok (.value e')) :=
  Keeps.intro htyped fun env henv => ⟨congrArg Sum.inl (h env henv).1, (h env henv).2⟩

theorem Keeps.truth {c c' : Cond} (htyped : c'.Typed s)
    (h : ∀ env : Env, env.InType t →
      c'.eval t env = c.eval t env ∧ (c.ShiftsBelow t env → c'.ShiftsBelow t env)) :
    Keeps s t (.truth c) (.ok (.truth c')) :=
  Keeps.intro htyped fun env henv => ⟨congrArg Sum.inr (h env henv).1, (h env henv).2⟩

/-- The exponent of a constant is below the width; in a signed type the sign bit stays free. -/
theorem exponent_lt (h : t.Contains (2 ^ k)) :
    k < t.bits ∧ (t.signed = true → k + 1 < t.bits) := by
  have hpos := t.pos
  have hmax := h.2
  rw [IntType.max] at hmax
  by_cases hsg : t.signed = true
  · rw [if_pos hsg] at hmax
    have hlt : (2 : ℤ) ^ k < 2 ^ (t.bits - 1) := by omega
    have hk := (pow_lt_pow_iff_right₀ (by decide : (1 : ℤ) < 2)).mp hlt
    exact ⟨by omega, fun _ => by omega⟩
  · rw [if_neg hsg] at hmax
    have hlt : (2 : ℤ) ^ k < 2 ^ t.bits := by omega
    exact ⟨(pow_lt_pow_iff_right₀ (by decide : (1 : ℤ) < 2)).mp hlt, fun h => absurd h hsg⟩

/-- A number up to a constant of the type is of the type. -/
theorem contains_of_le {u : ℤ} (h : t.Contains v) (h0 : 0 ≤ u) (hle : u ≤ v) : t.Contains u :=
  ⟨t.contains_zero.1.trans h0, hle.trans h.2⟩

section

variable (ht : intType s = some t) (hs : s ≠ .bool)

include ht hs

theorem isUnsigned_eq : s.isUnsigned = !t.signed := by
  cases s <;> simp only [intType, reduceCtorEq, Option.some.injEq] at ht
  case bool => exact absurd rfl hs
  all_goals
    subst ht
    rfl

/-- A host integer committed to the type. -/
theorem const_int (hv : -2 ^ 63 ≤ v ∧ v < 2 ^ 63) :
    ∃ c, const_ s (.int v) = .ok (.const c) ∧ HasType s c (t.wrap v) := by
  obtain ⟨c, hc, hty⟩ := cast_hasType ht (c := .int v) hv rfl
  have hcast : castTo s t v = t.wrap v := if_neg hs
  rw [hcast] at hty
  exact ⟨c, by simp only [const_, hc], hty⟩

/-- A constant of a signed type is an `Int`, one of an unsigned type a `UInt`. -/
theorem const_kind (h : HasType s c v) :
    (t.signed = true ∧ c = .int v) ∨ (t.signed = false ∧ c = .uint v) := by
  have hu := isUnsigned_eq ht hs
  rcases h.kind with ⟨hbool, -⟩ | ⟨-, hun, rfl⟩ | ⟨-, hun, rfl⟩
  · exact absurd hbool hs
  · right
    rw [hun] at hu
    exact ⟨by simpa using hu.symm, rfl⟩
  · left
    rw [hun] at hu
    exact ⟨by simpa using hu.symm, rfl⟩

theorem hostInt_eq (h : HasType s c v) (hc : hostInt c = some v1) :
    v1 = v ∧ -2 ^ 63 ≤ v ∧ v < 2 ^ 63 := by
  have hm := h.machine
  rcases const_kind ht hs h with ⟨-, rfl⟩ | ⟨-, rfl⟩
  · cases hc
    exact ⟨rfl, hm⟩
  · rw [hostInt] at hc
    split at hc
    · rename_i hlt
      cases hc
      have hnonneg : 0 ≤ v := hm.1
      exact ⟨rfl, by omega, hlt⟩
    · cases hc

theorem exponent_eq (h : HasType s c v) (hc : exponent c = some k) : v = 2 ^ k := by
  rcases const_kind ht hs h with ⟨-, rfl⟩ | ⟨-, rfl⟩
  · rw [exponent] at hc
    split at hc
    · rename_i hpow
      cases hc
      exact hpow.2
    · cases hc
  · rw [exponent] at hc
    split at hc
    · rename_i hpow
      cases hc
      exact hpow.2
    · cases hc

/-- A small number committed to the type is itself. -/
theorem const_of_contains (hv : t.Contains v) (hhost : -2 ^ 63 ≤ v ∧ v < 2 ^ 63) :
    ∃ c, const_ s (.int v) = .ok (.const c) ∧ HasType s c v := by
  obtain ⟨c, hc, hty⟩ := const_int ht hs hhost
  rw [IntType.wrap_of_contains hv] at hty
  exact ⟨c, hc, hty⟩

/-- A shift amount below the width, as a constant of the type. -/
theorem const_shift (hc : t.Contains (2 ^ k)) :
    ∃ c, const_ s (.int k) = .ok (.const c) ∧ HasType s c k := by
  have hlt := exponent_lt hc
  have hbits := intType_bits_le ht
  have hle : (k : ℤ) ≤ 2 ^ k := by exact_mod_cast (Nat.lt_two_pow_self (n := k)).le
  refine const_of_contains ht hs (contains_of_le hc (Int.natCast_nonneg k) hle) ?_
  omega

/-! ## Arithmetic -/

theorem mulToShlOf_keeps (hx : x.Typed s) (hb : b.Typed s) (hout : out ∈ mulToShlOf s x b) :
    Keeps s t (.value (.binary .mul x b)) out := by
  cases b with
  | const c =>
    obtain ⟨v, hv⟩ := hb
    rw [mulToShlOf] at hout
    split at hout
    · -- a factor of one
      rename_i hexp
      rw [List.mem_singleton] at hout
      subst hout
      refine Keeps.value hx fun env henv => ⟨?_, fun h => h.1⟩
      rw [Term.eval, eval_const hv, exponent_eq ht hs hv hexp]
      simp only [AluOp.apply, pow_zero, Int.mul_one]
      exact (IntType.wrap_of_contains (eval_contains ht henv x hx)).symm
    · rename_i k _ hexp
      rw [List.mem_singleton] at hout
      subst hout
      have hval := exponent_eq ht hs hv hexp
      have hpow : t.Contains (2 ^ k) := hval ▸ hv.contains ht
      obtain ⟨c', hc', hty⟩ := const_shift ht hs hpow
      rw [hc']
      refine Keeps.value ⟨hx, k, hty⟩ fun env henv => ⟨?_, fun h => ⟨h.1, trivial, fun _ => ?_⟩⟩
      · simp only [Term.eval, hty.integerValue, hv.integerValue, Option.getD_some, hval]
        rfl
      · rw [eval_const hty]
        exact ⟨Int.natCast_nonneg k, by exact_mod_cast (exponent_lt hpow).1⟩
    · cases hout
  | leaf i => cases hout
  | neg a => cases hout
  | binary op a b => cases hout
  | mulacc a b c => cases hout
  | where_ c a b => cases hout

omit ht hs in
theorem binary_comm {op : AluOp} (hop : ∀ x y, op.apply x y = op.apply y x)
    (hl : op ≠ .shl) (hr : op ≠ .shr) (h : Keeps s t (.value (.binary op b a)) out) :
    Keeps s t (.value (.binary op a b)) out := by
  obtain ⟨e', rfl, htyped, hval⟩ := h
  refine ⟨e', rfl, htyped, fun env henv => ?_⟩
  obtain ⟨heval, hshift⟩ := hval env henv
  refine ⟨heval.trans ?_, fun h => hshift ⟨h.2.1, h.1, shiftsBelow_of_ne hl hr _⟩⟩
  simp only [Node.eval, Term.eval, hop (b.eval t env)]

theorem mulToShl_keeps (he : e.Typed s) (hout : out ∈ mulToShl s e) : Keeps s t e out := by
  unfold mulToShl at hout
  split at hout
  · rcases List.mem_append.mp hout with hout | hout
    · exact mulToShlOf_keeps ht hs he.1 he.2 hout
    · exact binary_comm Int.mul_comm (by decide) (by decide)
        (mulToShlOf_keeps ht hs he.2 he.1 hout)
  · cases hout

omit ht hs in
theorem negOf_keeps (hx : x.Typed s) (hb : b.Typed s) (hout : out ∈ negOf x b) :
    Keeps s t (.value (.binary .mul x b)) out := by
  unfold negOf at hout
  split at hout
  · split at hout
    · rename_i hc
      subst hc
      rw [List.mem_singleton] at hout
      subst hout
      refine Keeps.value hx fun env henv => ⟨?_, fun h => h.1⟩
      obtain ⟨v, hv⟩ := hb
      have hneg : v = -1 := (Option.some.inj hv.integerValue).symm
      rw [Term.eval, Term.eval, eval_const hv, hneg]
      simp only [AluOp.apply, Int.mul_neg, Int.mul_one]
    · cases hout
  · cases hout

omit ht hs in
/-- A sum does not see that its second operand was reduced to the type. -/
theorem wrap_add_wrap (t : IntType) (u v : ℤ) : t.wrap (u + t.wrap v) = t.wrap (u + v) :=
  Agree.eq ((wrap_agree _).trans (((Agree.refl u).add (wrap_agree v)).trans
    (wrap_agree (t := t) (u + v)).symm)) (t.wrap_contains _) (t.wrap_contains _)

omit ht hs in
theorem subOf_keeps (hx : x.Typed s) (hb : b.Typed s) (hout : out ∈ subOf x b) :
    Keeps s t (.value (.binary .add x b)) out := by
  unfold subOf at hout
  split at hout
  · rw [List.mem_singleton] at hout
    subst hout
    refine Keeps.value ⟨hx, hb⟩ fun env henv =>
      ⟨?_, fun h => ⟨h.1, h.2.1, shiftsBelow_of_ne (by decide) (by decide) _⟩⟩
    rw [Term.eval, Term.eval, Term.eval]
    simp only [AluOp.apply]
    rw [wrap_add_wrap, Int.sub_eq_add_neg]
  · cases hout

omit ht hs in
theorem negFromMul_keeps (he : e.Typed s) (hout : out ∈ negFromMul e) : Keeps s t e out := by
  unfold negFromMul at hout
  split at hout
  · rcases List.mem_append.mp hout with hout | hout
    · exact negOf_keeps he.1 he.2 hout
    · exact binary_comm Int.mul_comm (by decide) (by decide) (negOf_keeps he.2 he.1 hout)
  · rcases List.mem_append.mp hout with hout | hout
    · exact subOf_keeps he.1 he.2 hout
    · exact binary_comm Int.add_comm (by decide) (by decide) (subOf_keeps he.2 he.1 hout)
  · cases hout

theorem mulaccOf_keeps (ha : a.Typed s) (hb : b.Typed s) (hout : out ∈ mulaccOf s a b) :
    Keeps s t (.value (.binary .add a b)) out := by
  unfold mulaccOf at hout
  split at hout
  · rename_i x v
    split at hout
    · rename_i hv
      rw [List.mem_singleton] at hout
      subst hout
      obtain ⟨hx, w, hw⟩ := ha
      obtain rfl : v = w := Option.some.inj hw.integerValue
      -- the multiplier is the power of two up to the type
      obtain ⟨m, hm, hty⟩ := const_int ht hs (v := hostPower v.toNat)
        (wrapSigned_bounds (by decide) _)
      rw [hm]
      refine Keeps.value ⟨hx, ⟨_, hty⟩, hb⟩ fun env henv => ⟨?_, fun h => ⟨h.1.1, trivial, h.2.1⟩⟩
      simp only [Term.eval, hty.integerValue, hw.integerValue, Option.getD_some, AluOp.apply,
        hostPower, t.wrap_wrapSigned (intType_bits_le ht)]
      have hprod : Agree t (x.eval t env * t.wrap (2 ^ v.toNat))
          (t.wrap (x.eval t env * 2 ^ v.toNat)) :=
        ((Agree.refl _).mul (wrap_agree _)).trans (wrap_agree _).symm
      exact Agree.eq ((wrap_agree _).trans ((hprod.add (Agree.refl _)).trans (wrap_agree _).symm))
        (t.wrap_contains _) (t.wrap_contains _)
    · cases hout
  · cases hout

theorem shlAddToMulacc_keeps (he : e.Typed s) (hout : out ∈ shlAddToMulacc s e) :
    Keeps s t e out := by
  unfold shlAddToMulacc at hout
  split at hout
  · rcases List.mem_append.mp hout with hout | hout
    · exact mulaccOf_keeps ht hs he.1 he.2 hout
    · exact binary_comm Int.add_comm (by decide) (by decide)
        (mulaccOf_keeps ht hs he.2 he.1 hout)
  · cases hout

omit hs in
theorem maxDecomposition_keeps (he : e.Typed s) (hout : out ∈ maxDecomposition e) :
    Keeps s t e out := by
  unfold maxDecomposition at hout
  split at hout
  · rename_i a b
    rw [List.mem_singleton] at hout
    subst hout
    refine Keeps.value ⟨he, he.2, he.1⟩ fun env henv =>
      ⟨?_, fun h => ⟨⟨h.1, h.2.1⟩, h.2.1, h.1⟩⟩
    have ha := eval_contains ht henv a he.1
    have hb := eval_contains ht henv b he.2
    simp only [Term.eval, Cond.eval, AluOp.apply, decide_eq_true_eq]
    by_cases hlt : a.eval t env < b.eval t env
    · rw [if_pos hlt, max_eq_right hlt.le, IntType.wrap_of_contains hb]
    · rw [if_neg hlt, max_eq_left (not_lt.mp hlt), IntType.wrap_of_contains ha]
  · cases hout

end

theorem demorganOf_keeps {c d : Cond} (hc : c.Typed s) (hd : d.Typed s)
    (hout : out ∈ demorganOf c d) : Keeps s t (.truth (.and c d)) out := by
  unfold demorganOf at hout
  split at hout
  · rw [List.mem_singleton] at hout
    subst hout
    refine Keeps.truth ⟨hc, hd⟩ fun env henv => ⟨?_, id⟩
    simp only [Cond.eval, Bool.not_or]
  · cases hout

theorem and_comm_keeps {c d : Cond} (h : Keeps s t (.truth (.and d c)) out) :
    Keeps s t (.truth (.and c d)) out := by
  obtain ⟨e', rfl, htyped, hval⟩ := h
  refine ⟨e', rfl, htyped, fun env henv => ?_⟩
  obtain ⟨heval, hshift⟩ := hval env henv
  refine ⟨heval.trans ?_, fun h => hshift ⟨h.2, h.1⟩⟩
  simp only [Node.eval, Cond.eval, Bool.and_comm]

theorem demorgan_keeps (he : e.Typed s) (hout : out ∈ demorgan e) : Keeps s t e out := by
  unfold demorgan at hout
  split at hout
  · rcases List.mem_append.mp hout with hout | hout
    · exact demorganOf_keeps he.1 he.2 hout
    · exact and_comm_keeps (demorganOf_keeps he.2 he.1 hout)
  · cases hout

/-! ## Powers of two -/

theorem keeps_ok_iff {e' : Node} (htyped : e'.Typed s)
    (hshift : ∀ env : Env, env.InType t → e.ShiftsBelow t env → e'.ShiftsBelow t env) :
    Keeps s t e (.ok e') ↔ ∀ env : Env, env.InType t → e'.eval t env = e.eval t env := by
  constructor
  · rintro ⟨e'', he'', -, h⟩ env henv
    cases he''
    exact (h env henv).1
  · exact fun h => Keeps.intro htyped fun env henv => ⟨h env henv, hshift env henv⟩

/-- Shifting to the right moves a value towards zero. -/
theorem contains_shr {u : ℤ} (h : t.Contains u) (k : ℕ) : t.Contains (u / 2 ^ k) := by
  have hpos : (0 : ℤ) < 2 ^ k := by positivity
  have hzero := t.contains_zero
  rcases Int.lt_or_le u 0 with hneg | hnonneg
  · have hlt := Int.ediv_neg_of_neg_of_pos hneg hpos
    have hle : u ≤ u / 2 ^ k := by
      rw [Int.le_ediv_iff_mul_le hpos]
      have := Int.mul_le_mul_of_nonpos_left (a := u) (b := 2 ^ k) (c := 1) (by omega) (by omega)
      omega
    exact ⟨h.1.trans hle, hlt.le.trans hzero.2⟩
  · exact contains_of_le h (Int.ediv_nonneg hnonneg hpos.le) (Int.ediv_le_self _ hnonneg)

/-- A truncated quotient by a power of two is a shift exactly where nothing is rounded up. -/
theorem wrap_tdiv_eq_iff {u : ℤ} (h : t.Contains u) (k : ℕ) :
    t.wrap (u / 2 ^ k) = t.wrap (u.tdiv (2 ^ k)) ↔ (u < 0 → (2 : ℤ) ^ k ∣ u) := by
  have hpos : (0 : ℤ) < 2 ^ k := by positivity
  have hquot := Int.tdiv_eq_ediv (a := u) (b := 2 ^ k)
  by_cases hexact : 0 ≤ u ∨ (2 : ℤ) ^ k ∣ u
  · rw [if_pos hexact, Int.add_zero] at hquot
    rw [hquot]
    exact iff_of_true rfl fun hneg => hexact.resolve_left (by omega)
  · rw [not_or, Int.not_le] at hexact
    have hor : ¬ (0 ≤ u ∨ (2 : ℤ) ^ k ∣ u) := fun h => h.elim (by omega) hexact.2
    rw [if_neg hor, Int.sign_eq_one_of_pos hpos] at hquot
    have hshr := contains_shr h k
    have hlt := Int.ediv_neg_of_neg_of_pos hexact.1 hpos
    have hup : t.Contains (u / 2 ^ k + 1) :=
      ⟨hshr.1.trans (by omega), (by omega : u / 2 ^ k + 1 ≤ 0).trans t.contains_zero.2⟩
    rw [hquot, IntType.wrap_of_contains hshr, IntType.wrap_of_contains hup]
    exact iff_of_false (by omega) fun h => hexact.2 (h hexact.1)

theorem hostPower_of_lt (hk : k < 63) : hostPower k = 2 ^ k := by
  have hlt : (2 : ℤ) ^ k < 2 ^ 63 := by
    exact_mod_cast Nat.pow_lt_pow_right (by decide) hk
  have hpos : (0 : ℤ) < 2 ^ k := by positivity
  exact wrapSigned_of_bounds (by decide) (by omega) hlt

theorem subI64_power (checks : Bool) (hk : k < 63) :
    subI64 checks (hostPower k) 1 = .ok (2 ^ k - 1) := by
  have hlt : (2 : ℤ) ^ k < 2 ^ 63 := by
    exact_mod_cast Nat.pow_lt_pow_right (by decide) hk
  have hpos : (0 : ℤ) < 2 ^ k := by positivity
  rw [hostPower_of_lt hk, subI64, if_pos ⟨by omega, by omega⟩]

/-- An unchecked `-` comes around to the mask of the greatest power. -/
theorem subI64_wraps : subI64 false (hostPower 63) 1 = .ok (2 ^ 63 - 1) := by
  have hmin : hostPower 63 = -2 ^ 63 :=
    (wrapSigned_congr (v := -2 ^ 63) ⟨1, by norm_num⟩).trans
      (wrapSigned_of_bounds (by decide) (by norm_num) (by norm_num))
  have hmask : wrapSigned 64 (-2 ^ 63 - 1) = 2 ^ 63 - 1 :=
    (wrapSigned_congr (v := 2 ^ 63 - 1) ⟨-1, by norm_num⟩).trans
      (wrapSigned_of_bounds (by decide) (by norm_num) (by norm_num))
  rw [hmin, subI64, if_neg (by norm_num), if_neg Bool.false_ne_true, hmask]

section

variable (ht : intType s = some t) (hs : s ≠ .bool)

include ht hs

/-- The mask of a power of two, as a constant of the type. -/
theorem const_mask (hc : t.Contains (2 ^ k)) (hk : k < 63 ∨ k = 63) :
    ∃ c, const_ s (.int (2 ^ k - 1)) = .ok (.const c) ∧ HasType s c (2 ^ k - 1) := by
  have hpos : (0 : ℤ) < 2 ^ k := by positivity
  have hle : (2 : ℤ) ^ k ≤ 2 ^ 63 := by
    exact_mod_cast Nat.pow_le_pow_right (by decide) (by omega)
  exact const_of_contains ht hs (contains_of_le hc (by omega) (by omega)) (by omega)

theorem modToAnd_iff (he : e.Typed s) (hout : out ∈ modToAnd checks s e) :
    Keeps s t e out ↔ Rule.modToAnd.ExactOn checks t vmin e := by
  unfold modToAnd at hout
  split at hout
  · rename_i x c
    split at hout
    · rename_i k hexp
      rw [List.mem_singleton] at hout
      obtain ⟨hx, v, hv⟩ := he
      have hval := exponent_eq ht hs hv hexp
      subst hval
      have hpow := hv.contains ht
      have hbits := intType_bits_le ht
      have hlt := exponent_lt hpow
      -- where the mask is there, it takes the remainder
      have hmask : ∀ m, HasType s m (2 ^ k - 1) →
          Keeps s t (.value (.binary .floorMod x (.const c))) (.ok (.value (.binary .and x (.const m))))
          := fun m hm => Keeps.value ⟨hx, _, hm⟩ fun env henv =>
        ⟨by simp only [Term.eval, hm.integerValue, hv.integerValue, Option.getD_some, AluOp.apply,
              fmod_two_pow],
          fun h => ⟨h.1, trivial, shiftsBelow_of_ne (by decide) (by decide) _⟩⟩
      obtain ⟨m, hm, hty⟩ := const_mask ht hs hpow (by omega)
      rcases Nat.lt_or_ge k 63 with hk | hk
      · rw [subI64_power checks hk] at hout
        subst hout
        refine iff_of_true ?_ fun h => ?_
        · simp only [ok_bind, hm]
          exact hmask m hty
        · have hmax : (2 : ℤ) ^ k = 2 ^ 63 := by
            have := hv.integerValue
            rw [h.2] at this
            exact (Option.some.inj this).symm
          have := (pow_lt_pow_iff_right₀ (by decide : (1 : ℤ) < 2)).mpr hk
          omega
      · obtain rfl : k = 63 := by omega
        rcases const_kind ht hs hv with ⟨hsg, -⟩ | ⟨-, rfl⟩
        · exact absurd (hlt.2 hsg) (by omega)
        · subst hout
          cases checks with
          | true =>
            refine iff_of_false ?_ fun h => h ⟨rfl, rfl⟩
            rintro ⟨e', he', -⟩
            cases he'
          | false =>
            refine iff_of_true ?_ fun h => Bool.false_ne_true h.1
            simp only [subI64_wraps, ok_bind, hm]
            exact hmask m hty
    · cases hout
  · cases hout

theorem divToShr_iff (he : e.Typed s) (hout : out ∈ divToShr checks s vmin e) :
    Keeps s t e out ↔ Rule.divToShr.ExactOn checks t vmin e := by
  unfold divToShr at hout
  split at hout
  · rename_i x c
    split at hout
    · cases hout
    · rename_i k _ hexp
      obtain ⟨hx, v, hv⟩ := he
      have hval := exponent_eq ht hs hv hexp
      subst hval
      have hpow := hv.contains ht
      have hbits := intType_bits_le ht
      have hlt := exponent_lt hpow
      obtain ⟨sh, hsh, hty⟩ := const_shift ht hs hpow
      have hbelow : AluOp.ShiftsBelow t .shr (k : ℤ) := fun _ =>
        ⟨Int.natCast_nonneg k, by exact_mod_cast hlt.1⟩
      simp only [Rule.ExactOn, hv.integerValue, Option.getD_some]
      split at hout
      · -- the dividend is shifted as it is
        rename_i hplain
        rw [List.mem_singleton] at hout
        subst hout
        simp only [hsh, ok_bind]
        have htyped : (Node.value (.binary .shr x (.const sh))).Typed s := ⟨hx, _, hty⟩
        rw [keeps_ok_iff (e := .value (.binary .cdiv x (.const c))) htyped fun env henv h =>
          ⟨h.1, trivial, by rw [eval_const hty]; exact hbelow⟩]
        have hstep : ∀ env : Env, env.InType t →
            ((Node.value (.binary .shr x (.const sh))).eval t env =
              (Node.value (.binary .cdiv x (.const c))).eval t env ↔
                (x.eval t env < 0 → (2 : ℤ) ^ k ∣ x.eval t env)) := fun env henv => by
          rw [← wrap_tdiv_eq_iff (eval_contains ht henv x hx) k]
          simp only [Node.eval, Term.eval, hty.integerValue, hv.integerValue, Option.getD_some,
            AluOp.apply, Int.toNat_natCast, Sum.inl.injEq]
        constructor
        · exact fun h _ env henv => (hstep env henv).mp (h env henv)
        · intro h env henv
          refine (hstep env henv).mpr fun hneg => ?_
          rcases Bool.or_eq_true_iff.mp hplain with hnonneg | hunsigned
          · exact h hnonneg env henv hneg
          · -- an unsigned value is not negative
            rw [isUnsigned_eq ht hs, Bool.not_eq_true'] at hunsigned
            have hmin := (eval_contains ht henv x hx).1
            rw [IntType.min, hunsigned, if_neg Bool.false_ne_true] at hmin
            omega
      · rename_i hplain
        rw [List.mem_singleton] at hout
        subst hout
        rw [Bool.or_eq_true_iff, not_or, isUnsigned_eq ht hs] at hplain
        refine iff_of_true ?_ fun h => absurd h hplain.1
        have hk : k < 63 := by
          have := hlt.2 (by simpa using hplain.2)
          omega
        obtain ⟨z, hz, hzero⟩ := const_of_contains ht hs t.contains_zero ⟨by norm_num, by norm_num⟩
        obtain ⟨m, hm, hbias⟩ := const_mask ht hs hpow (Or.inl hk)
        simp only [hsh, hz, subI64_power checks hk, ok_bind, hm]
        refine Keeps.value ⟨⟨hx, ⟨hx, _, hzero⟩, ⟨_, hbias⟩, _, hzero⟩, _, hty⟩
          fun env henv => ⟨?_, fun h => ⟨⟨h.1, ⟨⟨h.1, trivial⟩, trivial, trivial⟩,
            shiftsBelow_of_ne (by decide) (by decide) _⟩, trivial, by
              rw [eval_const hty]; exact hbelow⟩⟩
        have hu := eval_contains ht henv x hx
        have hone : (0 : ℤ) < 2 ^ k := by positivity
        have hadjusted : t.Contains
            (x.eval t env + if x.eval t env < 0 then 2 ^ k - 1 else 0) := by
          split
          · exact ⟨hu.1.trans (by omega), le_trans (by omega) hpow.2⟩
          · rwa [Int.add_zero]
        simp only [Term.eval, Cond.eval, hty.integerValue, hv.integerValue, hzero.integerValue,
          hbias.integerValue, Option.getD_some, AluOp.apply, Int.toNat_natCast, decide_eq_true_eq]
        rw [IntType.wrap_of_contains hadjusted, tdiv_two_pow]
    · cases hout
  · cases hout

end

/-! ## Negated comparisons -/

theorem checkedI64_eq {w : ℤ} (h : checkedI64 v = some w) : v = w ∧ -2 ^ 63 ≤ w ∧ w < 2 ^ 63 := by
  rw [checkedI64] at h
  split at h
  · rename_i hbounds
    cases h
    exact ⟨rfl, hbounds⟩
  · cases h

/-- A comparison is kept exactly where its truth is. -/
theorem keeps_truth_iff {c c' : Cond} {p : Prop} (htyped : c'.Typed s)
    (hshift : ∀ env : Env, env.InType t → c.ShiftsBelow t env → c'.ShiftsBelow t env)
    (h : (∀ env : Env, env.InType t → (c'.eval t env = true ↔ c.eval t env = true)) ↔ p) :
    Keeps s t (.truth c) (.ok (.truth c')) ↔ p := by
  have hcond : (Node.truth c').Typed s := htyped
  rw [keeps_ok_iff (e := .truth c) hcond hshift, ← h]
  refine forall₂_congr fun env _ => ?_
  rw [← Bool.eq_iff_iff]
  exact Sum.inr_injective.eq_iff

section

variable (ht : intType s = some t) (hs : s ≠ .bool)

include ht hs

/-- The moved constant of a comparison: a host integer the node's constant gives. -/
theorem movedConst {f : ℤ → ℤ} {w : ℤ} (h : HasType s c v)
    (hmoved : ((hostInt c).bind fun u => checkedI64 (f u)) = some w) :
    ∃ c', const_ s (.int w) = .ok (.const c') ∧ HasType s c' (t.wrap (f v)) := by
  obtain ⟨u, hu, hw⟩ := Option.bind_eq_some_iff.mp hmoved
  obtain ⟨rfl, -⟩ := hostInt_eq ht hs h hu
  obtain ⟨rfl, hbounds⟩ := checkedI64_eq hw
  exact const_int ht hs hbounds

theorem notLtConst_iff (he : e.Typed s) (hout : out ∈ notLtConst s e) :
    Keeps s t e out ↔ Rule.notLtConst.ExactOn checks t vmin e := by
  unfold notLtConst at hout
  split at hout
  · rename_i x c
    obtain ⟨hx, v, hv⟩ := he
    split at hout
    · rename_i w hmoved
      rw [List.mem_singleton] at hout
      obtain ⟨c', hc', hty⟩ := movedConst (f := (· - 1)) ht hs hv hmoved
      subst hout
      rw [hc', ok_bind]
      refine keeps_truth_iff ⟨⟨_, hty⟩, hx⟩ (fun env _ h => ⟨trivial, h.1⟩) ?_
      have hstep : ∀ env : Env, env.InType t →
          (((Cond.lt (.const c') x).eval t env = true ↔
            (Cond.not (.lt x (.const c))).eval t env = true) ↔ v ≠ t.min) := fun env henv => by
        rw [← IntType.wrap_sub_one_lt_iff (eval_contains ht henv x hx) (hv.contains ht)]
        simp only [Cond.eval, eval_const hty, eval_const hv, decide_eq_true_eq, Bool.not_eq_true',
          decide_eq_false_iff_not]
      simp only [Rule.ExactOn, hv.integerValue, ne_eq, Option.some.injEq]
      exact ⟨fun h => (hstep _ (Env.zero_inType t)).mp (h _ (Env.zero_inType t)),
        fun h env henv => (hstep env henv).mpr h⟩
    · cases hout
  · cases hout

theorem notConstLt_iff (he : e.Typed s) (hout : out ∈ notConstLt s e) :
    Keeps s t e out ↔ Rule.notConstLt.ExactOn checks t vmin e := by
  unfold notConstLt at hout
  split at hout
  · rename_i c x
    obtain ⟨⟨v, hv⟩, hx⟩ := he
    split at hout
    · rename_i w hmoved
      rw [List.mem_singleton] at hout
      obtain ⟨c', hc', hty⟩ := movedConst (f := (· + 1)) ht hs hv hmoved
      subst hout
      rw [hc', ok_bind]
      refine keeps_truth_iff ⟨hx, _, hty⟩ (fun env _ h => ⟨h.2, trivial⟩) ?_
      have hstep : ∀ env : Env, env.InType t →
          (((Cond.lt x (.const c')).eval t env = true ↔
            (Cond.not (.lt (.const c) x)).eval t env = true) ↔ v ≠ t.max) := fun env henv => by
        rw [← IntType.lt_wrap_add_one_iff (eval_contains ht henv x hx) (hv.contains ht)]
        simp only [Cond.eval, eval_const hty, eval_const hv, decide_eq_true_eq, Bool.not_eq_true',
          decide_eq_false_iff_not]
      simp only [Rule.ExactOn, hv.integerValue, ne_eq, Option.some.injEq]
      exact ⟨fun h => (hstep _ (Env.zero_inType t)).mp (h _ (Env.zero_inType t)),
        fun h env henv => (hstep env henv).mpr h⟩
    · cases hout
  · cases hout

theorem oneValueOf_keeps {p q : Cond} (hp : p.Typed s) (hq : q.Typed s)
    (hout : out ∈ oneValueOf s p q) : Keeps s t (.truth (.and p q)) out := by
  unfold oneValueOf at hout
  split at hout
  · rename_i c1 x x2 c2
    split at hout
    · rename_i hxx
      subst hxx
      split at hout
      · rename_i v1 v2 h1 h2
        split at hout
        · rename_i hnext
          rw [List.mem_singleton] at hout
          obtain ⟨⟨u1, hu1⟩, hx⟩ := hp
          obtain ⟨-, u2, hu2⟩ := hq
          obtain ⟨rfl, hlo1, -⟩ := hostInt_eq ht hs hu1 h1
          obtain ⟨rfl, -⟩ := hostInt_eq ht hs hu2 h2
          obtain ⟨hv2, hlo, hhi⟩ := checkedI64_eq hnext
          have hc1 := hu1.contains ht
          have hc2 := hu2.contains ht
          -- the value between the two bounds
          obtain ⟨c', hc', hty⟩ := const_of_contains ht hs (v := v1 + 1)
            ⟨hc1.1.trans (by omega), le_trans (by omega) hc2.2⟩ (by omega)
          subst hout
          rw [hc', ok_bind]
          refine Keeps.truth ⟨hx, _, hty⟩ fun env henv => ⟨?_, fun h => ⟨h.1.2, trivial⟩⟩
          simp only [Cond.eval, eval_const hty, eval_const hu1, eval_const hu2]
          rw [← Bool.decide_and, decide_eq_decide]
          omega
        · cases hout
      · cases hout
    · cases hout
  · cases hout

theorem oneValue_keeps (he : e.Typed s) (hout : out ∈ oneValue s e) : Keeps s t e out := by
  unfold oneValue at hout
  split at hout
  · rcases List.mem_append.mp hout with hout | hout
    · exact oneValueOf_keeps ht hs he.1 he.2 hout
    · exact and_comm_keeps (oneValueOf_keeps ht hs he.2 he.1 hout)
  · cases hout

/-- A multiplication by minus one is of a signed type. -/
theorem signed_of_negOne (h : ∃ v, HasType s (.int (-1)) v) : t.signed = true := by
  obtain ⟨v, hv⟩ := h
  rcases const_kind ht hs hv with ⟨hsg, -⟩ | ⟨-, hc⟩
  · exact hsg
  · cases hc

/-- A comparison of a negation with `b`, turned into one of `-b`. -/
theorem negLt_iff {b' : Term} (hx : x.Typed s) (hn : ∃ v, HasType s (.int (-1)) v)
    (hb : b.Typed s) (hb' : b'.Typed s)
    (hneg : ∀ env : Env, env.InType t → b'.eval t env = t.wrap (-b.eval t env))
    (hshift : ∀ env : Env, b.ShiftsBelow t env → b'.ShiftsBelow t env) :
    Keeps s t (.truth (.lt (.binary .mul x (.const (.int (-1)))) b)) (.ok (.truth (.lt b' x))) ↔
      ∀ env : Env, env.InType t → (x.eval t env = t.min ↔ b.eval t env = t.min) := by
  have hsg := signed_of_negOne ht hs hn
  refine keeps_truth_iff ⟨hb', hx⟩ (fun env _ h => ⟨hshift env h.2, h.1.1⟩) ?_
  refine forall₂_congr fun env henv => ?_
  rw [← IntType.wrap_neg_lt_iff hsg (eval_contains ht henv x hx) (eval_contains ht henv b hb)]
  have hvalue : (Term.const (.int (-1))).eval t env = -1 := rfl
  simp only [Cond.eval, decide_eq_true_eq, hneg env henv]
  rw [Term.eval, hvalue]
  simp only [AluOp.apply, Int.mul_neg, Int.mul_one]

theorem negLtConst_iff (he : e.Typed s) (hout : out ∈ negLtConst s e) :
    Keeps s t e out ↔ Rule.negLtConst.ExactOn checks t vmin e := by
  unfold negLtConst at hout
  split at hout
  · rename_i x n c
    obtain ⟨⟨hx, hn⟩, v, hv⟩ := he
    split at hout
    · rename_i hone
      subst hone
      split at hout
      · rename_i w hmoved
        rw [List.mem_singleton] at hout
        obtain ⟨c', hc', hty⟩ := movedConst (f := (-·)) ht hs hv hmoved
        subst hout
        rw [hc', ok_bind]
        refine negLt_iff ht hs hx hn ⟨v, hv⟩ ⟨_, hty⟩ (fun env _ => ?_) fun _ _ => trivial
        rw [eval_const hty, eval_const hv]
      · cases hout
    · cases hout
  · cases hout

theorem negLtScaled_iff (he : e.Typed s) (hout : out ∈ negLtScaled s e) :
    Keeps s t e out ↔ Rule.negLtScaled.ExactOn checks t vmin e := by
  unfold negLtScaled at hout
  split at hout
  · rename_i x n y c
    obtain ⟨⟨hx, hn⟩, hy, v, hv⟩ := he
    split at hout
    · rename_i hone
      subst hone
      split at hout
      · rename_i w hmoved
        rw [List.mem_singleton] at hout
        obtain ⟨c', hc', hty⟩ := movedConst (f := (-·)) ht hs hv hmoved
        subst hout
        rw [hc', ok_bind]
        refine negLt_iff ht hs hx hn ⟨hy, v, hv⟩ ⟨hy, _, hty⟩ (fun env _ => ?_)
          fun env h => ⟨h.1, trivial, shiftsBelow_of_ne (by decide) (by decide) _⟩
        simp only [Term.eval, hty.integerValue, hv.integerValue, Option.getD_some, AluOp.apply]
        -- both are the negated product, up to the size of the type
        have hscaled : Agree t (y.eval t env * t.wrap (-v)) (-(y.eval t env * v)) := by
          rw [← Int.mul_neg]
          exact (Agree.refl _).mul (wrap_agree _)
        have hproduct : Agree t (-t.wrap (y.eval t env * v)) (-(y.eval t env * v)) :=
          Int.ModEq.neg (wrap_agree _)
        exact Agree.eq ((wrap_agree _).trans (hscaled.trans
          (Int.ModEq.symm ((wrap_agree _).trans hproduct)))) (t.wrap_contains _) (t.wrap_contains _)
      · cases hout
    · cases hout
  · cases hout

end

/-! ## Every rule -/

/-- A rule keeps the value of the node it matches exactly where `Rule.ExactOn` says so. -/
theorem lateRules_exact_iff {checks : Bool} {vmin : Term → ConstValue}
    (ht : intType s = some t) (hs : s ≠ .bool) (rule : Rule) (he : e.Typed s)
    (hout : out ∈ rule.outcomes checks s vmin e) :
    Keeps s t e out ↔ rule.ExactOn checks t vmin e := by
  cases rule with
  | modToAnd => exact modToAnd_iff ht hs he hout
  | divToShr => exact divToShr_iff ht hs he hout
  | notLtConst => exact notLtConst_iff ht hs he hout
  | notConstLt => exact notConstLt_iff ht hs he hout
  | negLtConst => exact negLtConst_iff ht hs he hout
  | negLtScaled => exact negLtScaled_iff ht hs he hout
  | mulToShl => exact iff_of_true (mulToShl_keeps ht hs he hout) trivial
  | negFromMul => exact iff_of_true (negFromMul_keeps he hout) trivial
  | demorgan => exact iff_of_true (demorgan_keeps he hout) trivial
  | shlAddToMulacc => exact iff_of_true (shlAddToMulacc_keeps ht hs he hout) trivial
  | maxDecomposition => exact iff_of_true (maxDecomposition_keeps ht he hout) trivial
  | oneValue => exact iff_of_true (oneValue_keeps ht hs he hout) trivial

/-- `!(x < 5)` of bytes is `4 < x`. -/
theorem lateRules_exact_iff_five :
    Keeps .int8 ⟨true, 8, by decide⟩ (.truth (.not (.lt (.leaf 0) (.const (.int 5)))))
      (.ok (.truth (.lt (.const (.int 4)) (.leaf 0)))) :=
  (lateRules_exact_iff rfl (by decide) .notLtConst
    (show (Node.truth (.not (.lt (.leaf 0) (.const (.int 5))))).Typed .int8 from
      ⟨trivial, 5, _, rfl, by decide, rfl⟩)
    (show _ ∈ Rule.notLtConst.outcomes false .int8 (fun _ => .invalid) _ from
      List.mem_singleton.mpr rfl)).mpr (show some 5 ≠ some _ by decide)

/-- `!(x < 0)` of unsigned bytes, which always holds. -/
def notBelowZero : Node := .truth (.not (.lt (.leaf 0) (.const (.uint 0))))

/-- It becomes `255 < x`, which never holds. -/
theorem notLtConst_of_zero :
    Rule.notLtConst.outcomes false .uint8 (fun _ => .invalid) notBelowZero =
        [.ok (.truth (.lt (.const (.uint 255)) (.leaf 0)))] ∧
      ∀ env : Env, env.InType ⟨false, 8, by decide⟩ →
        notBelowZero.eval ⟨false, 8, by decide⟩ env = .inr true ∧
        Node.eval ⟨false, 8, by decide⟩ env (.truth (.lt (.const (.uint 255)) (.leaf 0))) =
          .inr false := by
  refine ⟨by decide, fun env henv => ?_⟩
  have hlo : 0 ≤ env.num 0 := (henv 0).1
  have hhi : env.num 0 ≤ 255 := (henv 0).2
  have hbelow : decide (env.num 0 < 0) = false := decide_eq_false (by omega)
  have habove : decide (255 < env.num 0) = false := decide_eq_false (by omega)
  exact ⟨congrArg (fun b => Sum.inr !b) hbelow, congrArg Sum.inr habove⟩

end Svod.Late.StrengthReduction
