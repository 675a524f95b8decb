/-
  Svod.Symbolic.ReassociationSound

  Where the rules of `Reassociation` keep the value of the node they rewrite.  Sums,
  products and bitwise operations are compared up to a multiple of the size of the
  type: there the laws of the integers hold, and a weak operand counts as what it is
  committed to.  What stops a rule, or changes the value, is in `conditions`: an
  unsigned constant beside a weak one, a difference that is the least `i64` and is
  negated, a node whose second constant alone is strong, and a maximum of constants
  that the type does not hold.
-/

import Svod.Symbolic.FactorSound
import Svod.Symbolic.Reassociation

namespace Svod.Symbolic.Reassociation

open Svod.Ir Svod.Lib

variable {s d : ScalarDType} {t : IntType} {env : Env} {e e' p x y : Term} {out : Outcome}
variable {op : Op} {f : Term → Term} {td : IntType}

/-! ## Types -/

/-- What an operand of a node of type `s` can be: an index does not promote with a weak
    integer. -/
def Beside (s d : ScalarDType) : Prop := d = s ∨ d = .weakInt ∧ s ≠ .index

/-- `promote` is the common type of the promotion lattice. -/
theorem promote_eq_leastUpper (ht : intType s = some t) (hs : s ≠ .bool) {a b : ScalarDType}
    (ha : Beside s a) (hb : Beside s b) : a.leastUpper b = some (promote a b) := by
  rcases ha with rfl | ⟨rfl, hi⟩ <;> rcases hb with rfl | ⟨rfl, hi'⟩
  · rw [ScalarDType.leastUpper_self, promote, ite_self]
  · cases a <;> first | contradiction | decide
  · cases b <;> first | contradiction | decide
  · decide

theorem promote_comm {a b : ScalarDType} (ha : Beside s a) (hb : Beside s b) :
    promote a b = promote b a := by
  unfold promote
  rcases ha with rfl | ⟨rfl, -⟩ <;> rcases hb with rfl | ⟨rfl, -⟩ <;> split <;> simp_all

theorem promote_weak (a : ScalarDType) : promote a .weakInt = a := by
  unfold promote
  split
  · next h => exact h.symm
  · rfl

theorem promote_assoc (a b c : ScalarDType) :
    promote (promote a b) c = promote a (promote b c) := by
  unfold promote
  split <;> simp_all

theorem promote_self (a : ScalarDType) : promote a a = a := ite_self a

theorem promote_eq_weak {a b : ScalarDType} (h : promote a b = .weakInt) :
    a = .weakInt ∧ b = .weakInt := by
  unfold promote at h
  split at h
  · next ha => exact ⟨ha, h⟩
  · next ha => exact absurd h ha

theorem Beside.promote {a b : ScalarDType} (ha : Beside s a) (hb : Beside s b) :
    Beside s (promote a b) := by
  unfold Reassociation.promote
  split
  · exact hb
  · exact ha

/-- A weak operand is at least as wide as the type it stands beside. -/
theorem Beside.intType (h : Beside s d) (ht : intType s = some t) (hs : s ≠ .bool) :
    ∃ t', Ir.intType d = some t' ∧ d ≠ .bool ∧ t.bits ≤ t'.bits := by
  rcases h with rfl | ⟨rfl, -⟩
  · exact ⟨t, ht, hs, le_refl _⟩
  · exact ⟨_, rfl, by decide, intType_bits_le ht⟩

theorem reduce_eq (ht : intType s = some t) (v : ℤ) : reduce s v = t.wrap v := by
  simp only [reduce, ht]

/-! ## Agreement -/

theorem agree_of_le {t t' : IntType} (h : t.bits ≤ t'.bits) {a b : ℤ} (hab : Agree t' a b) :
    Agree t a b := Int.ModEq.of_dvd (pow_dvd_pow 2 h) hab

theorem reduce_agree (ht : intType s = some t) (hs : s ≠ .bool) (hd : Beside s d) (v : ℤ) :
    Agree t (reduce d v) v := by
  obtain ⟨t', ht', -, hle⟩ := hd.intType ht hs
  rw [reduce_eq ht']
  exact agree_of_le hle (wrap_agree v)

/-- Numbers agree that have the same low bits. -/
theorem agree_iff_land {a b : ℤ} :
    Agree t a b ↔ a.land (2 ^ t.bits - 1) = b.land (2 ^ t.bits - 1) := by
  have hpos : (0 : ℤ) ≤ 2 ^ t.bits := by positivity
  rw [← fmod_two_pow, ← fmod_two_pow, Int.fmod_eq_emod_of_nonneg _ hpos,
    Int.fmod_eq_emod_of_nonneg _ hpos]
  rfl

/-- The low bits of a bitwise operation are those of its operands' low bits. -/
theorem agree_bitwise (hop : op = .and ∨ op = .or ∨ op = .xor) {a b c d : ℤ} (h : Agree t a b)
    (h' : Agree t c d) : Agree t (op.apply a c) (op.apply b d) := by
  have hlow (m x y : ℤ) :
      (op.apply x y).land m = (op.apply (x.land m) (y.land m)).land m := by
    refine eq_of_testBit fun k => ?_
    rcases hop with rfl | rfl | rfl <;>
      simp only [Op.apply, Int.testBit_land, Int.testBit_lor, Int.testBit_lxor] <;>
      cases x.testBit k <;> cases y.testBit k <;> cases m.testBit k <;> rfl
  rw [agree_iff_land] at h h' ⊢
  rw [hlow, h, h', ← hlow]

theorem agree_apply (hop : op ≠ .max) {a b c d : ℤ} (h : Agree t a b) (h' : Agree t c d) :
    Agree t (op.apply a c) (op.apply b d) := by
  cases op with
  | add => exact h.add h'
  | sub => exact h.sub h'
  | mul => exact h.mul h'
  | and => exact agree_bitwise (Or.inl rfl) h h'
  | or => exact agree_bitwise (Or.inr (Or.inl rfl)) h h'
  | xor => exact agree_bitwise (Or.inr (Or.inr rfl)) h h'
  | max => exact absurd rfl hop

/-! ## Terms -/

/-- Each leaf has a value of its type. -/
def InType (env : Env) : Prop := ∀ d t i, intType d = some t → t.Contains (env d i)

namespace Term

/-- Leaves and constants are of type `s` or weak. -/
def Typed (s : ScalarDType) : Term → Prop
  | leaf d _ => Beside s d
  | const c => Beside s c.dtype ∧ ∃ v, HasType c.dtype c.value v
  | binary _ a b => a.Typed s ∧ b.Typed s

theorem Typed.beside (h : e.Typed s) : Beside s e.dtype := by
  induction e with
  | leaf d i => exact h
  | const c => exact h.1
  | binary op a b iha ihb => exact (iha h.1).promote (ihb h.2)

/-- A node of a weak type has only weak leaves and constants. -/
theorem Typed.weak (h : e.Typed s) (hd : e.dtype = .weakInt) : e.Typed .weakInt := by
  induction e with
  | leaf d i => exact Or.inl hd
  | const c => exact ⟨Or.inl hd, h.2⟩
  | binary op a b iha ihb =>
    have hab := promote_eq_weak hd
    exact ⟨iha h.1 hab.1, ihb h.2 hab.2⟩

theorem Typed.self (h : e.Typed s) : e.Typed e.dtype := by
  rcases h.beside with hd | ⟨hd, -⟩
  · rwa [hd]
  · rw [hd]
    exact h.weak hd

theorem Typed.eval_contains (ht : intType e.dtype = some t) (henv : InType env) (h : e.Typed s) :
    t.Contains (e.eval env) := by
  cases e with
  | leaf d i => exact henv d t i ht
  | const c =>
    obtain ⟨-, v, hv⟩ := h
    simp only [eval, hv.integerValue, Option.getD_some]
    exact hv.contains ht
  | binary op a b =>
    show t.Contains (reduce (binary op a b).dtype _)
    rw [reduce_eq ht]
    exact t.wrap_contains _

/-- The value with every operation but the maximum left exact. -/
def exact (env : Env) : Term → ℤ
  | leaf d i => env d i
  | const c => c.value.integerValue.getD 0
  | binary .max a b => (binary .max a b).eval env
  | binary op a b => op.apply (a.exact env) (b.exact env)

theorem exact_binary (hop : op ≠ .max) (a b : Term) :
    (binary op a b).exact env = op.apply (a.exact env) (b.exact env) := by
  cases op <;> first | rfl | contradiction

theorem eval_agree_exact (ht : intType s = some t) (hs : s ≠ .bool) (he : e.Typed s) :
    Agree t (e.eval env) (e.exact env) := by
  induction e with
  | leaf d i => exact Agree.refl _
  | const c => exact Agree.refl _
  | binary op a b iha ihb =>
    by_cases hop : op = .max
    · subst hop
      exact Agree.refl _
    · have hd := he.1.beside.promote he.2.beside
      rw [exact_binary hop]
      refine (reduce_agree ht hs hd _).trans (agree_apply hop ?_ ?_)
      · exact (reduce_agree ht hs hd _).trans (iha he.1)
      · exact (reduce_agree ht hs hd _).trans (ihb he.2)

/-- Terms of one type that agree exactly have one value. -/
theorem eval_eq_of_agree (ht : intType s = some t) (hs : s ≠ .bool) (henv : InType env)
    (he : e.Typed s) (he' : e'.Typed s) (hd : e.dtype = s) (hd' : e'.dtype = s)
    (h : Agree t (e'.exact env) (e.exact env)) : e'.eval env = e.eval env := by
  have h' : Agree t (e'.eval env) (e.eval env) :=
    ((eval_agree_exact ht hs he').trans h).trans (Int.ModEq.symm (eval_agree_exact ht hs he))
  exact h'.eq (he'.eval_contains (hd' ▸ ht) henv) (he.eval_contains (hd ▸ ht) henv)

end Term

/-! ## Patterns -/

theorem Op.apply_comm (h : op.isCommutative = true) (a b : ℤ) : op.apply a b = op.apply b a := by
  cases op with
  | sub => cases h
  | add => exact Int.add_comm a b
  | mul => exact Int.mul_comm a b
  | and => exact Lib.land_comm a b
  | or => exact Lib.lor_comm a b
  | xor => exact Lib.xor_comm a b
  | max => exact max_comm a b

namespace Pattern

variable {q : Pattern}

/-- The term in the order the pattern is written. -/
def toTerm : Pattern → Term
  | term e => e
  | ordered op p q | either op p q => .binary op p.toTerm q.toTerm

/-- Only commutative operations are matched in either order. -/
def Symmetric : Pattern → Prop
  | term _ => True
  | ordered _ p q => p.Symmetric ∧ q.Symmetric
  | either op p q => op.isCommutative = true ∧ p.Symmetric ∧ q.Symmetric

/-- The order in which commutative operations are matched changes neither type nor value. -/
theorem toTerm_of_accepts (hq : q.Symmetric) (h : q.accepts e = true) (he : e.Typed s) :
    q.toTerm.Typed s ∧ q.toTerm.dtype = e.dtype ∧ ∀ env, q.toTerm.eval env = e.eval env := by
  induction q generalizing e with
  | term x =>
    simp only [accepts, decide_eq_true_eq] at h
    subst h
    exact ⟨he, rfl, fun _ => rfl⟩
  | ordered op p q ihp ihq =>
    cases e with
    | leaf d i => cases h
    | const c => cases h
    | binary o a b =>
      simp only [accepts, Bool.and_eq_true, decide_eq_true_eq] at h
      obtain ⟨rfl, ha, hb⟩ := h
      obtain ⟨hp, hpd, hpv⟩ := ihp hq.1 ha he.1
      obtain ⟨hq, hqd, hqv⟩ := ihq hq.2 hb he.2
      refine ⟨⟨hp, hq⟩, ?_, fun env => ?_⟩
      · simp only [toTerm, Term.dtype, hpd, hqd]
      · simp only [toTerm, Term.eval, hpd, hqd, hpv, hqv]
  | either op p q ihp ihq =>
    cases e with
    | leaf d i => cases h
    | const c => cases h
    | binary o a b =>
      simp only [accepts, Bool.and_eq_true, Bool.or_eq_true, decide_eq_true_eq] at h
      obtain ⟨rfl, ⟨ha, hb⟩ | ⟨hb, ha⟩⟩ := h
      · obtain ⟨hp, hpd, hpv⟩ := ihp hq.2.1 ha he.1
        obtain ⟨hq, hqd, hqv⟩ := ihq hq.2.2 hb he.2
        refine ⟨⟨hp, hq⟩, ?_, fun env => ?_⟩
        · simp only [toTerm, Term.dtype, hpd, hqd]
        · simp only [toTerm, Term.eval, hpd, hqd, hpv, hqv]
      · -- the operands are the other way round
        obtain ⟨hp, hpd, hpv⟩ := ihp hq.2.1 hb he.2
        have hcomm := promote_comm he.2.beside he.1.beside
        have happly := Op.apply_comm hq.1
        obtain ⟨hq, hqd, hqv⟩ := ihq hq.2.2 ha he.1
        refine ⟨⟨hp, hq⟩, ?_, fun env => ?_⟩
        · simp only [toTerm, Term.dtype, hpd, hqd, hcomm]
        · simp only [toTerm, Term.eval, hpd, hqd, hpv, hqv, hcomm]
          rw [happly]

end Pattern

/-! ## Conditions -/

/-- The constants are both read as signed or both as unsigned. -/
def SameSign : ConstValue → ConstValue → Prop
  | .int _, .int _ | .uint _, .uint _ => True
  | _, _ => False

/-- The constant with a weak type. -/
def Literal.weak (c : Literal) : Literal := ⟨.weakInt, c.value⟩

def Literal.integer (c : Literal) : ℤ := c.value.integerValue.getD 0

/-- Where `c` is all that is strong in a node, the node has the value it has with `c` weak: it
    does not wrap. -/
def Stays (node : Literal → Term) (c : Literal) : Prop :=
  (node c.weak).dtype = .weakInt →
    ∀ env, InType env → (node c).eval env = (node c.weak).eval env

/-- In a type of 64 bits the constants differ by `2^63`. -/
def FarApart (c c' : Literal) : Prop :=
  (intType c.dtype).any (·.bits = 64) = true ∧ |c.integer - c'.integer| = 2 ^ 63

/-- Of a node that its second constant alone does not make strong: the larger constant is the
    larger one at the type of the node, too, or `x` is never less than either. -/
def MaxFits (x : Term) (c1 c2 : Literal) : Prop :=
  let d := promote x.dtype c1.dtype
  d ≠ .weakInt → ∀ env, InType env →
    Max.max (reduce d c1.integer) (reduce d c2.integer) = reduce d (Max.max c1.integer c2.integer) ∨
      Max.max (reduce d c1.integer) (reduce d c2.integer) ≤ reduce d (x.eval env)

/-- `(x op c1) op' c`. -/
def twoStage (op op' : Op) (x : Term) (c1 c : Literal) : Term :=
  .binary op' (.binary op x (.const c1)) (.const c)

/-- Every rule, with the condition under which it keeps the value of the node. -/
def conditions (x y a : Term) (c1 c2 : Literal) : List (Rule × Prop) :=
  let kinds := SameSign c1.value c2.value
  [(addSelf x, True),
    (mergeTerms x c1 c2,
      kinds ∧ Stays (fun c => (x.mul (.const c1)).add (x.mul (.const c))) c2),
    (mergeBare x c1, True),
    (mergeNested x y c1 c2,
      kinds ∧ Stays (fun c => (y.add (x.mul (.const c1))).add (x.mul (.const c))) c2),
    (mergeNestedBare x y c1, True),
    (mergeNestedTerm x y c1, True),
    (addSelfNested x y, True),
    (distributeNeg x c1 c2, Stays (fun c => (Term.const c).mul (x.add (.const c2))) c1),
    (distributeConst x c1 c2, True),
    (foldAdd x c1 c2, kinds ∧ Stays (twoStage .add .add x c1) c2),
    (pushAdd x y c1, True),
    (foldMul x c1 c2, kinds ∧ Stays (twoStage .mul .mul x c1) c2),
    (pushMul x y c1, True),
    (foldAnd x c1 c2, Stays (twoStage .and .and x c1) c2),
    (foldOr x c1 c2, Stays (twoStage .or .or x c1) c2),
    (foldXor x c1 c2, Stays (twoStage .xor .xor x c1) c2),
    (foldMax x c1 c2, MaxFits x c1 c2 ∧ Stays (twoStage .max .max x c1) c2),
    (foldSubAdd x c1 c2, kinds ∧ ¬ (c1.dtype.isUnsigned = false ∧ FarApart c1 c2) ∧
      Stays (twoStage .sub .add x c1) c2),
    (foldAddSub x c1 c2, kinds ∧ ¬ FarApart c1 c2 ∧ Stays (twoStage .add .sub x c1) c2),
    (foldSubSub x c1 c2, kinds ∧ Stays (twoStage .sub .sub x c1) c2),
    (subOfSub a y x, True)]

/-- Every rule of the two matchers has its condition. -/
theorem conditions_rules (x y a : Term) (c1 c2 : Literal) :
    (conditions x y a c1 c2).map Prod.fst =
      termCombiningDslPatterns x y c1 c2 ++ aluFoldingDslPatterns x y a c1 c2 := rfl

/-! ## Constants -/

theorem const_of_hasType {c : ConstValue} {v : ℤ} (h : HasType s c v) :
    const_ s c = .ok (.const ⟨s, c⟩) := by
  obtain ⟨t, ht, hin, -⟩ := id h
  obtain ⟨c', hc', hty⟩ := cast_hasType ht h.machine h.integerValue
  rw [castTo_of_contains ht hin] at hty
  obtain ⟨t₁, ht₁, -, rfl⟩ := hty
  obtain ⟨t₂, ht₂, -, rfl⟩ := h
  obtain rfl : t₁ = t₂ := Option.some.inj (ht₁.symm.trans ht₂)
  simp only [const_, hc', expect]
  rfl

/-- A host integer committed to the type. -/
theorem const_int (ht : intType s = some t) (hs : s ≠ .bool) {v : ℤ}
    (hv : -2 ^ 63 ≤ v ∧ v < 2 ^ 63) :
    ∃ c, const_ s (.int v) = .ok (.const ⟨s, c⟩) ∧ HasType s c (t.wrap v) := by
  obtain ⟨c', hc', hty⟩ := cast_hasType ht (c := .int v) hv rfl
  have hcast : castTo s t v = t.wrap v := if_neg hs
  rw [hcast] at hty
  refine ⟨c', ?_, hty⟩
  simp only [const_, hc', expect]
  rfl

theorem SameSign.cases {a b : ConstValue} {v w : ℤ} (h : SameSign a b)
    (ha : a.integerValue = some v) (hb : b.integerValue = some w) :
    (a = .int v ∧ b = .int w) ∨ (a = .uint v ∧ b = .uint w) := by
  cases a <;> cases b <;> simp_all [SameSign, ConstValue.integerValue]

theorem SameSign.symm {a b : ConstValue} (h : SameSign a b) : SameSign b a := by
  cases a <;> cases b <;> exact h

theorem sameSign_of_hasType (hs : s ≠ .bool) {a b : ConstValue} {v w : ℤ} (ha : HasType s a v)
    (hb : HasType s b w) : SameSign a b := by
  rcases ha.kind with ⟨hbool, -⟩ | ⟨-, hu, rfl⟩ | ⟨-, hu, rfl⟩
  · exact absurd hbool hs
  · rcases hb.kind with ⟨hbool, -⟩ | ⟨-, -, rfl⟩ | ⟨-, hu', rfl⟩
    · exact absurd hbool hs
    · trivial
    · simp [hu] at hu'
  · rcases hb.kind with ⟨hbool, -⟩ | ⟨-, hu', rfl⟩ | ⟨-, -, rfl⟩
    · exact absurd hbool hs
    · simp [hu] at hu'
    · trivial

/-- A typed sum, difference or product is there for constants of one kind only. -/
theorem evalArith_cases (ht : intType s = some t) (hs : s ≠ .bool) (f : ℤ → ℤ → ℤ)
    {a b : ConstValue} {v w : ℤ} (ha : a.integerValue = some v) (hb : b.integerValue = some w) :
    let o := (ConstValue.evalPair (fun x y => some (wrapSigned 64 (f x y)))
      (fun x y => some (wrapUnsigned 64 (f x y))) ConstValue.noBool a b).bind (·.cast s)
    (SameSign a b → ∃ c, o = some c ∧ HasType s c (t.wrap (f v w))) ∧
      (¬ SameSign a b → o = none) := by
  have hbits := intType_bits_le ht
  have hcast (z : ℤ) : castTo s t z = t.wrap z := if_neg hs
  refine ⟨fun h => ?_, fun h => ?_⟩
  · rcases h.cases ha hb with ⟨rfl, rfl⟩ | ⟨rfl, rfl⟩
    · obtain ⟨c, hc, hty⟩ := cast_hasType ht (c := .int (wrapSigned 64 (f v w)))
        (wrapSigned_bounds (by decide) _) rfl
      rw [hcast, t.wrap_wrapSigned hbits] at hty
      exact ⟨c, hc, hty⟩
    · obtain ⟨c, hc, hty⟩ := cast_hasType ht (c := .uint (wrapUnsigned 64 (f v w)))
        ⟨wrapUnsigned_nonneg 64 _, wrapUnsigned_lt 64 _⟩ rfl
      rw [hcast, t.wrap_wrapUnsigned hbits] at hty
      exact ⟨c, hc, hty⟩
  · cases a <;> cases b <;> first
      | rfl
      | exact absurd trivial h

theorem literal_hasType {c : Literal} (h : (Term.const c).Typed s) :
    HasType c.dtype c.value c.integer := by
  obtain ⟨-, v, hv⟩ := h
  rwa [Literal.integer, hv.integerValue, Option.getD_some]

/-- A constant of the kind of a weak one is an `i64`. -/
theorem weak_typed {c c' : Literal} (hc : (Term.const c).Typed s)
    (hc' : (Term.const c').Typed s) (h : SameSign c.value c'.value) (hd : c.dtype = .weakInt) :
    (Term.const c'.weak).Typed .weakInt := by
  have hty := literal_hasType hc'
  have hm := hty.machine
  obtain ⟨hbool, -⟩ | ⟨-, hu, -⟩ | ⟨-, -, hint⟩ := (literal_hasType hc).kind
  · rw [hd] at hbool
    cases hbool
  · rw [hd] at hu
    cases hu
  · rcases h.cases (literal_hasType hc).integerValue hty.integerValue with ⟨-, hc'⟩ | ⟨hc'', -⟩
    · rw [hc'] at hm
      refine ⟨Or.inl rfl, c'.integer, _, rfl, ?_, hc'⟩
      unfold IntType.Contains IntType.min IntType.max
      simp only [ConstValue.Machine] at hm
      simp
      omega
    · rw [hint] at hc''
      cases hc''

theorem committed_hasType (ht : intType s = some t) (hs : s ≠ .bool) (v : ℤ) :
    HasType s (Expr.committed s v) (t.wrap v) := by
  have hcast : castTo s t v = t.wrap v := if_neg hs
  simp only [Expr.committed, ht, hcast]
  exact ⟨t, ht, t.wrap_contains v, rfl⟩

section

variable (ht : intType s = some t) (hs : s ≠ .bool)

include ht hs

theorem constLike_typed {a : Term} (ha : a.Typed s) (v : ℤ) : (a.constLike v).Typed s := by
  obtain ⟨t', ht', hd, -⟩ := ha.beside.intType ht hs
  exact ⟨ha.beside, _, committed_hasType ht' hd v⟩

variable (env) in
theorem constLike_agree {a : Term} (ha : a.Typed s) (v : ℤ) :
    Agree t ((a.constLike v).exact env) v := by
  obtain ⟨t', ht', hd, hle⟩ := ha.beside.intType ht hs
  simp only [Term.constLike, Term.exact, (committed_hasType ht' hd v).integerValue,
    Option.getD_some]
  exact agree_of_le hle (wrap_agree v)

theorem neg_typed {a : Term} (ha : a.Typed s) : a.neg.Typed s := ⟨ha, constLike_typed ht hs ha _⟩

theorem sub_typed {a b : Term} (ha : a.Typed s) (hb : b.Typed s) : (a.sub b).Typed s :=
  ⟨ha, neg_typed ht hs hb⟩

variable (env) in
theorem neg_agree {a : Term} (ha : a.Typed s) : Agree t (a.neg.exact env) (-a.exact env) := by
  have h := (Agree.refl (t := t) (a.exact env)).mul (constLike_agree env ht hs ha (-1))
  rwa [Int.mul_neg_one] at h

variable (env) in
theorem sub_agree (a : Term) {b : Term} (hb : b.Typed s) :
    Agree t ((a.sub b).exact env) (a.exact env - b.exact env) := by
  have h := (Agree.refl (t := t) (a.exact env)).add (neg_agree env ht hs hb)
  rwa [← Int.sub_eq_add_neg] at h

end

@[simp] theorem neg_dtype (a : Term) : a.neg.dtype = a.dtype := promote_self _

@[simp] theorem sub_dtype (a b : Term) : (a.sub b).dtype = promote a.dtype b.dtype :=
  congrArg (promote _) (neg_dtype b)

/-! ## Replacements -/

/-- The constants of the outcome are there, and it has the value of `e` in every
    assignment. -/
def Keeps (e : Term) (out : Outcome) : Prop :=
  ∃ e', out = .ok e' ∧ e'.Typed e.dtype ∧ ∀ env, InType env → e'.eval env = e.eval env

theorem keeps_ok_iff : Keeps e (.ok e') ↔
    e'.Typed e.dtype ∧ ∀ env, InType env → e'.eval env = e.eval env := by
  refine ⟨?_, fun h => ⟨e', rfl, h⟩⟩
  rintro ⟨e'', he, h⟩
  cases he
  exact h

theorem not_keeps_error {err : HostError} : ¬ Keeps e (.error err) := by
  rintro ⟨e', he', -⟩
  cases he'

/-- A weak replacement that has the value of the node with its second constant weak. -/
theorem keeps_weak_iff {node : Literal → Term} {c : Literal} (hd : (node c).dtype = s)
    (hweak : (node c.weak).dtype = .weakInt) (he' : e'.Typed s)
    (hval : ∀ env, InType env → e'.eval env = (node c.weak).eval env) :
    Keeps (node c) (.ok e') ↔ Stays node c := by
  rw [keeps_ok_iff]
  refine ⟨fun h _ env henv => ?_, fun h => ⟨hd ▸ he', fun env henv => ?_⟩⟩
  · rw [← h.2 env henv, hval env henv]
  · rw [hval env henv, h hweak env henv]

/-- A replacement `f k` of `node c`, by a constant `k` of type `d` that stands for `z`. -/
structure Replaces (s : ScalarDType) (node : Literal → Term) (c : Literal) (d : ScalarDType)
    (z : ℤ) (f : Term → Term) : Prop where
  typed : (node c).Typed s
  dtype : (node c).dtype = s
  beside : Beside s d
  weak : (node c.weak).dtype = .weakInt → (node c.weak).Typed .weakInt
  exact : ∀ env, (node c.weak).exact env = (node c).exact env
  replacement : ∀ k, k.Typed s → (f k).Typed s
  operand : ∀ {D : ScalarDType} {k : Term}, (f k).Typed D → k.Typed D
  result : ∀ k : Term, k.dtype = d → (f k).dtype = (node c.weak).dtype
  agree : ∀ {D : ScalarDType} {t : IntType}, intType D = some t → D ≠ .bool →
    ∀ {env : Env} {k : Term}, (f k).Typed D → Agree t (k.exact env) z →
      Agree t ((f k).exact env) ((node c).exact env)

section

variable (ht : intType s = some t) (hs : s ≠ .bool) {node : Literal → Term} {c : Literal}

include ht hs

/-- A replacement of the type of the node that agrees with it. -/
theorem keeps_of_agree (he : e.Typed s) (hd : e.dtype = s) (he' : e'.Typed s) (hd' : e'.dtype = s)
    (h : ∀ env, Agree t (e'.exact env) (e.exact env)) : Keeps e (.ok e') :=
  ⟨e', rfl, hd ▸ he', fun _ henv => Term.eval_eq_of_agree ht hs henv he he' hd hd' (h _)⟩

/-- A replacement is either of the type of the node, or weak.  A weak one has the value of the
    node with its second constant weak. -/
theorem Replaces.keeps_iff {z : ℤ} {v : ConstValue} (hr : Replaces s node c d z f)
    (htd : intType d = some td) (hv : HasType d v (td.wrap z)) :
    Keeps (node c) (.ok (f (.const ⟨d, v⟩))) ↔ Stays node c := by
  have hk := hr.replacement (.const ⟨d, v⟩) ⟨hr.beside, _, hv⟩
  have hdt := hr.result (.const ⟨d, v⟩) rfl
  have hself := hk.self
  have hagree {D : ScalarDType} {t' : IntType} (ht' : intType D = some t') (hD : D ≠ .bool)
      (hty : (f (.const ⟨d, v⟩)).Typed D) (env : Env) :
      Agree t' ((f (.const ⟨d, v⟩)).exact env) ((node c).exact env) := by
    obtain ⟨t₁, ht₁, -, hle⟩ := (hr.operand hty).1.intType ht' hD
    obtain rfl : td = t₁ := Option.some.inj (htd.symm.trans ht₁)
    refine hr.agree ht' hD hty ?_
    simp only [Term.exact, hv.integerValue, Option.getD_some]
    exact agree_of_le hle (wrap_agree z)
  by_cases hweak : (node c.weak).dtype = .weakInt
  · -- the replacement has the value of the weak node
    have hty := hk.weak (hdt.trans hweak)
    refine keeps_weak_iff hr.dtype hweak hk fun env henv => ?_
    refine Term.eval_eq_of_agree (t := ⟨true, 64, by decide⟩) rfl (by decide) henv
      (hr.weak hweak) hty hweak (hdt.trans hweak) ?_
    rw [hr.exact]
    exact hagree rfl (by decide) hty env
  · have hd : (f (.const ⟨d, v⟩)).dtype = s := by
      rcases hk.beside with h | ⟨h, -⟩
      · exact h
      · exact absurd (hdt.symm.trans h) hweak
    exact iff_of_true (keeps_of_agree ht hs hr.typed hr.dtype hk hd (hagree ht hs hk))
      fun h => absurd h hweak

/-- A rule whose constant is computed by an `expect`. -/
theorem Replaces.keeps_expect_iff {z : ℤ} {kinds : Prop} {o : Option ConstValue}
    (hr : kinds → Replaces s node c d z f) (htd : intType d = some td)
    (ho : (kinds → ∃ v, o = some v ∧ HasType d v (td.wrap z)) ∧ (¬ kinds → o = none)) :
    Keeps (node c) (do let v ← expect o; let k ← const_ d v; .ok (f k)) ↔
      kinds ∧ Stays node c := by
  by_cases hkinds : kinds
  · obtain ⟨v, rfl, hv⟩ := ho.1 hkinds
    simp only [expect, bind, Except.bind, const_of_hasType hv, hkinds, true_and]
    exact (hr hkinds).keeps_iff ht hs htd hv
  · simp only [ho.2 hkinds, expect, bind, Except.bind, hkinds, false_and, iff_false]
    exact not_keeps_error

end

/-! ## Like terms -/

/-- Where a rule matches a node of type `s` and fires, it keeps the value exactly under `cond`. -/
def Rule.KeepsIff (s : ScalarDType) (r : Rule) (cond : Prop) : Prop :=
  r.pattern.Symmetric ∧ ∀ out, r.outcome = some out → r.pattern.toTerm.Typed s →
    r.pattern.toTerm.dtype = s → (Keeps r.pattern.toTerm out ↔ cond)

theorem one_hasType (ht : intType s = some t) (hs : s ≠ .bool) : HasType s (one s) 1 := by
  cases s <;> simp only [intType, reduceCtorEq, Option.some.injEq] at ht
  case bool => exact absurd rfl hs
  all_goals exact ⟨_, rfl, by decide, rfl⟩

theorem negOne_hasType {c : ConstValue} (h : negOne s = some c) : HasType s c (-1) := by
  cases s <;> simp only [negOne, reduceCtorEq, Option.some.injEq] at h
  all_goals
    subst h
    exact ⟨_, rfl, by decide, rfl⟩

section

variable (ht : intType s = some t) (hs : s ≠ .bool)

include ht hs

theorem addSelf_keepsIff (x : Term) : (addSelf x).KeepsIff s True := by
  refine ⟨⟨trivial, trivial⟩, fun out hout he hd => iff_of_true ?_ trivial⟩
  cases hout
  refine keeps_of_agree ht hs he hd ⟨he.1, constLike_typed ht hs he.1 2⟩ hd fun env => ?_
  have h := (Agree.refl (t := t) (x.exact env)).mul (constLike_agree env ht hs he.1 2)
  rwa [mul_two] at h

theorem addSelfNested_keepsIff (x y : Term) : (addSelfNested x y).KeepsIff s True := by
  refine ⟨⟨rfl, ⟨rfl, trivial, trivial⟩, trivial⟩, fun out hout he hd => iff_of_true ?_ trivial⟩
  cases hout
  refine keeps_of_agree ht hs he hd ⟨he.1.1, he.2, constLike_typed ht hs he.2 2⟩ ?_ fun env => ?_
  · refine Eq.trans ?_ hd
    show promote y.dtype (promote x.dtype x.dtype) = promote (promote y.dtype x.dtype) x.dtype
    grind [promote]
  · have h := (Agree.refl (t := t) (x.exact env)).mul (constLike_agree env ht hs he.2 2)
    rw [mul_two] at h
    have hy := (Agree.refl (t := t) (y.exact env)).add h
    rwa [← Int.add_assoc] at hy

/-- A rule that computes `f` of two constants at the type of the first one. -/
theorem keeps_arith_iff (node : Literal → Term) (c : Literal) (g : ℤ → ℤ → ℤ) {a b : ConstValue}
    {v w : ℤ} (ha : a.integerValue = some v) (hb : b.integerValue = some w) (hd : Beside s d)
    (hr : SameSign a b → Replaces s node c d (g v w) f) :
    Keeps (node c) (do
      let r ← expect ((ConstValue.evalPair (fun x y => some (wrapSigned 64 (g x y)))
        (fun x y => some (wrapUnsigned 64 (g x y))) ConstValue.noBool a b).bind (·.cast d))
      let k ← const_ d r
      .ok (f k)) ↔ SameSign a b ∧ Stays node c := by
  obtain ⟨td, htd, hdb, -⟩ := hd.intType ht hs
  exact Replaces.keeps_expect_iff ht hs hr htd (evalArith_cases htd hdb g ha hb)

/-- A rule whose replacement cannot be weak where the node is not. -/
theorem keeps_addOne {c : Literal} (hc : (Term.const c).Typed s)
    (hr : Replaces s (fun _ => p) c c.dtype (c.integer + 1) f) :
    Keeps p (do
      let r ← expect (evalAddTyped c.value (one c.dtype) c.dtype)
      let k ← const_ c.dtype r
      .ok (f k)) := by
  obtain ⟨td, htd, hdb, -⟩ := hc.1.intType ht hs
  have hv := literal_hasType hc
  have hone := one_hasType htd hdb
  exact (keeps_arith_iff ht hs _ c (· + ·) hv.integerValue hone.integerValue hc.1
    fun _ => hr).mpr ⟨sameSign_of_hasType hdb hv hone, fun _ _ _ => rfl⟩

theorem mergeBare_keepsIff (x : Term) (c : Literal) : (mergeBare x c).KeepsIff s True := by
  refine ⟨⟨rfl, trivial, rfl, trivial, trivial⟩, fun out hout he hd => iff_of_true ?_ trivial⟩
  obtain ⟨hx, -, hc⟩ := id he
  cases hout
  refine keeps_addOne ht hs hc (f := fun k => x.mul k)
    { typed := he, dtype := hd, beside := hc.1, weak := he.weak, exact := fun _ => rfl
      replacement := fun k hk => ⟨hx, hk⟩, operand := fun h => h.2
      result := fun k hk => ?_
      agree := fun {_ _} _ _ {env k} _ hk => ?_ }
  · show promote x.dtype k.dtype = promote x.dtype (promote x.dtype c.dtype)
    grind [promote]
  · have h := (Agree.refl (x.exact env)).mul hk
    rw [Int.add_comm, Int.mul_add, Int.mul_one] at h
    exact h

theorem mergeNestedBare_keepsIff (x y : Term) (c : Literal) :
    (mergeNestedBare x y c).KeepsIff s True := by
  refine ⟨⟨rfl, ⟨rfl, trivial, trivial⟩, rfl, trivial, trivial⟩,
    fun out hout he hd => iff_of_true ?_ trivial⟩
  obtain ⟨⟨hy, hx⟩, -, hc⟩ := id he
  cases hout
  refine keeps_addOne ht hs hc (f := fun k => y.add (x.mul k))
    { typed := he, dtype := hd, beside := hc.1, weak := he.weak, exact := fun _ => rfl
      replacement := fun k hk => ⟨hy, hx, hk⟩, operand := fun h => h.2.2
      result := fun k hk => ?_
      agree := fun {_ _} _ _ {env k} _ hk => ?_ }
  · show promote y.dtype (promote x.dtype k.dtype) =
      promote (promote y.dtype x.dtype) (promote x.dtype c.dtype)
    grind [promote]
  · have h := (Agree.refl (y.exact env)).add ((Agree.refl (x.exact env)).mul hk)
    rw [Int.add_comm c.integer, Int.mul_add, Int.mul_one, ← Int.add_assoc] at h
    exact h

theorem mergeNestedTerm_keepsIff (x y : Term) (c : Literal) :
    (mergeNestedTerm x y c).KeepsIff s True := by
  refine ⟨⟨rfl, ⟨rfl, trivial, rfl, trivial, trivial⟩, trivial⟩,
    fun out hout he hd => iff_of_true ?_ trivial⟩
  obtain ⟨⟨hy, hx, hc⟩, -⟩ := id he
  cases hout
  refine keeps_addOne ht hs hc (f := fun k => y.add (x.mul k))
    { typed := he, dtype := hd, beside := hc.1, weak := he.weak, exact := fun _ => rfl
      replacement := fun k hk => ⟨hy, hx, hk⟩, operand := fun h => h.2.2
      result := fun k hk => ?_
      agree := fun {_ _} _ _ {env k} _ hk => ?_ }
  · show promote y.dtype (promote x.dtype k.dtype) =
      promote (promote y.dtype (promote x.dtype c.dtype)) x.dtype
    grind [promote]
  · have h := (Agree.refl (y.exact env)).add ((Agree.refl (x.exact env)).mul hk)
    rw [Int.mul_add, Int.mul_one, ← Int.add_assoc] at h
    exact h

theorem mergeTerms_keepsIff (x : Term) (c1 c2 : Literal) : (mergeTerms x c1 c2).KeepsIff s
    (SameSign c1.value c2.value ∧
      Stays (fun c => (x.mul (.const c1)).add (x.mul (.const c))) c2) := by
  refine ⟨⟨⟨rfl, trivial, trivial⟩, ⟨rfl, trivial, trivial⟩⟩, fun out hout he hd => ?_⟩
  obtain ⟨⟨hx, hc1⟩, -, hc2⟩ := id he
  cases hout
  refine keeps_arith_iff ht hs (fun c => (x.mul (.const c1)).add (x.mul (.const c))) c2 (· + ·)
    (literal_hasType hc1).integerValue (literal_hasType hc2).integerValue hc1.1
    (f := fun k => x.mul k) fun hsign =>
    { typed := he, dtype := hd, beside := hc1.1, weak := fun h => ?_, exact := fun _ => rfl
      replacement := fun k hk => ⟨hx, hk⟩, operand := fun h => h.2
      result := fun k hk => ?_
      agree := fun {_ _} _ _ {env k} _ hk => ?_ }
  · have hxc := promote_eq_weak (promote_eq_weak h).1
    exact ⟨⟨hx.weak hxc.1, hc1.weak hxc.2⟩, hx.weak hxc.1, weak_typed hc1 hc2 hsign hxc.2⟩
  · show promote x.dtype k.dtype =
      promote (promote x.dtype c1.dtype) (promote x.dtype .weakInt)
    grind [promote]
  · have h := (Agree.refl (x.exact env)).mul hk
    rw [Int.mul_add] at h
    exact h

theorem mergeNested_keepsIff (x y : Term) (c1 c2 : Literal) : (mergeNested x y c1 c2).KeepsIff s
    (SameSign c1.value c2.value ∧
      Stays (fun c => (y.add (x.mul (.const c1))).add (x.mul (.const c))) c2) := by
  refine ⟨⟨rfl, ⟨rfl, trivial, rfl, trivial, trivial⟩, rfl, trivial, trivial⟩,
    fun out hout he hd => ?_⟩
  obtain ⟨⟨hy, hx, hc1⟩, -, hc2⟩ := id he
  cases hout
  refine keeps_arith_iff ht hs (fun c => (y.add (x.mul (.const c1))).add (x.mul (.const c))) c2
    (· + ·) (literal_hasType hc1).integerValue (literal_hasType hc2).integerValue hc1.1
    (f := fun k => y.add (x.mul k)) fun hsign =>
    { typed := he, dtype := hd, beside := hc1.1, weak := fun h => ?_, exact := fun _ => rfl
      replacement := fun k hk => ⟨hy, hx, hk⟩, operand := fun h => h.2.2
      result := fun k hk => ?_
      agree := fun {_ _} _ _ {env k} _ hk => ?_ }
  · have hyx := promote_eq_weak (promote_eq_weak h).1
    have hxc := promote_eq_weak hyx.2
    exact ⟨⟨hy.weak hyx.1, hx.weak hxc.1, hc1.weak hxc.2⟩, hx.weak hxc.1,
      weak_typed hc1 hc2 hsign hxc.2⟩
  · show promote y.dtype (promote x.dtype k.dtype) =
      promote (promote y.dtype (promote x.dtype c1.dtype)) (promote x.dtype .weakInt)
    grind [promote]
  · have h := (Agree.refl (y.exact env)).add ((Agree.refl (x.exact env)).mul hk)
    rw [Int.mul_add, ← Int.add_assoc] at h
    exact h

theorem distributeNeg_keepsIff (x : Term) (nv c : Literal) : (distributeNeg x nv c).KeepsIff s
    (Stays (fun n => (Term.const n).mul (x.add (.const c))) nv) := by
  refine ⟨⟨rfl, trivial, rfl, trivial, trivial⟩, fun out hout he hd => ?_⟩
  obtain ⟨hn, hx, hc⟩ := id he
  obtain ⟨td, htd, hdb, -⟩ := hc.1.intType ht hs
  simp only [distributeNeg] at hout
  split at hout
  · next hneg =>
    obtain ⟨m, hm, rfl⟩ := Option.map_eq_some_iff.mp hout
    have hn1 : nv.integer = -1 := by
      simp only [isNegOne, decide_eq_true_eq] at hneg
      rw [Literal.integer, hneg]
      rfl
    have hv := literal_hasType hc
    have hneg1 := negOne_hasType hm
    have hsign := sameSign_of_hasType hdb hv hneg1
    have h := keeps_arith_iff ht hs (fun n => (Term.const n).mul (x.add (.const c))) nv (· * ·)
      hv.integerValue hneg1.integerValue hc.1 (f := fun k => x.neg.add k) fun _ =>
      { typed := he, dtype := hd, beside := hc.1, weak := fun h => ?_, exact := fun _ => rfl
        replacement := fun k hk => ⟨neg_typed ht hs hx, hk⟩, operand := fun h => h.2
        result := fun k hk => ?_
        agree := fun {_ _} htD hD {env k} hty hk => ?_ }
    · exact h.trans (and_iff_right hsign)
    · have hxc := promote_eq_weak (promote_eq_weak h).2
      refine ⟨⟨Or.inl rfl, -1, _, rfl, by decide, ?_⟩, hx.weak hxc.1, hc.weak hxc.2⟩
      exact of_decide_eq_true hneg
    · show promote (promote x.dtype x.dtype) k.dtype =
        promote .weakInt (promote x.dtype c.dtype)
      grind [promote]
    · have h := (neg_agree env htD hD hty.1.1).add hk
      rw [Int.mul_neg_one, ← Int.neg_add, ← Int.neg_one_mul, ← hn1] at h
      exact h
  · cases hout

theorem distributeConst_keepsIff (x : Term) (yv c : Literal) :
    (distributeConst x yv c).KeepsIff s True := by
  refine ⟨⟨rfl, trivial, rfl, trivial, trivial⟩, fun out hout he hd => iff_of_true ?_ trivial⟩
  obtain ⟨hy, hx, hc⟩ := id he
  simp only [distributeConst] at hout
  split at hout
  · cases hout
    refine keeps_of_agree ht hs he hd ⟨⟨hy, hx⟩, hy, hc⟩ (Eq.trans ?_ hd) fun env => ?_
    · show promote (promote yv.dtype x.dtype) (promote yv.dtype c.dtype) =
        promote yv.dtype (promote x.dtype c.dtype)
      grind [promote]
    · show Agree t (yv.integer * x.exact env + yv.integer * c.integer)
        (yv.integer * (x.exact env + c.integer))
      rw [Int.mul_add]
      exact Agree.refl _
  · cases hout

end

/-! ## Two-stage folding -/

/-- A bitwise operation or a maximum stays inside the type. -/
theorem Op.apply_contains (op : Op) (h : op = .and ∨ op = .or ∨ op = .xor ∨ op = .max) {a b : ℤ}
    (ha : t.Contains a) (hb : t.Contains b) : t.Contains (op.apply a b) := by
  obtain ⟨w, hw⟩ : ∃ w, w = if t.signed then t.bits - 1 else t.bits := ⟨_, rfl⟩
  have hpos : (0 : ℤ) < 2 ^ w := by positivity
  have hN : (2 ^ w : ℕ) = 2 ^ w := rfl
  have hiff (z : ℤ) : t.Contains z ↔ (if t.signed then -2 ^ w else 0) ≤ z ∧ z < 2 ^ w := by
    unfold IntType.Contains IntType.min IntType.max
    split at hw <;> rename_i hsg <;> subst hw <;>
      simp only [hsg, if_true, Bool.false_eq_true, if_false] <;> omega
  rw [hiff] at ha hb ⊢
  have ha' : -((2 ^ w : ℕ) : ℤ) ≤ a ∧ a < ((2 ^ w : ℕ) : ℤ) := by
    push_cast
    split at ha <;> omega
  have hb' : -((2 ^ w : ℕ) : ℤ) ≤ b ∧ b < ((2 ^ w : ℕ) : ℤ) := by
    push_cast
    split at hb <;> omega
  have key : -(2 ^ w : ℤ) ≤ op.apply a b ∧ op.apply a b < 2 ^ w ∧
      (0 ≤ a → 0 ≤ b → 0 ≤ op.apply a b) := by
    rcases h with rfl | rfl | rfl | rfl
    · have h := land_bounds hN ha' hb'
      push_cast at h
      exact ⟨h.1, h.2, fun _ h0 => (land_le_mask a h0).1⟩
    · have h := lor_bounds hN ha' hb'
      push_cast at h
      exact ⟨h.1, h.2, lor_nonneg⟩
    · have h := xor_bounds hN ha' hb'
      push_cast at h
      exact ⟨h.1, h.2, xor_nonneg⟩
    · push_cast at ha' hb'
      exact ⟨le_max_of_le_left ha'.1, max_lt ha'.2 hb'.2, fun h0 _ => le_max_of_le_left h0⟩
  split
  · exact ⟨key.1, key.2.1⟩
  · next hsg =>
    simp only [hsg, Bool.false_eq_true, if_false] at ha hb
    exact ⟨key.2.2 ha.1 hb.1, key.2.1⟩

/-- A bitwise operation or a maximum of constants is there for constants of one kind. -/
theorem evalPair_some (op : Op) (h : op = .and ∨ op = .or ∨ op = .xor ∨ op = .max)
    {g : Bool → Bool → Option Bool} {a b r : ConstValue} {v w : ℤ} {d' : ScalarDType}
    (hd : d ≠ .bool) (ha : HasType d a v) (hb : HasType d' b w)
    (hr : (if a = .invalid ∨ b = .invalid then some .invalid
      else ConstValue.evalPair (fun x y => some (op.apply x y)) (fun x y => some (op.apply x y)) g
        a b) = some r) :
    SameSign a b ∧ r.Machine ∧ r.integerValue = some (op.apply v w) := by
  have hma := ha.machine
  have hmb := hb.machine
  have hva := ha.integerValue
  have hvb := hb.integerValue
  have hkind := ha.kind
  cases a <;> cases b <;> simp only [ConstValue.integerValue, Option.some.injEq, reduceCtorEq,
    ConstValue.evalPair, Option.map_some, or_self, if_false] at hva hvb hr
  case int.int x y =>
    subst hva hvb hr
    refine ⟨trivial, ?_, rfl⟩
    have hc := Op.apply_contains (t := ⟨true, 64, by decide⟩) op h (a := x) (b := y)
      ⟨hma.1, Int.le_sub_one_of_lt hma.2⟩ ⟨hmb.1, Int.le_sub_one_of_lt hmb.2⟩
    exact ⟨hc.1, Int.lt_of_le_sub_one hc.2⟩
  case uint.uint x y =>
    subst hva hvb hr
    refine ⟨trivial, ?_, rfl⟩
    have hc := Op.apply_contains (t := ⟨false, 64, by decide⟩) op h (a := x) (b := y)
      ⟨hma.1, Int.le_sub_one_of_lt hma.2⟩ ⟨hmb.1, Int.le_sub_one_of_lt hmb.2⟩
    exact ⟨hc.1, Int.lt_of_le_sub_one hc.2⟩
  case bool.bool => simp [hd] at hkind

/-- An exclusive or of constants, as any other operation. -/
theorem evalXor_eq (a b : ConstValue) : evalXor a b =
    if a = .invalid ∨ b = .invalid then some .invalid
    else ConstValue.evalPair (fun x y => some (x.xor y)) (fun x y => some (x.xor y))
      (fun p q => some (p.xor q)) a b := by
  cases a <;> cases b <;> rfl

section

variable (ht : intType s = some t) (hs : s ≠ .bool)

theorem twoStage_replaces {op op' : Op} (hop : op' ≠ .max) {x : Term} {c1 c2 : Literal} {z : ℤ}
    (hop1 : op ≠ .max) (he : (twoStage op op' x c1 c2).Typed s)
    (hd : (twoStage op op' x c1 c2).dtype = s) (hsign : SameSign c1.value c2.value)
    (hreplacement : ∀ k, k.Typed s → (f k).Typed s)
    (hoperand : ∀ {D : ScalarDType} {k : Term}, (f k).Typed D → k.Typed D)
    (hresult : ∀ k : Term, (f k).dtype = promote x.dtype k.dtype)
    (hagree : ∀ {D : ScalarDType} {t : IntType}, intType D = some t → D ≠ .bool →
      ∀ {env : Env} {k : Term}, (f k).Typed D → Agree t (k.exact env) z →
        Agree t ((f k).exact env) (op'.apply (op.apply (x.exact env) c1.integer) c2.integer)) :
    Replaces s (twoStage op op' x c1) c2 c1.dtype z f where
  typed := he
  dtype := hd
  beside := he.1.2.1
  weak h := by
    have hxc := promote_eq_weak (promote_eq_weak h).1
    exact ⟨⟨he.1.1.weak hxc.1, he.1.2.weak hxc.2⟩, weak_typed he.1.2 he.2 hsign hxc.2⟩
  exact env := by
    rw [twoStage, twoStage, Term.exact_binary hop, Term.exact_binary hop]
    rfl
  replacement := hreplacement
  operand := hoperand
  result k hk := by
    rw [hresult, hk]
    exact (promote_weak _).symm
  agree {_ _} htD hD {env k} hty hk := by
    rw [twoStage, Term.exact_binary hop, Term.exact_binary hop1]
    exact hagree htD hD hty hk

include ht hs

theorem foldAdd_keepsIff (x : Term) (c1 c2 : Literal) : (foldAdd x c1 c2).KeepsIff s
    (SameSign c1.value c2.value ∧ Stays (twoStage .add .add x c1) c2) := by
  refine ⟨⟨rfl, ⟨rfl, trivial, trivial⟩, trivial⟩, fun out hout he hd => ?_⟩
  obtain ⟨⟨hx, hc1⟩, hc2⟩ := id he
  cases hout
  refine keeps_arith_iff ht hs (twoStage .add .add x c1) c2 (· + ·)
    (literal_hasType hc1).integerValue (literal_hasType hc2).integerValue hc1.1
    (f := fun k => x.add k) fun hsign =>
    twoStage_replaces (by decide) (by decide) he hd hsign (fun k hk => ⟨hx, hk⟩) (fun h => h.2)
      (fun _ => rfl) fun {_ _} _ _ {env k} _ hk => ?_
  have h := (Agree.refl (x.exact env)).add hk
  rw [← Int.add_assoc] at h
  exact h

theorem foldMul_keepsIff (x : Term) (c1 c2 : Literal) : (foldMul x c1 c2).KeepsIff s
    (SameSign c1.value c2.value ∧ Stays (twoStage .mul .mul x c1) c2) := by
  refine ⟨⟨rfl, ⟨rfl, trivial, trivial⟩, trivial⟩, fun out hout he hd => ?_⟩
  obtain ⟨⟨hx, hc1⟩, hc2⟩ := id he
  cases hout
  refine keeps_arith_iff ht hs (twoStage .mul .mul x c1) c2 (· * ·)
    (literal_hasType hc1).integerValue (literal_hasType hc2).integerValue hc1.1
    (f := fun k => x.mul k) fun hsign =>
    twoStage_replaces (by decide) (by decide) he hd hsign (fun k hk => ⟨hx, hk⟩) (fun h => h.2)
      (fun _ => rfl) fun {_ _} _ _ {env k} _ hk => ?_
  have h := (Agree.refl (x.exact env)).mul hk
  rw [← Int.mul_assoc] at h
  exact h

theorem foldSubSub_keepsIff (x : Term) (c1 c2 : Literal) : (foldSubSub x c1 c2).KeepsIff s
    (SameSign c1.value c2.value ∧ Stays (twoStage .sub .sub x c1) c2) := by
  refine ⟨⟨⟨trivial, trivial⟩, trivial⟩, fun out hout he hd => ?_⟩
  obtain ⟨⟨hx, hc1⟩, hc2⟩ := id he
  cases hout
  refine keeps_arith_iff ht hs (twoStage .sub .sub x c1) c2 (· + ·)
    (literal_hasType hc1).integerValue (literal_hasType hc2).integerValue hc1.1
    (f := fun k => x.sub k) fun hsign =>
    twoStage_replaces (by decide) (by decide) he hd hsign (fun k hk => sub_typed ht hs hx hk)
      (fun h => h.2.1) (sub_dtype x) fun {_ _} htD hD {env k} hty hk => ?_
  have h := (sub_agree env htD hD x hty.2.1).trans ((Agree.refl (x.exact env)).sub hk)
  rw [← Int.sub_sub] at h
  exact h

theorem pushAdd_keepsIff (x y : Term) (c : Literal) : (pushAdd x y c).KeepsIff s True := by
  refine ⟨⟨rfl, ⟨rfl, trivial, trivial⟩, trivial⟩, fun out hout he hd => iff_of_true ?_ trivial⟩
  simp only [pushAdd] at hout
  split at hout
  · cases hout
  · cases hout
    refine keeps_of_agree ht hs he hd ⟨⟨he.1.1, he.2⟩, he.1.2⟩ (Eq.trans ?_ hd) fun env => ?_
    · have hcomm : promote y.dtype c.dtype = promote c.dtype y.dtype :=
        promote_comm he.2.beside he.1.2.beside
      show promote (promote x.dtype y.dtype) c.dtype = promote (promote x.dtype c.dtype) y.dtype
      rw [promote_assoc, hcomm, ← promote_assoc]
    · show Agree t (x.exact env + y.exact env + c.integer) (x.exact env + c.integer + y.exact env)
      rw [Int.add_right_comm]
      exact Agree.refl _

theorem pushMul_keepsIff (x y : Term) (c : Literal) : (pushMul x y c).KeepsIff s True := by
  refine ⟨⟨rfl, ⟨rfl, trivial, trivial⟩, trivial⟩, fun out hout he hd => iff_of_true ?_ trivial⟩
  simp only [pushMul] at hout
  split at hout
  · cases hout
  · cases hout
    refine keeps_of_agree ht hs he hd ⟨⟨he.1.1, he.2⟩, he.1.2⟩ (Eq.trans ?_ hd) fun env => ?_
    · have hcomm : promote y.dtype c.dtype = promote c.dtype y.dtype :=
        promote_comm he.2.beside he.1.2.beside
      show promote (promote x.dtype y.dtype) c.dtype = promote (promote x.dtype c.dtype) y.dtype
      rw [promote_assoc, hcomm, ← promote_assoc]
    · show Agree t (x.exact env * y.exact env * c.integer) (x.exact env * c.integer * y.exact env)
      rw [Int.mul_right_comm]
      exact Agree.refl _

theorem subOfSub_keepsIff (a b x : Term) : (subOfSub a b x).KeepsIff s True := by
  refine ⟨⟨trivial, trivial, trivial⟩, fun out hout he hd => iff_of_true ?_ trivial⟩
  cases hout
  obtain ⟨ha, hb, hx⟩ : a.Typed s ∧ b.Typed s ∧ x.Typed s := id he
  refine keeps_of_agree ht hs he hd ⟨hx, sub_typed ht hs ha hb⟩ (Eq.trans ?_ hd) fun env => ?_
  · have hcomm := promote_comm hx.beside (ha.beside.promote hb.beside)
    show promote x.dtype (a.sub b).dtype = promote a.dtype (promote b.dtype x.dtype)
    rw [sub_dtype, hcomm, promote_assoc]
  · have h := (Agree.refl (t := t) (x.exact env)).add (sub_agree env ht hs a hb)
    have heq : x.exact env + (a.exact env - b.exact env) =
        a.exact env - (b.exact env - x.exact env) := by omega
    rw [heq] at h
    exact h

/-- Two stages of a bitwise operation. -/
theorem foldBits_keepsIff (hop : op = .and ∨ op = .or ∨ op = .xor)
    (hassoc : ∀ a b c, op.apply (op.apply a b) c = op.apply a (op.apply b c))
    {eval : ConstValue → ConstValue → Option ConstValue} {g : Bool → Bool → Option Bool}
    (heval : ∀ a b, eval a b = if a = .invalid ∨ b = .invalid then some .invalid
      else ConstValue.evalPair (fun x y => some (op.apply x y)) (fun x y => some (op.apply x y)) g
        a b) (hcomm : op.isCommutative = true) (x : Term) (c1 c2 : Literal) :
    (foldBy op eval .either x c1 c2).KeepsIff s (Stays (twoStage op op x c1) c2) := by
  refine ⟨⟨hcomm, ⟨hcomm, trivial, trivial⟩, trivial⟩, fun out hout he hd => ?_⟩
  obtain ⟨⟨hx, hc1⟩, hc2⟩ := id he
  obtain ⟨td, htd, hdb, -⟩ := hc1.1.intType ht hs
  obtain ⟨r, hr, rfl⟩ := Option.map_eq_some_iff.mp hout
  rw [heval] at hr
  have hop' : op ≠ .max := by rcases hop with rfl | rfl | rfl <;> decide
  obtain ⟨hsign, hm, hval⟩ := evalPair_some _ (by tauto) hdb (literal_hasType hc1)
    (literal_hasType hc2) hr
  obtain ⟨c', hc', hty⟩ := cast_hasType htd hm hval
  rw [show castTo c1.dtype td _ = td.wrap _ from if_neg hdb] at hty
  simp only [const_, hc', expect, bind, Except.bind]
  refine (twoStage_replaces hop' hop' he hd hsign (fun k hk => ⟨hx, hk⟩) (fun h => h.2)
    (f := fun k => .binary op x k) (fun _ => rfl)
    fun {_ _} _ _ {env k} _ hk => ?_).keeps_iff ht hs htd hty
  have h := agree_apply hop' (Agree.refl (x.exact env)) hk
  rw [← hassoc, ← Term.exact_binary hop'] at h
  exact h

theorem foldAnd_keepsIff (x : Term) (c1 c2 : Literal) :
    (foldAnd x c1 c2).KeepsIff s (Stays (twoStage .and .and x c1) c2) :=
  foldBits_keepsIff ht hs (Or.inl rfl) land_assoc (fun _ _ => rfl) rfl x c1 c2

theorem foldOr_keepsIff (x : Term) (c1 c2 : Literal) :
    (foldOr x c1 c2).KeepsIff s (Stays (twoStage .or .or x c1) c2) :=
  foldBits_keepsIff ht hs (Or.inr (Or.inl rfl)) lor_assoc (fun _ _ => rfl) rfl x c1 c2

theorem foldXor_keepsIff (x : Term) (c1 c2 : Literal) :
    (foldXor x c1 c2).KeepsIff s (Stays (twoStage .xor .xor x c1) c2) :=
  foldBits_keepsIff ht hs (Or.inr (Or.inr rfl)) xor_assoc evalXor_eq rfl x c1 c2

end

/-! ## Maxima -/

theorem wrap_eq_of_agree {a b : ℤ} (h : Agree t a b) : t.wrap a = t.wrap b :=
  (((wrap_agree a).trans h).trans (Int.ModEq.symm (wrap_agree b))).eq (t.wrap_contains a)
    (t.wrap_contains b)

theorem wrap_max (a b : ℤ) :
    t.wrap (Max.max (t.wrap a) (t.wrap b)) = Max.max (t.wrap a) (t.wrap b) :=
  IntType.wrap_of_contains (Op.apply_contains .max (by simp) (t.wrap_contains a) (t.wrap_contains b))

theorem max_eval (ht : intType s = some t) {a b : Term} (hd : promote a.dtype b.dtype = s) :
    (Term.binary .max a b).eval env = Max.max (t.wrap (a.eval env)) (t.wrap (b.eval env)) := by
  simp only [Term.eval, hd, reduce_eq ht, Op.apply, wrap_max]

/-- The value of a maximum by two constants at the type of the node. -/
theorem twoStage_max_eval (ht : intType s = some t) {x : Term} {c1 c2 : Literal}
    (h1 : promote x.dtype c1.dtype = s) (h2 : promote s c2.dtype = s) :
    (twoStage .max .max x c1 c2).eval env = Max.max (Max.max (t.wrap (x.eval env))
      (t.wrap c1.integer)) (t.wrap c2.integer) := by
  have h2' : promote (Term.binary .max x (.const c1)).dtype (Term.const c2).dtype = s := by
    rw [← h2, ← h1]
    rfl
  rw [twoStage, max_eval ht h2', max_eval (b := .const c1) ht h1, wrap_max]
  rfl

/-- A smaller operand in place of a larger one shows where the maximum is one of the two. -/
theorem max_eq_max_iff {a b b' : ℤ} (h : b' ≤ b) : Max.max a b' = Max.max a b ↔ b = b' ∨ b ≤ a := by
  omega

section

variable (ht : intType s = some t) (hs : s ≠ .bool)

include ht hs

theorem foldMax_keepsIff (x : Term) (c1 c2 : Literal) : (foldMax x c1 c2).KeepsIff s
    (MaxFits x c1 c2 ∧ Stays (twoStage .max .max x c1) c2) := by
  refine ⟨⟨⟨trivial, trivial⟩, trivial⟩, fun out hout he hd => ?_⟩
  obtain ⟨⟨hx, hc1⟩, hc2⟩ : (x.Typed s ∧ (Term.const c1).Typed s) ∧ (Term.const c2).Typed s := id he
  obtain ⟨td, htd, hdb, hle⟩ := hc1.1.intType ht hs
  obtain ⟨r, hr, rfl⟩ := Option.map_eq_some_iff.mp hout
  obtain ⟨hsign, hm, hval⟩ := evalPair_some .max (by simp) hdb (literal_hasType hc1)
    (literal_hasType hc2) hr
  obtain ⟨k, hk, hty⟩ := cast_hasType htd hm hval
  rw [show castTo c1.dtype td _ = td.wrap _ from if_neg hdb] at hty
  have hkv : (⟨c1.dtype, k⟩ : Literal).integer = td.wrap (Max.max c1.integer c2.integer) := by
    rw [Literal.integer, hty.integerValue]
    rfl
  have he' : (Term.binary .max x (.const ⟨c1.dtype, k⟩)).Typed s := ⟨hx, hc1.1, _, hty⟩
  have heval {d : ScalarDType} {t' : IntType} (ht' : intType d = some t')
      (hd' : promote x.dtype c1.dtype = d) (hle : t'.bits ≤ td.bits) (env : Env) :
      (Term.binary .max x (.const ⟨c1.dtype, k⟩)).eval env =
        Max.max (t'.wrap (x.eval env)) (t'.wrap (Max.max c1.integer c2.integer)) := by
    rw [max_eval (b := .const ⟨c1.dtype, k⟩) ht' hd', ← wrap_eq_of_agree (agree_of_le hle
      (wrap_agree (Max.max c1.integer c2.integer))), ← hkv]
    rfl
  simp only [const_, hk, expect, bind, Except.bind]
  by_cases hweak : promote x.dtype c1.dtype = .weakInt
  · -- the node is weak but for its second constant
    have hxc := promote_eq_weak hweak
    have hc2' := literal_hasType (weak_typed hc1 hc2 hsign hxc.2)
    have hdt : (twoStage .max .max x c1 c2.weak).dtype = .weakInt := (promote_weak _).trans hweak
    rw [hxc.2] at htd
    obtain rfl : _ = td := Option.some.inj htd
    have hfits : MaxFits x c1 c2 := fun h => absurd hweak h
    refine (keeps_weak_iff hd hdt he' fun env _ => ?_).trans (and_iff_right hfits).symm
    have hin1 := (literal_hasType hc1).contains (hxc.2 ▸ htd)
    have hin2 := hc2'.contains htd
    have hin := Op.apply_contains .max (by simp) hin1 hin2
    rw [heval htd hweak (le_refl _), twoStage_max_eval htd hweak rfl, max_assoc,
      IntType.wrap_of_contains hin1, IntType.wrap_of_contains hin2]
    exact congrArg _ (IntType.wrap_of_contains hin)
  · have hxs : promote x.dtype c1.dtype = s := by
      rcases hx.beside.promote hc1.1 with h | ⟨h, -⟩
      · exact h
      · exact absurd h hweak
    have hstays : Stays (twoStage .max .max x c1) c2 := fun h =>
      absurd ((promote_weak _).symm.trans h) hweak
    have h2 : promote s c2.dtype = s := by
      rw [← hxs] at hd ⊢
      exact hd
    refine Iff.trans ?_ (and_iff_left hstays).symm
    have hsmaller : t.wrap (Max.max c1.integer c2.integer) ≤
        Max.max (t.wrap c1.integer) (t.wrap c2.integer) := by
      rcases max_choice c1.integer c2.integer with h | h <;> rw [h]
      · exact le_max_left _ _
      · exact le_max_right _ _
    have hiff (env : Env) : (Term.binary .max x (.const ⟨c1.dtype, k⟩)).eval env =
        (twoStage .max .max x c1 c2).eval env ↔
          Max.max (t.wrap c1.integer) (t.wrap c2.integer) = t.wrap (Max.max c1.integer c2.integer) ∨
            Max.max (t.wrap c1.integer) (t.wrap c2.integer) ≤ t.wrap (x.eval env) := by
      rw [heval ht hxs hle, twoStage_max_eval ht hxs h2, max_assoc]
      exact max_eq_max_iff hsmaller
    show Keeps (twoStage .max .max x c1 c2) _ ↔ _
    rw [keeps_ok_iff]
    simp only [hiff, MaxFits, hxs, reduce_eq ht]
    exact ⟨fun h _ => h.2, fun h => ⟨hd ▸ he', h (hxs ▸ hweak)⟩⟩

end

/-! ## Differences that are negated -/

/-- Read as an `i64`, a difference of two constants is the least one only in a type of 64 bits,
    when it is `2^63` or `-2^63`. -/
theorem wrapSigned_difference (ht : intType s = some t) {v w : ℤ} (hlt : |v - w| < 2 ^ 64) :
    wrapSigned 64 (t.wrap (v - w)) = -2 ^ 63 ↔ t.bits = 64 ∧ |v - w| = 2 ^ 63 := by
  have hbits := intType_bits_le ht
  by_cases h64 : t.bits = 64
  · -- all 64 bits of the difference are there
    have heq : wrapSigned 64 (t.wrap (v - w)) = wrapSigned 64 (v - w) := by
      unfold IntType.wrap
      split
      · rw [h64]
        exact Int.bmod_bmod
      · rw [h64]
        have hmod := Int.emod_bmod (v - w) (2 ^ 64)
        push_cast at hmod
        exact hmod
    rw [heq]
    simp only [h64, true_and]
    have hmod : (v - w).bmod (2 ^ 64) % 2 ^ 64 = (v - w) % 2 ^ 64 := Int.bmod_emod
    have hb := wrapSigned_bounds (by decide : 0 < 64) (v - w)
    unfold wrapSigned at hb ⊢
    rw [abs_lt] at hlt
    rw [abs_eq (by decide)]
    generalize (v - w).bmod (2 ^ 64) = z at hmod hb
    generalize v - w = d at hmod hlt
    omega
  · -- the narrower types are far from the least one
    have hpow : (2 : ℤ) ^ t.bits ≤ 2 ^ 63 := pow_le_pow_right₀ (by decide) (by omega)
    have hpow' : (2 : ℤ) ^ (t.bits - 1) ≤ 2 ^ 62 := pow_le_pow_right₀ (by decide) (by omega)
    have hin := t.wrap_contains (v - w)
    have hb : -2 ^ 62 ≤ t.wrap (v - w) ∧ t.wrap (v - w) < 2 ^ 63 := by
      unfold IntType.Contains IntType.min IntType.max at hin
      split at hin <;> omega
    rw [wrapSigned_of_bounds (by decide) (by omega) (by omega)]
    simp only [h64, false_and, iff_false]
    omega

/-- Constants of one kind are less than `2^64` apart. -/
theorem SameSign.difference_lt {c c' : Literal} {s' : ScalarDType}
    (h : SameSign c.value c'.value) (hc : HasType s c.value c.integer)
    (hc' : HasType s' c'.value c'.integer) : |c.integer - c'.integer| < 2 ^ 64 := by
  have hm := hc.machine
  have hm' := hc'.machine
  rw [abs_lt]
  rcases h.cases hc.integerValue hc'.integerValue with ⟨h, h'⟩ | ⟨h, h'⟩ <;>
    simp only [h, h', ConstValue.Machine] at hm hm' <;> omega

section

variable (ht : intType s = some t) (hs : s ≠ .bool) {node : Literal → Term} {c : Literal}

include ht hs

/-- A difference `z` that is negative becomes the subtraction of `-z`. -/
theorem Replaces.keeps_negated_iff {δ z : ℤ} (hr : Replaces s node c d (-δ) f)
    (htd : intType d = some td) (hd : d ≠ .bool) (hz : -2 ^ 63 ≤ z ∧ z < 0) (hzδ : Agree td z δ) :
    Keeps (node c) (do let v ← negI64 z; let k ← const_ d (.int v); .ok (f k)) ↔
      z ≠ -2 ^ 63 ∧ Stays node c := by
  by_cases hleast : z = -2 ^ 63
  · simp only [negI64, hleast, if_true, ne_eq, not_true_eq_false, false_and, iff_false]
    exact not_keeps_error
  · obtain ⟨v, hv, hty⟩ := const_int htd hd (v := -z) (by omega)
    rw [wrap_eq_of_agree hzδ.neg] at hty
    simp only [negI64, hleast, if_false, bind, Except.bind, hv, ne_eq, not_false_eq_true, true_and]
    exact hr.keeps_iff ht hs htd hty

variable {x : Term} {c1 c2 : Literal}

/-- A difference `δ` of the constants, that stands in `node` and reads as the `i64` `z`. -/
theorem keeps_difference_iff (op op' : Op) (hop : op ≠ .max) (hop' : op' ≠ .max)
    (he : (twoStage op op' x c1 c2).Typed s) (hd : (twoStage op op' x c1 c2).dtype = s)
    (hsign : SameSign c1.value c2.value) {δ z : ℤ} {v : ConstValue}
    (htd : intType c1.dtype = some td) (hdb : c1.dtype ≠ .bool)
    (hδ : ∀ X : ℤ, op'.apply (op.apply X c1.integer) c2.integer = X + δ)
    (hv : HasType c1.dtype v (td.wrap δ)) (hz : -2 ^ 63 ≤ z) (hzδ : Agree td z δ) :
    Keeps (twoStage op op' x c1 c2) (if z < 0
      then do let w ← negI64 z; let k ← const_ c1.dtype (.int w); .ok (x.sub k)
      else do let k ← const_ c1.dtype v; .ok (x.add k)) ↔
      z ≠ -2 ^ 63 ∧ Stays (twoStage op op' x c1) c2 := by
  have hx : x.Typed s := he.1.1
  split
  · next hneg =>
    refine (twoStage_replaces (f := fun k => x.sub k) hop' hop he hd hsign
      (fun k hk => sub_typed ht hs hx hk) (fun h => h.2.1) (sub_dtype x)
      fun {_ _} htD hD {env k} hty hk => ?_).keeps_negated_iff ht hs htd hdb ⟨hz, hneg⟩ hzδ
    have h := (sub_agree env htD hD x hty.2.1).trans ((Agree.refl (x.exact env)).sub hk)
    rw [Int.sub_neg, ← hδ] at h
    exact h
  · next hneg =>
    simp only [const_of_hasType hv, bind, Except.bind]
    refine ((twoStage_replaces (f := fun k => x.add k) hop' hop he hd hsign
      (fun k hk => ⟨hx, hk⟩) (fun h => h.2) (fun _ => rfl)
      fun {_ _} _ _ {env k} _ hk => ?_).keeps_iff ht hs htd hv).trans
      (and_iff_right (by omega)).symm
    have h := (Agree.refl (x.exact env)).add hk
    rw [← hδ] at h
    exact h

omit ht hs in
theorem farApart_iff (htd : intType c.dtype = some td) {c' : Literal} :
    FarApart c c' ↔ td.bits = 64 ∧ |c.integer - c'.integer| = 2 ^ 63 := by
  simp only [FarApart, htd, Option.any_some, decide_eq_true_eq]

theorem foldAddSub_keepsIff (x : Term) (c1 c2 : Literal) : (foldAddSub x c1 c2).KeepsIff s
    (SameSign c1.value c2.value ∧ ¬ FarApart c1 c2 ∧ Stays (twoStage .add .sub x c1) c2) := by
  refine ⟨⟨⟨trivial, trivial⟩, trivial⟩, fun out hout he hd => ?_⟩
  obtain ⟨⟨-, hc1⟩, hc2⟩ := id he
  have hv1 := literal_hasType hc1
  have hv2 := literal_hasType hc2
  obtain ⟨td, htd, hdb, -⟩ := hc1.1.intType ht hs
  obtain ⟨hsome, hnone⟩ := evalArith_cases htd hdb (· - ·) hv1.integerValue hv2.integerValue
  cases hout
  by_cases hsign : SameSign c1.value c2.value
  · obtain ⟨v, hv, hty⟩ := hsome hsign
    have hleast := wrapSigned_difference htd (hsign.difference_lt hv1 hv2)
    rw [← farApart_iff htd] at hleast
    have hread : tryInt v = some (wrapSigned 64 (td.wrap (c1.integer - c2.integer))) := by
      rcases hty.kind with ⟨hbool, -⟩ | ⟨-, -, rfl⟩ | ⟨-, -, rfl⟩
      · exact absurd hbool hdb
      · rfl
      · have hm : -2 ^ 63 ≤ td.wrap (c1.integer - c2.integer) ∧
            td.wrap (c1.integer - c2.integer) < 2 ^ 63 := hty.machine
        rw [wrapSigned_of_bounds (by decide) hm.1 hm.2]
        rfl
    have hzδ : Agree td (wrapSigned 64 (td.wrap (c1.integer - c2.integer)))
        (c1.integer - c2.integer) := by
      have h := wrap_agree (t := td) (wrapSigned 64 (td.wrap (c1.integer - c2.integer)))
      rw [td.wrap_wrapSigned (intType_bits_le htd)] at h
      exact (Int.ModEq.symm h).trans ((wrap_agree _).trans (wrap_agree _))
    have hk := keeps_difference_iff ht hs .add .sub (by decide) (by decide) he hd hsign
      htd hdb (fun X => by simp only [Op.apply]; omega) hty
      (wrapSigned_bounds (by decide) _).1 hzδ
    rw [ne_eq, hleast] at hk
    refine Iff.trans ?_ (hk.trans (and_iff_right hsign).symm)
    have hv' : evalSubTyped c1.value c2.value c1.dtype = some v := hv
    simp only [hv', expect, bind, Except.bind, hread]
    exact Iff.rfl
  · refine iff_of_false ?_ fun h => hsign h.1
    have hv' : evalSubTyped c1.value c2.value c1.dtype = none := hnone hsign
    simp only [hv', expect, bind, Except.bind]
    exact not_keeps_error

theorem foldSubAdd_keepsIff (x : Term) (c1 c2 : Literal) : (foldSubAdd x c1 c2).KeepsIff s
    (SameSign c1.value c2.value ∧ ¬ (c1.dtype.isUnsigned = false ∧ FarApart c1 c2) ∧
      Stays (twoStage .sub .add x c1) c2) := by
  refine ⟨⟨rfl, ⟨trivial, trivial⟩, trivial⟩, fun out hout he hd => ?_⟩
  obtain ⟨⟨-, hc1⟩, hc2⟩ := id he
  have hv1 := literal_hasType hc1
  have hv2 := literal_hasType hc2
  obtain ⟨td, htd, hdb, -⟩ := hc1.1.intType ht hs
  obtain ⟨hsome, hnone⟩ := evalArith_cases htd hdb (· - ·) hv2.integerValue hv1.integerValue
  cases hout
  by_cases hsign : SameSign c1.value c2.value
  · obtain ⟨v, hv, hty⟩ := hsome hsign.symm
    have hleast := wrapSigned_difference htd (hsign.symm.difference_lt hv2 hv1)
    rw [abs_sub_comm, ← farApart_iff htd] at hleast
    have hv' : evalSubTyped c2.value c1.value c1.dtype = some v := hv
    have hk {z : ℤ} := keeps_difference_iff ht hs .sub .add (z := z) (by decide) (by decide)
      he hd hsign htd hdb (fun X => by simp only [Op.apply]; omega) hty
    simp only [hv', expect, bind, Except.bind]
    rcases hty.kind with ⟨hbool, -⟩ | ⟨-, hu, rfl⟩ | ⟨-, hu, rfl⟩
    · exact absurd hbool hdb
    · -- an unsigned difference is added as it is
      have hpos : 0 ≤ td.wrap (c2.integer - c1.integer) := hty.machine.1
      have h := hk (z := td.wrap (c2.integer - c1.integer)) (by omega) (wrap_agree _)
      simp only [Int.not_lt.mpr hpos, if_false] at h
      refine h.trans ⟨fun h => ⟨hsign, by simp [hu], h.2⟩, fun h => ⟨by omega, h.2.2⟩⟩
    · have hm : -2 ^ 63 ≤ td.wrap (c2.integer - c1.integer) ∧
          td.wrap (c2.integer - c1.integer) < 2 ^ 63 := hty.machine
      have h := hk hm.1 (wrap_agree _)
      rw [wrapSigned_of_bounds (by decide) hm.1 hm.2] at hleast
      rw [ne_eq, hleast] at h
      refine Iff.trans Iff.rfl (h.trans ?_)
      show _ ∧ Stays (twoStage .sub .add x c1) c2 ↔ _
      simp only [hsign, hu, true_and]
  · refine iff_of_false ?_ fun h => hsign h.1
    have hv' : evalSubTyped c2.value c1.value c1.dtype = none := hnone fun h => hsign h.symm
    simp only [hv', expect, bind, Except.bind]
    exact not_keeps_error

end

/-! ## All rules -/

/-- A rule of the two matchers that fires computes its constants and keeps the value of the node
    exactly under its condition. -/
theorem reassociation_exact_iff (ht : intType s = some t) (hs : s ≠ .bool) {x y a : Term}
    {c1 c2 : Literal} {r : Rule} {cond : Prop} (hr : (r, cond) ∈ conditions x y a c1 c2)
    (he : e.Typed s) (hd : e.dtype = s) (hacc : r.pattern.accepts e = true)
    (hout : r.outcome = some out) : Keeps e out ↔ cond := by
  have hkeeps : r.KeepsIff s cond := by
    simp only [conditions, List.mem_cons, Prod.mk.injEq, List.not_mem_nil, or_false] at hr
    rcases hr with ⟨rfl, rfl⟩ | ⟨rfl, rfl⟩ | ⟨rfl, rfl⟩ | ⟨rfl, rfl⟩ | ⟨rfl, rfl⟩ | ⟨rfl, rfl⟩ |
      ⟨rfl, rfl⟩ | ⟨rfl, rfl⟩ | ⟨rfl, rfl⟩ | ⟨rfl, rfl⟩ | ⟨rfl, rfl⟩ | ⟨rfl, rfl⟩ | ⟨rfl, rfl⟩ |
      ⟨rfl, rfl⟩ | ⟨rfl, rfl⟩ | ⟨rfl, rfl⟩ | ⟨rfl, rfl⟩ | ⟨rfl, rfl⟩ | ⟨rfl, rfl⟩ | ⟨rfl, rfl⟩ |
      ⟨rfl, rfl⟩
    · exact addSelf_keepsIff ht hs x
    · exact mergeTerms_keepsIff ht hs x c1 c2
    · exact mergeBare_keepsIff ht hs x c1
    · exact mergeNested_keepsIff ht hs x y c1 c2
    · exact mergeNestedBare_keepsIff ht hs x y c1
    · exact mergeNestedTerm_keepsIff ht hs x y c1
    · exact addSelfNested_keepsIff ht hs x y
    · exact distributeNeg_keepsIff ht hs x c1 c2
    · exact distributeConst_keepsIff ht hs x c1 c2
    · exact foldAdd_keepsIff ht hs x c1 c2
    · exact pushAdd_keepsIff ht hs x y c1
    · exact foldMul_keepsIff ht hs x c1 c2
    · exact pushMul_keepsIff ht hs x y c1
    · exact foldAnd_keepsIff ht hs x c1 c2
    · exact foldOr_keepsIff ht hs x c1 c2
    · exact foldXor_keepsIff ht hs x c1 c2
    · exact foldMax_keepsIff ht hs x c1 c2
    · exact foldSubAdd_keepsIff ht hs x c1 c2
    · exact foldAddSub_keepsIff ht hs x c1 c2
    · exact foldSubSub_keepsIff ht hs x c1 c2
    · exact subOfSub_keepsIff ht hs a y x
  obtain ⟨hty, hdt, hval⟩ := Pattern.toTerm_of_accepts hkeeps.1 hacc he
  rw [← hkeeps.2 out hout hty (hdt.trans hd)]
  unfold Keeps
  simp only [hval, hdt]

/-- `(x * 3) * 5` of signed bytes, the second constant weak. -/
theorem reassociation_exact_iff_mul :
    Keeps (.binary .mul (.binary .mul (.leaf .int8 0) (.const ⟨.int8, .int 3⟩))
      (.const ⟨.weakInt, .int 5⟩))
      (.ok (.binary .mul (.leaf .int8 0) (.const ⟨.int8, .int 15⟩))) := by
  have hr : (foldMul (.leaf .int8 0) ⟨.int8, .int 3⟩ ⟨.weakInt, .int 5⟩,
      SameSign (.int 3) (.int 5) ∧
        Stays (twoStage .mul .mul (.leaf .int8 0) ⟨.int8, .int 3⟩) ⟨.weakInt, .int 5⟩) ∈
      conditions (.leaf .int8 0) (.leaf .int8 1) (.leaf .int8 2) ⟨.int8, .int 3⟩
        ⟨.weakInt, .int 5⟩ := by
    simp [conditions]
  have he : (Term.binary .mul (.binary .mul (.leaf .int8 0) (.const ⟨.int8, .int 3⟩))
      (.const ⟨.weakInt, .int 5⟩)).Typed .int8 :=
    ⟨⟨Or.inl rfl, Or.inl rfl, 3, _, rfl, by decide, rfl⟩,
      Or.inr ⟨rfl, by decide⟩, 5, _, rfl, by decide, rfl⟩
  exact (reassociation_exact_iff (s := .int8) rfl (by decide) hr he rfl (by decide) rfl).mpr
    ⟨trivial, nofun⟩

/-- `(x - i64::MIN) + 0` negates `i64::MIN`. -/
theorem reassociation_exact_fails :
    ¬ ∀ (s : ScalarDType) (t : IntType), intType s = some t → s ≠ .bool →
      ∀ (x y a : Term) (c1 c2 : Literal) (r : Rule),
        r ∈ termCombiningDslPatterns x y c1 c2 ++ aluFoldingDslPatterns x y a c1 c2 →
        ∀ e : Term, e.Typed s → e.dtype = s → r.pattern.accepts e = true →
          ∀ out, r.outcome = some out → Keeps e out := by
  intro h
  have hc (v : ℤ) (hv : (⟨true, 64, by decide⟩ : IntType).Contains v) :
      (Term.const ⟨.int64, .int v⟩).Typed .int64 := ⟨Or.inl rfl, v, _, rfl, hv, rfl⟩
  obtain ⟨e', he', -⟩ := h .int64 _ rfl (by decide) (.leaf .int64 0) (.leaf .int64 1)
    (.leaf .int64 2) ⟨.int64, .int (-2 ^ 63)⟩ ⟨.int64, .int 0⟩
    (foldSubAdd (.leaf .int64 0) ⟨.int64, .int (-2 ^ 63)⟩ ⟨.int64, .int 0⟩)
    (by simp [aluFoldingDslPatterns])
    (.binary .add (.binary .sub (.leaf .int64 0) (.const ⟨.int64, .int (-2 ^ 63)⟩))
      (.const ⟨.int64, .int 0⟩))
    ⟨⟨Or.inl rfl, hc _ (by decide)⟩, hc _ (by decide)⟩ rfl (by decide) (.error .overflow) rfl
  cases he'

/-- The `expect` of `(x + 5) + 3` of bytes stops where the second constant is weak. -/
example : (foldAdd (.leaf .uint8 0) ⟨.uint8, .uint 5⟩ ⟨.weakInt, .int 3⟩).outcome =
    some (.error .expect) := rfl

end Svod.Symbolic.Reassociation
