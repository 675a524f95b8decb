/-
  Svod.Ir.SIntSpec

  What a symbolic integer is worth, and what its nodes compute.

  A symbolic expression is evaluated exactly, as launch sizes are: over the
  integers, with casts that do nothing.  `pairValues` are the values of two
  operands after a constant has been committed to the dtype of a symbolic
  partner.  Each node constructor has one lemma about its value.
-/

import Mathlib.Algebra.Order.Group.MinMax
import Mathlib.Tactic.Ring
import Svod.Ir.SInt

namespace Svod.Ir

open Svod.Lib RangeEval

/-! ## Exact evaluation -/

/-- Launch sizes are evaluated in 64 bits: the type that bounds shift amounts. -/
def launchType : IntType := ⟨true, 64, Nat.succ_pos 63⟩

namespace UOp

/-- The value of an expression over the integers. -/
def exact (env : Env) : UOp → Option ℤ
  | .const c _ => c.integerValue
  | .vconst _ _ | .stack _ _ _ => none
  | .defineVar n mn mx d => some (env (.defineVar n mn mx d))
  | .param s b as d => some (env (.param s b as d))
  | .range stop i d => some (env (.range stop i d))
  | .special stop n d => some (env (.special stop n d))
  | .bind _ value _ => value.exact env
  | .unary op x _ => (x.exact env).map op.apply
  | .binary op a b _ => do
    let x ← a.exact env
    let y ← b.exact env
    if op.defined launchType y then some (op.apply x y) else none
  | .where_ c a b _ => do
    let k ← c.exact env
    let x ← a.exact env
    let y ← b.exact env
    some (if k ≠ 0 then x else y)
  | .cast x _ => x.exact env

/-- A dtype that a symbolic dimension must have: `Index`, or a signed or weak integer. -/
def IsDim (u : UOp) : Prop := ∃ s : ScalarDType, u.dtype = .scalar s ∧ s.isDim = true

/-- `u` is a dimension with value `x`. -/
def Denotes (env : Env) (u : UOp) (x : ℤ) : Prop := u.IsDim ∧ u.exact env = some x

end UOp

/-- A constant reduced to a dtype. -/
def commit (d : DType) (n : ℤ) : ℤ :=
  match intType d.base with
  | some t => t.wrap n
  | none => n

namespace UOp

variable {env : Env} {a b : UOp} {x y : ℤ}

theorem intType_of_isDim {s : ScalarDType} (hs : s.isDim = true) :
    ∃ t, intType s = some t ∧ t.signed = true ∧ 8 ≤ t.bits ∧ s ≠ .bool := by
  cases s <;> first
    | exact absurd hs (by decide)
    | exact ⟨_, rfl, rfl, by decide, by decide⟩

/-- A constant of a dimension's dtype. -/
theorem const_denotes {s : ScalarDType} (hs : s.isDim = true) {v : ℤ}
    (hv : -2 ^ 63 ≤ v ∧ v < 2 ^ 63) :
    ∃ w, const_ (.scalar s) (.int v) = some (.const (.int w) (.scalar s)) ∧
      (const (.int w) (.scalar s)).Denotes env (commit (.scalar s) v) := by
  obtain ⟨t, ht, hsigned, -, hbool⟩ := intType_of_isDim hs
  have hcast : (ConstValue.int v).cast s = some (.int (t.wrap v)) := by
    show ConstValue.castInt v s = _
    rw [castInt_eq ht hv]
    unfold constOf castTo
    rw [if_pos hsigned, if_neg hbool]
  have hcommit : commit (.scalar s) v = t.wrap v := by
    unfold commit
    rw [show (DType.scalar s).base = s from rfl, ht]
  refine ⟨t.wrap v, ?_, ⟨s, rfl, hs⟩, ?_⟩
  · unfold const_
    rw [if_neg (by exact fun h => by cases h)]
    show ((ConstValue.int v).cast s).map _ = _
    rw [hcast]
    rfl
  · rw [hcommit]
    rfl

/-- A dimension with a value is not the invalid marker. -/
theorem Denotes.not_invalid (h : a.Denotes env x) : a.isInvalidMarker = false := by
  have hx := h.2
  cases a with
  | const c d =>
    cases c with
    | invalid => cases hx
    | int | uint | bool => rfl
  | vconst cs d => cases hx
  | defineVar | param | range | special | bind | stack | unary | binary | where_ | cast => rfl

/-- `promote_and_cast` keeps the values. -/
theorem castStrongSource_spec (ha : a.Denotes env x) {u : ScalarDType} (hu : u.isDim = true) :
    ∃ l, (if a.dtype ≠ .scalar u ∧ ¬ a.isInvalidMarker then a.castStrongSource (.scalar u)
      else a) = l ∧ l.Denotes env x ∧ (l.dtype = a.dtype ∨ l.dtype = .scalar u) := by
  refine ⟨_, rfl, ?_⟩
  split
  · unfold castStrongSource
    split
    · exact ⟨ha, Or.inl rfl⟩
    · unfold castUop
      split
      · exact ⟨ha, Or.inl rfl⟩
      · exact ⟨⟨⟨u, rfl, hu⟩, ha.2⟩, Or.inr rfl⟩
  · exact ⟨ha, Or.inl rfl⟩

theorem isDim_ne_void (h : a.IsDim) : a.dtype ≠ .scalar .void := by
  obtain ⟨s, hs, hdim⟩ := h
  rw [hs]
  rintro heq
  obtain rfl := DType.scalar.inj heq
  cases hdim

theorem promoteAndCast_eq (ha : a.Denotes env x) (hb : b.Denotes env y) :
    (a.dtype.leastUpper b.dtype = none → promoteAndCast a b = none) ∧
    ∀ d, a.dtype.leastUpper b.dtype = some d →
      ∃ l r, promoteAndCast a b = some (l, r, d) ∧ l.Denotes env x ∧ r.Denotes env y ∧
        l.dtype.leastUpper r.dtype = some d ∧ ∃ u, d = .scalar u ∧ u.isDim = true := by
  have hvoid : ¬ (a.dtype = .scalar .void ∨ b.dtype = .scalar .void) := by
    rintro (h | h)
    · exact isDim_ne_void ha.1 h
    · exact isDim_ne_void hb.1 h
  have hpromote : promoteAndCast a b = (a.dtype.leastUpper b.dtype).bind fun target =>
      some (if a.dtype ≠ target ∧ ¬ a.isInvalidMarker then a.castStrongSource target else a,
        if b.dtype ≠ target ∧ ¬ b.isInvalidMarker then b.castStrongSource target else b,
        target) := by
    unfold promoteAndCast
    rw [if_neg hvoid]
    simp only [ha.not_invalid, hb.not_invalid, Bool.false_eq_true, if_false]
    rfl
  constructor
  · intro h
    rw [hpromote, h]
    rfl
  · intro d h
    obtain ⟨s, hs, hsdim⟩ := ha.1
    obtain ⟨s', hs', hsdim'⟩ := hb.1
    have hup : (s.leastUpper s').map DType.scalar = some d := by
      rw [hs, hs'] at h
      exact h
    obtain ⟨u, hu, rfl⟩ := Option.map_eq_some_iff.mp hup
    obtain ⟨hudim, hright, hleft⟩ := ScalarDType.leastUpper_isDim hsdim hsdim' hu
    obtain ⟨l, hl, hlx, hld⟩ := castStrongSource_spec ha hudim
    obtain ⟨r, hr, hry, hrd⟩ := castStrongSource_spec hb hudim
    refine ⟨l, r, ?_, hlx, hry, ?_, u, rfl, hudim⟩
    · rw [hpromote, h, Option.bind_some, hl, hr]
    · rcases hld with hld | hld <;> rcases hrd with hrd | hrd <;> rw [hld, hrd]
      · exact h
      · rw [hs, DType.leastUpper_scalar, hleft]
        rfl
      · rw [hs', DType.leastUpper_scalar, hright]
        rfl
      · rw [DType.leastUpper_scalar, ScalarDType.leastUpper_self]
        rfl

/-- A binary node has the value of its operation. -/
theorem tryBinary_denotes (ha : a.Denotes env x) (hb : b.Denotes env y) (op : BinaryOp)
    (hop : op.defined launchType y = true) {d : DType} (hd : a.dtype.leastUpper b.dtype = some d) :
    ∃ r, tryBinary op a b = some r ∧ r.Denotes env (op.apply x y) ∧ r.dtype = d := by
  obtain ⟨l, r, hpair, hl, hr, -, u, rfl, hu⟩ := (promoteAndCast_eq ha hb).2 d hd
  refine ⟨.binary op l r (.scalar u), ?_, ⟨⟨u, rfl, hu⟩, ?_⟩, rfl⟩
  · unfold tryBinary
    rw [hpair]
    rfl
  · simp only [exact, hl.2, hr.2, Option.bind_eq_bind, Option.bind_some, hop, if_true]

theorem tryBinary_none (ha : a.Denotes env x) (hb : b.Denotes env y) {op : BinaryOp}
    (h : a.dtype.leastUpper b.dtype = none) : tryBinary op a b = none := by
  unfold tryBinary
  rw [(promoteAndCast_eq ha hb).1 h]
  rfl

theorem leastUpper_self_of_isDim (h : a.IsDim) : a.dtype.leastUpper a.dtype = some a.dtype := by
  obtain ⟨s, hs, -⟩ := h
  rw [hs, DType.leastUpper_scalar, ScalarDType.leastUpper_self]
  rfl

/-- The product with `-1` is the negation. -/
theorem neg_denotes (ha : a.Denotes env x) :
    ∃ r, a.neg = some r ∧ r.Denotes env (-x) ∧ r.dtype = a.dtype := by
  obtain ⟨s, hs, hdim⟩ := ha.1
  obtain ⟨t, ht, hsigned, hbits, hbool⟩ := intType_of_isDim hdim
  obtain ⟨m, hm, hmd⟩ := @const_denotes env s hdim (-1) ⟨by decide, by decide⟩
  have hminus : commit (.scalar s) (-1) = -1 := by
    unfold commit
    rw [show (DType.scalar s).base = s from rfl, ht]
    apply IntType.wrap_of_contains
    unfold IntType.Contains IntType.min IntType.max
    rw [if_pos hsigned, if_pos hsigned]
    have hpos : (0 : ℤ) < 2 ^ (t.bits - 1) := by positivity
    omega
  rw [hminus] at hmd
  have hup : a.dtype.leastUpper (const (.int m) (.scalar s)).dtype = some a.dtype := by
    rw [show (const (.int m) (.scalar s)).dtype = a.dtype from hs.symm]
    exact leastUpper_self_of_isDim ha.1
  obtain ⟨r, hr, hrd, hrt⟩ := tryBinary_denotes ha hmd .mul rfl hup
  refine ⟨r, ?_, ?_, hrt⟩
  · unfold neg
    rw [if_neg (by rw [hs]; exact fun h => hbool (DType.scalar.inj h)), hs, hm]
    exact hr
  · rw [show -x = BinaryOp.mul.apply x (-1) by simp [BinaryOp.apply]]
    exact hrd

theorem trySub_denotes (ha : a.Denotes env x) (hb : b.Denotes env y) {d : DType}
    (hd : a.dtype.leastUpper b.dtype = some d) :
    ∃ r, trySub a b = some r ∧ r.Denotes env (x - y) ∧ r.dtype = d := by
  obtain ⟨l, r, hpair, hl, hr, hup, -⟩ := (promoteAndCast_eq ha hb).2 d hd
  obtain ⟨n, hn, hnd, hnt⟩ := neg_denotes hr
  obtain ⟨s, hs, hsd, hst⟩ := tryBinary_denotes hl hnd .add rfl (by rw [hnt]; exact hup)
  refine ⟨s, ?_, hsd, hst⟩
  simp only [trySub, hpair, Option.bind_eq_bind, Option.bind_some, hn]
  exact hs

theorem trySub_none (ha : a.Denotes env x) (hb : b.Denotes env y)
    (h : a.dtype.leastUpper b.dtype = none) : trySub a b = none := by
  simp only [trySub, (promoteAndCast_eq ha hb).1 h, Option.bind_eq_bind, Option.bind_none]

/-! ## Hash-consed nodes -/

theorem same_self (e : UOp) : e.same e = true := by
  induction e with
  | const | vconst | defineVar | param => simp [same]
  | range e i d ih | special e n d ih => simp [same, ih]
  | bind x v d ihx ihv => simp [same, ihx, ihv]
  | stack n s d ih => simp [same, ih]
  | unary o x d ih => simp [same, ih]
  | binary o x y d ihx ihy => simp [same, ihx, ihy]
  | where_ c x y d ihc ihx ihy => simp [same, ihc, ihx, ihy]
  | cast x d ih => simp [same, ih]

instance : LawfulBEq UOp where
  eq_of_beq h := eq_of_same h
  rfl := same_self _

end UOp

/-! ## Affine differences -/

/-- The sum of the values of the varying terms. -/
def termSum (env : UOp.Env) (terms : List UOp) : ℤ :=
  (terms.map fun t => (t.exact env).getD 0).sum

/-- A constant leaf is its value modulo `2^128`. -/
theorem constLeaf_spec {env : UOp.Env} {u : UOp} {c x : ℤ} (hc : constLeaf u = some c)
    (hx : u.exact env = some x) : (2 ^ 128 : ℤ) ∣ x - c := by
  induction u generalizing c x with
  | const k d =>
    cases k with
    | int v | uint v =>
      obtain rfl := Option.some.inj hc
      obtain rfl := Option.some.inj hx
      simp
    | bool | invalid => cases hc
  | binary op a b d iha ihb =>
    cases op with
    | mul =>
      simp only [constLeaf, bind_eq_some, Option.some.injEq] at hc
      obtain ⟨p, hp, q, hq, rfl⟩ := hc
      simp only [UOp.exact, bind_eq_some,
        Option.ite_none_right_eq_some, Option.some.injEq] at hx
      obtain ⟨v, hv, w, hw, -, rfl⟩ := hx
      have hmul : (2 ^ 128 : ℤ) ∣ v * w - p * q := by
        rw [show v * w - p * q = v * (w - q) + q * (v - p) by ring]
        exact dvd_add ((ihb hq hw).mul_left v) ((iha hp hv).mul_left q)
      show (2 ^ 128 : ℤ) ∣ v * w - wrapSigned 128 (p * q)
      rw [show v * w - wrapSigned 128 (p * q) =
        (v * w - p * q) + (p * q - wrapSigned 128 (p * q)) by ring]
      exact dvd_add hmul (dvd_sub_wrapSigned 128 _)
    | add | sub | max | floorDiv | cdiv | floorMod | cmod | shl | shr | and | or | lt | le | eq
    | ne | gt | ge => cases hc
  | vconst | defineVar | param | range | special | bind | stack | unary | where_ | cast => cases hc

/-- A node that is no sum: a constant, or one varying term. -/
theorem affineTerms_leaf {env : UOp.Env} {u : UOp} (hadd : isAdd u = false) {x : ℤ}
    (hx : u.exact env = some x) :
    (2 ^ 128 : ℤ) ∣ x - ((affineTerms u).1 + termSum env (affineTerms u).2) := by
  have hleaf : affineTerms u = ((constLeaf u).map fun c => (c, [])).getD (0, [u]) := by
    cases u with
    | binary op a b d =>
      cases op with
      | add => cases hadd
      | _ => cases hc : constLeaf (.binary _ a b d) <;> simp [affineTerms, hc]
    | _ => cases hc : constLeaf _ <;> simp [affineTerms, hc]
  rw [hleaf]
  cases hc : constLeaf u with
  | some c => simpa [termSum] using constLeaf_spec hc hx
  | none => simp [termSum, hx]

/-- An expression is its constant addend plus its varying terms, modulo `2^128`. -/
theorem affineTerms_spec {env : UOp.Env} {u : UOp} {x : ℤ} (hx : u.exact env = some x) :
    (2 ^ 128 : ℤ) ∣ x - ((affineTerms u).1 + termSum env (affineTerms u).2) := by
  induction u generalizing x with
  | binary op a b d iha ihb =>
    cases hop : isAdd (.binary op a b d) with
    | false => exact affineTerms_leaf hop hx
    | true =>
      obtain rfl : op = .add := by cases op <;> first | rfl | cases hop
      simp only [UOp.exact, bind_eq_some,
        Option.ite_none_right_eq_some, Option.some.injEq] at hx
      obtain ⟨v, hv, w, hw, -, rfl⟩ := hx
      have hsum : termSum env (affineTerms (.binary .add a b d)).2 =
          termSum env (affineTerms a).2 + termSum env (affineTerms b).2 := by
        simp [affineTerms, termSum]
      have ha := iha hv
      have hb := ihb hw
      rw [hsum]
      have hwrap := dvd_sub_wrapSigned 128 ((affineTerms a).1 + (affineTerms b).1)
      show (2 ^ 128 : ℤ) ∣ v + w - (wrapSigned 128 ((affineTerms a).1 + (affineTerms b).1) + _)
      have h := dvd_add (dvd_add ha hb) hwrap
      rwa [show v - ((affineTerms a).1 + termSum env (affineTerms a).2) +
        (w - ((affineTerms b).1 + termSum env (affineTerms b).2)) +
        ((affineTerms a).1 + (affineTerms b).1 -
          wrapSigned 128 ((affineTerms a).1 + (affineTerms b).1)) =
        v + w - (wrapSigned 128 ((affineTerms a).1 + (affineTerms b).1) +
          (termSum env (affineTerms a).2 + termSum env (affineTerms b).2)) by ring] at h
  | const | vconst | defineVar | param | range | special | bind | stack | unary | where_ | cast =>
    exact affineTerms_leaf rfl hx

/-- The affine difference of two expressions is the difference of their values in `i128`. -/
theorem affineDifference_spec {env : UOp.Env} {a b : UOp} {diff x y : ℤ}
    (h : affineDifference a b = some diff) (hx : a.exact env = some x)
    (hy : b.exact env = some y) : diff = wrapSigned 128 (x - y) := by
  simp only [affineDifference, Option.ite_none_left_eq_some, Option.ite_none_right_eq_some,
    Option.some.injEq, List.isPerm_iff] at h
  obtain ⟨-, hperm, rfl⟩ := h
  have hterms : termSum env (affineTerms a).2 = termSum env (affineTerms b).2 :=
    (hperm.map _).sum_eq
  apply wrapSigned_congr
  have hsub := dvd_sub (affineTerms_spec hy) (affineTerms_spec hx)
  rw [hterms] at hsub
  rwa [show y - ((affineTerms b).1 + termSum env (affineTerms b).2) -
    (x - ((affineTerms a).1 + termSum env (affineTerms b).2)) =
    (affineTerms a).1 - (affineTerms b).1 - (x - y) by ring] at hsub

/-! ## Operands -/

namespace SInt

/-- The value of a symbolic integer. -/
def value (env : UOp.Env) : SInt → Option ℤ
  | .const n => some n
  | .symbolic u => u.exact env
  | .infer => none

/-- `a` is a `usize` or a dimension, with value `x`. -/
def Denotes (env : UOp.Env) : SInt → ℤ → Prop
  | .const n, x => n < 2 ^ 64 ∧ x = n
  | .symbolic u, x => u.Denotes env x
  | .infer, _ => False

/-- The values of two operands once a constant has taken the dtype of a symbolic partner. -/
def pairValues : SInt → SInt → ℤ → ℤ → ℤ × ℤ
  | .const n, .symbolic u, _, y => (commit u.dtype n, y)
  | .symbolic u, .const n, x, _ => (x, commit u.dtype n)
  | _, _, x, y => (x, y)

/-- Two symbolic operands have a common dtype. -/
def promotes : SInt → SInt → Bool
  | .symbolic u, .symbolic v => (u.dtype.leastUpper v.dtype).isSome
  | _, _ => true

/-- The operands have a common dtype, and brought to it they give the result of `f`. -/
def Keeps (f : ℤ → ℤ → ℤ) (a b : SInt) (x y : ℤ) : Prop :=
  promotes a b = true ∧ f (pairValues a b x y).1 (pairValues a b x y).2 = f x y

variable {env : UOp.Env} {a b : SInt} {x y : ℤ}

theorem Denotes.value (h : a.Denotes env x) : a.value env = some x := by
  cases a with
  | const n => exact congrArg some h.2.symm
  | symbolic u => exact h.2
  | infer => exact h.elim

theorem commit_wrapSigned (d : DType) (n : ℤ) (hd : ∃ t, intType d.base = some t) :
    commit d (wrapSigned 64 n) = commit d n := by
  obtain ⟨t, ht⟩ := hd
  unfold commit
  rw [ht]
  exact t.wrap_wrapSigned (intType_bits_le ht) n

/-- A constant as a node of the partner's dtype. -/
theorem toUop_const {u : UOp} (hu : u.IsDim) (n : ℕ) :
    ∃ w, toUop u.dtype (.const n) = some (.const (.int w) u.dtype) ∧
      (UOp.const (.int w) u.dtype).Denotes env (commit u.dtype n) := by
  obtain ⟨s, hs, hdim⟩ := hu
  obtain ⟨t, ht, -⟩ := UOp.intType_of_isDim hdim
  have hbounds := wrapSigned_bounds (w := 64) (by decide) (n : ℤ)
  obtain ⟨w, hw, hwd⟩ := @UOp.const_denotes env s hdim _ hbounds
  rw [commit_wrapSigned (.scalar s) n ⟨t, ht⟩] at hwd
  rw [hs]
  exact ⟨w, hw, hwd⟩

/-- A pair with a symbolic operand is a pair of dimensions with the committed values. -/
theorem arithmeticPair_denotes (ha : a.Denotes env x) (hb : b.Denotes env y)
    (hsym : ¬ ∃ m n, a = .const m ∧ b = .const n) :
    ∃ p q, arithmeticPair a b = some (p, q) ∧ p.Denotes env (pairValues a b x y).1 ∧
      q.Denotes env (pairValues a b x y).2 ∧
      (p.dtype.leastUpper q.dtype).isSome = promotes a b := by
  cases a with
  | infer => exact ha.elim
  | const m =>
    cases b with
    | infer => exact hb.elim
    | const n => exact absurd ⟨m, n, rfl, rfl⟩ hsym
    | symbolic v =>
      obtain ⟨c, hc, hcd⟩ := @toUop_const env v hb.1 m
      refine ⟨.const (.int c) v.dtype, v, ?_, hcd, hb, ?_⟩
      · simp only [arithmeticPair, hc, Option.map_some]
      · show (v.dtype.leastUpper v.dtype).isSome = true
        rw [UOp.leastUpper_self_of_isDim hb.1]
        rfl
  | symbolic u =>
    cases b with
    | infer => exact hb.elim
    | const n =>
      obtain ⟨c, hc, hcd⟩ := @toUop_const env u ha.1 n
      refine ⟨u, .const (.int c) u.dtype, ?_, ha, hcd, ?_⟩
      · simp only [arithmeticPair, hc, Option.map_some]
      · show (u.dtype.leastUpper u.dtype).isSome = true
        rw [UOp.leastUpper_self_of_isDim ha.1]
        rfl
    | symbolic v => exact ⟨u, v, rfl, ha, hb, rfl⟩

/-! ## Nodes -/

section Nodes

variable {p q : UOp} {v : ℤ}

/-- A node gives `v` when the operands have a common dtype and the operation gives `v`. -/
theorem tryBinary_iff (hp : p.Denotes env x) (hq : q.Denotes env y) (op : BinaryOp)
    (hop : op.defined launchType y = true) :
    (UOp.tryBinary op p q).bind (·.exact env) = some v ↔
      (p.dtype.leastUpper q.dtype).isSome = true ∧ op.apply x y = v := by
  cases hd : p.dtype.leastUpper q.dtype with
  | none => simp [UOp.tryBinary_none hp hq hd]
  | some d =>
    obtain ⟨r, hr, hrd, -⟩ := UOp.tryBinary_denotes hp hq op hop hd
    simp [hr, hrd.2]

theorem trySub_iff (hp : p.Denotes env x) (hq : q.Denotes env y) :
    (UOp.trySub p q).bind (·.exact env) = some v ↔
      (p.dtype.leastUpper q.dtype).isSome = true ∧ x - y = v := by
  cases hd : p.dtype.leastUpper q.dtype with
  | none => simp [UOp.trySub_none hp hq hd]
  | some d =>
    obtain ⟨r, hr, hrd, -⟩ := UOp.trySub_denotes hp hq hd
    simp [hr, hrd.2]

/-- The node of a zero constant has the value zero. -/
theorem eq_zero_of_isConstZero (hq : q.Denotes env y) (h : q.isConstZero = true) : y = 0 := by
  have hy := hq.2
  unfold UOp.isConstZero at h
  split at h
  · obtain rfl := of_decide_eq_true h
    exact (Option.some.inj hy).symm
  · obtain rfl := of_decide_eq_true h
    exact (Option.some.inj hy).symm
  · cases h

theorem tryDiv_iff (hp : p.Denotes env x) (hq : q.Denotes env y) :
    (UOp.tryDiv p q).bind (·.exact env) = some v ↔
      y ≠ 0 ∧ (p.dtype.leastUpper q.dtype).isSome = true ∧ x.fdiv y = v := by
  unfold UOp.tryDiv
  by_cases hy : y = 0
  · -- a divisor that is zero has no quotient, as a constant or at run time
    subst hy
    have hnone : (UOp.tryBinary .floorDiv p q).bind (·.exact env) ≠ some v := by
      intro h
      obtain ⟨r, hr, hrv⟩ := Option.bind_eq_some_iff.mp h
      cases hd : p.dtype.leastUpper q.dtype with
      | none =>
        rw [UOp.tryBinary_none hp hq hd] at hr
        cases hr
      | some d =>
        obtain ⟨l, r', hpair, hl, hr', -⟩ := (UOp.promoteAndCast_eq hp hq).2 d hd
        unfold UOp.tryBinary at hr
        rw [hpair] at hr
        obtain rfl := Option.some.inj hr
        simp only [UOp.exact, hl.2, hr'.2, Option.bind_eq_bind, Option.bind_some] at hrv
        cases hrv
    split
    · simp
    · simp [hnone]
  · have hzero : q.isConstZero = false := by
      cases h : q.isConstZero with
      | false => rfl
      | true => exact absurd (eq_zero_of_isConstZero hq h) hy
    rw [hzero, if_neg (by decide)]
    rw [tryBinary_iff hp hq .floorDiv (decide_eq_true hy)]
    exact ⟨fun h => ⟨hy, h⟩, fun h => h.2⟩

end Nodes

end SInt

end Svod.Ir
