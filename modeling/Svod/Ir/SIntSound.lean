/-
  Svod.Ir.SIntSound

  The arithmetic of symbolic integers against the arithmetic of integers.

  Each operation has a condition, one clause for each arm of the source, under
  which it evaluates to the operation on the values of its operands: the
  committed operands give the same result and no zero shortcut is taken.
-/

import Svod.Ir.SIntSpec

namespace Svod.Ir

open Svod.Lib RangeEval

namespace SInt

variable {env : UOp.Env} {a b : SInt} {x y : ℤ}

/-! ## Sums, products and quotients -/

/-- One condition for each arm of `impl_sint_binop!`. -/
def BinopHolds (concrete rhsZero lhsZero general : Prop) (a b : SInt) : Prop :=
  match a, b with
  | .const _, .const _ => concrete
  | _, .const 0 => rhsZero
  | .const 0, _ => lhsZero
  | _, _ => general

/-- `impl_sint_binop!`, arm by arm. -/
theorem binop_iff {concrete : ℕ → ℕ → Option ℕ} {method : UOp → UOp → Option UOp}
    {v : ℤ} {C R L G : Prop} (ha : a.Denotes env x) (hb : b.Denotes env y)
    (hC : ∀ m n : ℕ, m < 2 ^ 64 → n < 2 ^ 64 → x = m → y = n →
      ((concrete m n).map (fun k : ℕ => (k : ℤ)) = some v ↔ C))
    (hR : y = 0 → (x = v ↔ R)) (hL : x = 0 → (y = v ↔ L))
    (hG : ∀ p q, p.Denotes env (pairValues a b x y).1 → q.Denotes env (pairValues a b x y).2 →
      (p.dtype.leastUpper q.dtype).isSome = promotes a b →
      ((method p q).bind (·.exact env) = some v ↔ G)) :
    (binop concrete method a b).bind (value env) = some v ↔ BinopHolds C R L G a b := by
  have hgeneral : (¬ ∃ m n, a = .const m ∧ b = .const n) →
      ((((arithmeticPair a b).bind fun pq => (method pq.1 pq.2).map .symbolic).bind
        (value env) = some v) ↔ G) := by
    intro hsym
    obtain ⟨p, q, hpair, hp, hq, hup⟩ := arithmeticPair_denotes ha hb hsym
    rw [hpair, Option.bind_some, Option.bind_map]
    exact hG p q hp hq hup
  cases a with
  | infer => exact ha.elim
  | const m =>
    cases b with
    | infer => exact hb.elim
    | const n =>
      show ((concrete m n).map SInt.const).bind (value env) = some v ↔ C
      rw [Option.bind_map]
      have h := hC m n ha.1 hb.1 ha.2 hb.2
      cases hcn : concrete m n with
      | none => simpa [hcn] using h
      | some k => simpa [hcn, value] using h
    | symbolic w =>
      cases m with
      | zero =>
        show w.exact env = some v ↔ L
        rw [hb.2, Option.some.injEq]
        exact hL ha.2
      | succ m => exact hgeneral (by rintro ⟨_, _, -, h⟩; cases h)
  | symbolic u =>
    cases b with
    | infer => exact hb.elim
    | const n =>
      cases n with
      | zero =>
        show u.exact env = some v ↔ R
        rw [ha.2, Option.some.injEq]
        exact hR hb.2
      | succ n => exact hgeneral (by rintro ⟨_, _, h, -⟩; cases h)
    | symbolic w => exact hgeneral (by rintro ⟨_, _, h, -⟩; cases h)

/-- A native result is exact when it does not wrap. -/
theorem emod_usize_eq_iff (k : ℕ) :
    (((k % 2 ^ 64 : ℕ)) : ℤ) = (k : ℤ) ↔ (k : ℤ) < 2 ^ 64 := by
  omega

def AddHolds (a b : SInt) (x y : ℤ) : Prop :=
  BinopHolds (x + y < 2 ^ 64) True True (Keeps (· + ·) a b x y) a b

theorem add_iff (ha : a.Denotes env x) (hb : b.Denotes env y) :
    (a.add b).bind (value env) = some (x + y) ↔ AddHolds a b x y := by
  apply binop_iff ha hb
  · rintro m n - - rfl rfl
    rw [Option.map_some, Option.some.injEq, ← Nat.cast_add]
    exact emod_usize_eq_iff (m + n)
  · rintro rfl
    simp
  · rintro rfl
    simp
  · intro p q hp hq hup
    rw [UOp.tryAdd, tryBinary_iff hp hq _ rfl, hup]
    rfl

def MulHolds (a b : SInt) (x y : ℤ) : Prop :=
  BinopHolds (x * y < 2 ^ 64) (x = 0) (y = 0) (Keeps (· * ·) a b x y) a b

theorem mul_iff (ha : a.Denotes env x) (hb : b.Denotes env y) :
    (a.mul b).bind (value env) = some (x * y) ↔ MulHolds a b x y := by
  apply binop_iff ha hb
  · rintro m n - - rfl rfl
    rw [Option.map_some, Option.some.injEq, ← Nat.cast_mul]
    exact emod_usize_eq_iff (m * n)
  · rintro rfl
    rw [mul_zero]
  · rintro rfl
    rw [zero_mul]
  · intro p q hp hq hup
    rw [UOp.tryMul, tryBinary_iff hp hq _ rfl, hup]
    rfl

def DivHolds (a b : SInt) (x y : ℤ) : Prop :=
  BinopHolds True True False ((pairValues a b x y).2 ≠ 0 ∧ Keeps Int.fdiv a b x y) a b

theorem div_iff (ha : a.Denotes env x) (hb : b.Denotes env y) (hy : y ≠ 0) :
    (a.div b).bind (value env) = some (x.fdiv y) ↔ DivHolds a b x y := by
  apply binop_iff ha hb
  · rintro m n - - rfl rfl
    have hn : n ≠ 0 := fun h => hy (by rw [h]; rfl)
    rw [if_neg hn, Option.map_some, Int.natCast_div, Int.fdiv_eq_ediv_of_nonneg _ (by omega)]
    simp
  · intro h
    exact absurd h hy
  · rintro rfl
    rw [Int.zero_fdiv]
    simp [hy]
  · intro p q hp hq hup
    rw [tryDiv_iff hp hq, hup]
    rfl

/-! ## Differences -/

/-- The arms of `Sub` for a pair with a symbolic operand. -/
def SubPairHolds (a b : SInt) (x y : ℤ) : Prop :=
  match arithmeticPair a b with
  | some (p, q) =>
    match affineDifference p q with
    | some _ => ∃ k : ℕ, asUsize (wrapSigned 128 ((pairValues a b x y).1 -
        (pairValues a b x y).2)) = some k ∧ (k : ℤ) = x - y
    | none => Keeps (· - ·) a b x y
  | none => False

def SubHolds (a b : SInt) (x y : ℤ) : Prop :=
  match a, b with
  | .const _, .const _ => True
  | _, .const 0 => True
  | a, b => a.same b = true ∨ SubPairHolds a b x y

theorem eq_of_same (h : a.same b = true) : a = b := by
  cases a <;> cases b <;> simp [same] at h
  · rw [h]
  · rw [UOp.eq_of_same h]
  · rfl

/-- Equal operands have equal values. -/
theorem Denotes.unique (ha : a.Denotes env x) (hb : b.Denotes env y) (h : a.same b = true) :
    x = y := by
  have hx := ha.value
  rw [eq_of_same h, hb.value] at hx
  exact (Option.some.inj hx).symm

theorem subPair_iff (ha : a.Denotes env x) (hb : b.Denotes env y)
    (hsym : ¬ ∃ m n, a = .const m ∧ b = .const n) :
    (((arithmeticPair a b).bind fun (p, q) =>
      match affineDifference p q with
      | some diff => (asUsize diff).map SInt.const
      | none => (UOp.trySub p q).map SInt.symbolic).bind (value env) = some (x - y)) ↔
      SubPairHolds a b x y := by
  obtain ⟨p, q, hpair, hp, hq, hup⟩ := arithmeticPair_denotes ha hb hsym
  unfold SubPairHolds
  simp only [hpair, Option.bind_some]
  cases hdiff : affineDifference p q with
  | some diff =>
    simp only [Option.bind_map, Option.bind_eq_some_iff]
    rw [affineDifference_spec hdiff hp.2 hq.2]
    constructor
    · rintro ⟨k, hk, hv⟩
      exact ⟨k, hk, Option.some.inj hv⟩
    · rintro ⟨k, hk, hv⟩
      exact ⟨k, hk, congrArg some hv⟩
  | none =>
    simp only [Option.bind_map]
    show (UOp.trySub p q).bind (·.exact env) = some (x - y) ↔ _
    rw [trySub_iff hp hq, hup]
    rfl

theorem sub_iff (ha : a.Denotes env x) (hb : b.Denotes env y) (hxy : y ≤ x) :
    (a.sub b).bind (value env) = some (x - y) ↔ SubHolds a b x y := by
  have hpair : (¬ ∃ m n, a = .const m ∧ b = .const n) →
      ((if a.same b then some (.const 0) else
        (arithmeticPair a b).bind fun (p, q) =>
          match affineDifference p q with
          | some diff => (asUsize diff).map SInt.const
          | none => (UOp.trySub p q).map SInt.symbolic).bind (value env) = some (x - y) ↔
        (a.same b = true ∨ SubPairHolds a b x y)) := by
    intro hsym
    by_cases hsame : a.same b = true
    · obtain rfl := ha.unique hb hsame
      simp [hsame, value]
    · rw [if_neg hsame, subPair_iff ha hb hsym]
      simp [hsame]
  cases a with
  | infer => exact ha.elim
  | const m =>
    cases b with
    | infer => exact hb.elim
    | const n =>
      obtain ⟨-, rfl⟩ := ha
      obtain ⟨-, rfl⟩ := hb
      have hge : m ≥ n := by omega
      show (if m ≥ n then some (SInt.const (m - n)) else none).bind (value env) = _ ↔ True
      rw [if_pos hge, Option.bind_some, iff_true]
      exact congrArg some (Int.ofNat_sub hge)
    | symbolic w => exact hpair (by rintro ⟨_, _, -, h⟩; cases h)
  | symbolic u =>
    cases b with
    | infer => exact hb.elim
    | const n =>
      cases n with
      | zero =>
        show u.exact env = some (x - y) ↔ True
        rw [ha.2, hb.2]
        simp
      | succ n => exact hpair (by rintro ⟨_, _, h, -⟩; cases h)
    | symbolic w => exact hpair (by rintro ⟨_, _, h, -⟩; cases h)

/-! ## Maxima and minima -/

/-- The operands that an interval shortcut compares have values within their intervals. -/
def InIntervals (a b : SInt) (x y : ℤ) : Prop :=
  ∀ p q, arithmeticPair a b = some (p, q) → (rangeAtLeast p q || rangeAtLeast q p) = true →
    InBounds (vminVmax p) (pairValues a b x y).1 ∧ InBounds (vminVmax q) (pairValues a b x y).2

def isConst : SInt → Bool
  | .const _ => true
  | _ => false

/-- A shortcut of `smax` returns a constant, or the operands brought to one dtype have the same
    maximum; a node keeps the maximum. -/
def SmaxPairHolds (a b : SInt) (x y : ℤ) : Prop :=
  match arithmeticPair a b with
  | some (p, q) =>
    match maxChoice p q with
    | .lhs => a.isConst = true ∨ max (pairValues a b x y).1 (pairValues a b x y).2 = max x y
    | .rhs => b.isConst = true ∨ max (pairValues a b x y).1 (pairValues a b x y).2 = max x y
    | .node => Keeps max a b x y
  | none => False

def SmaxHolds (a b : SInt) (x y : ℤ) : Prop :=
  match a, b with
  | .const _, .const _ => True
  | a, b => a.same b = true ∨ SmaxPairHolds a b x y

/-- A term of a maximum is no greater than it. -/
theorem le_of_containsMaxTerm {p q : UOp} {u v : ℤ} (h : symbolicContainsMaxTerm p q = true)
    (hp : p.exact env = some u) (hq : q.exact env = some v) : v ≤ u := by
  induction p generalizing u with
  | binary op l r d ihl ihr =>
    unfold symbolicContainsMaxTerm at h
    split at h
    · next hsame =>
      rw [UOp.eq_of_same hsame, hq] at hp
      exact (Option.some.inj hp).le
    · split at h
      · next heq =>
        cases heq
        simp only [UOp.exact, bind_eq_some,
          Option.ite_none_right_eq_some, Option.some.injEq] at hp
        obtain ⟨a, ha, b, hb, -, rfl⟩ := hp
        rcases Bool.or_eq_true_iff.mp h with hl | hr
        · exact (ihl hl ha).trans (le_max_left a b)
        · exact (ihr hr hb).trans (le_max_right a b)
      · cases h
  | const | vconst | defineVar | param | range | special | bind | stack | unary | where_ | cast =>
    unfold symbolicContainsMaxTerm at h
    split at h
    · next hsame =>
      rw [UOp.eq_of_same hsame, hq] at hp
      exact (Option.some.inj hp).le
    · cases h

theorem integerValue_of_constToI128 {c : ConstValue} {v : ℤ} (h : constToI128 c = some v) :
    c.integerValue = some v := by
  cases c <;> first | exact h | cases h

/-- An interval that starts where another ends has the greater values. -/
theorem le_of_rangeAtLeast {p q : UOp} {u v : ℤ} (h : rangeAtLeast p q = true)
    (hp : InBounds (vminVmax p) u) (hq : InBounds (vminVmax q) v) : v ≤ u := by
  unfold rangeAtLeast at h
  split at h
  · next amin amax bmin bmax hamin _ _ hbmax =>
    obtain ⟨lo, -, hlo, -, hle, -⟩ := hp
    obtain ⟨-, hi, -, hhi, -, hge⟩ := hq
    obtain rfl := Option.some.inj (hlo.symm.trans (integerValue_of_constToI128 hamin))
    obtain rfl := Option.some.inj (hhi.symm.trans (integerValue_of_constToI128 hbmax))
    have hends := of_decide_eq_true h
    omega
  · cases h

/-- A shortcut of `smax` picks the larger of the committed operands. -/
theorem maxChoice_spec {p q : UOp} {u v : ℤ} (hp : p.exact env = some u) (hq : q.exact env = some v)
    (hin : (rangeAtLeast p q || rangeAtLeast q p) = true →
      InBounds (vminVmax p) u ∧ InBounds (vminVmax q) v) :
    (maxChoice p q = .lhs → v ≤ u) ∧ (maxChoice p q = .rhs → u ≤ v) := by
  unfold maxChoice
  split
  · next h => exact ⟨fun _ => le_of_containsMaxTerm h hp hq, nofun⟩
  · split
    · next h => exact ⟨nofun, fun _ => le_of_containsMaxTerm h hq hp⟩
    · split
      · next h =>
        have hpq := hin (Bool.or_eq_true_iff.mpr (Or.inl h))
        exact ⟨fun _ => le_of_rangeAtLeast h hpq.1 hpq.2, nofun⟩
      · split
        · next h =>
          have hpq := hin (Bool.or_eq_true_iff.mpr (Or.inr h))
          exact ⟨nofun, fun _ => le_of_rangeAtLeast h hpq.2 hpq.1⟩
        · exact ⟨nofun, nofun⟩

/-- A dimension's dtype reduces no constant to a greater one. -/
theorem commit_le {u : UOp} (hu : u.IsDim) (n : ℕ) : commit u.dtype n ≤ n := by
  obtain ⟨s, hs, hdim⟩ := hu
  obtain ⟨t, ht, hsigned, -, -⟩ := UOp.intType_of_isDim hdim
  unfold commit
  rw [hs, show (DType.scalar s).base = s from rfl, ht]
  show t.wrap n ≤ n
  have hmod : (n : ℤ) % ((2 ^ t.bits : ℕ) : ℤ) ≤ n := by
    rw [← Int.natCast_mod]
    exact Int.ofNat_le.mpr (Nat.mod_le n _)
  unfold IntType.wrap
  rw [if_pos hsigned]
  rw [wrapSigned, Int.bmod_def]
  split
  · exact hmod
  · omega

/-- The operands of a pair: a constant is no less than what it is committed to, beside a partner
    that keeps its value. -/
theorem pairValues_cases (ha : a.Denotes env x) (hb : b.Denotes env y)
    (hsym : ¬ ∃ m n, a = .const m ∧ b = .const n) :
    (a.isConst = true ∧ (pairValues a b x y).1 ≤ x ∧ (pairValues a b x y).2 = y ∨
      a.isConst = false ∧ (pairValues a b x y).1 = x) ∧
    (b.isConst = true ∧ (pairValues a b x y).2 ≤ y ∧ (pairValues a b x y).1 = x ∨
      b.isConst = false ∧ (pairValues a b x y).2 = y) := by
  cases a with
  | infer => exact ha.elim
  | const m =>
    cases b with
    | infer => exact hb.elim
    | const n => exact absurd ⟨m, n, rfl, rfl⟩ hsym
    | symbolic w => exact ⟨Or.inl ⟨rfl, ha.2 ▸ commit_le hb.1 m, rfl⟩, Or.inr ⟨rfl, rfl⟩⟩
  | symbolic u =>
    cases b with
    | infer => exact hb.elim
    | const n => exact ⟨Or.inr ⟨rfl, rfl⟩, Or.inl ⟨rfl, hb.2 ▸ commit_le ha.1 n, rfl⟩⟩
    | symbolic w => exact ⟨Or.inr ⟨rfl, rfl⟩, Or.inr ⟨rfl, rfl⟩⟩

/-- The operand that a shortcut returns, with committed value `u` no less than the other's, `v`. -/
theorem picked_iff {k : Bool} {u v : ℤ} (h : k = true ∧ u ≤ x ∧ v = y ∨ k = false ∧ u = x)
    (hle : v ≤ u) : x = max x y ↔ k = true ∨ max u v = max x y := by
  rcases h with ⟨hk, hux, rfl⟩ | ⟨hk, rfl⟩
  · exact iff_of_true (max_eq_left (hle.trans hux)).symm (Or.inl hk)
  · rw [max_eq_left hle, hk]
    simp only [Bool.false_eq_true, false_or]

theorem smaxPair_iff (ha : a.Denotes env x) (hb : b.Denotes env y)
    (hsym : ¬ ∃ m n, a = .const m ∧ b = .const n) (hin : InIntervals a b x y) :
    (((arithmeticPair a b).bind fun (p, q) =>
      match maxChoice p q with
      | .lhs => some a
      | .rhs => some b
      | .node => (UOp.tryMax p q).map SInt.symbolic).bind (value env) = some (max x y)) ↔
      SmaxPairHolds a b x y := by
  obtain ⟨p, q, hpair, hp, hq, hup⟩ := arithmeticPair_denotes ha hb hsym
  have hspec := maxChoice_spec hp.2 hq.2 (hin p q hpair)
  have hoperands := pairValues_cases ha hb hsym
  unfold SmaxPairHolds
  simp only [hpair, Option.bind_some]
  cases hchoice : maxChoice p q with
  | lhs =>
    simp only [Option.bind_some, ha.value, Option.some.injEq]
    exact picked_iff hoperands.1 (hspec.1 hchoice)
  | rhs =>
    simp only [Option.bind_some, hb.value, Option.some.injEq]
    rw [max_comm x y, max_comm (pairValues a b x y).1]
    exact picked_iff hoperands.2 (hspec.2 hchoice)
  | node =>
    simp only [Option.bind_map]
    show (UOp.tryBinary .max p q).bind (·.exact env) = some (max x y) ↔ _
    rw [tryBinary_iff hp hq _ rfl, hup]
    rfl

theorem smax_iff (ha : a.Denotes env x) (hb : b.Denotes env y) (hin : InIntervals a b x y) :
    (a.smax b).bind (value env) = some (max x y) ↔ SmaxHolds a b x y := by
  have hpair : (¬ ∃ m n, a = .const m ∧ b = .const n) →
      ((if a.same b then some a else
        (arithmeticPair a b).bind fun (p, q) =>
          match maxChoice p q with
          | .lhs => some a
          | .rhs => some b
          | .node => (UOp.tryMax p q).map SInt.symbolic).bind (value env) = some (max x y) ↔
        (a.same b = true ∨ SmaxPairHolds a b x y)) := by
    intro hsym
    by_cases hsame : a.same b = true
    · obtain rfl := ha.unique hb hsame
      simp [hsame, ha.value]
    · rw [if_neg hsame, smaxPair_iff ha hb hsym hin]
      simp [hsame]
  cases a with
  | infer => exact ha.elim
  | const m =>
    cases b with
    | infer => exact hb.elim
    | const n =>
      obtain ⟨-, rfl⟩ := ha
      obtain ⟨-, rfl⟩ := hb
      show some ((max m n : ℕ) : ℤ) = _ ↔ True
      simp
    | symbolic w => exact hpair (by rintro ⟨_, _, -, h⟩; cases h)
  | symbolic u =>
    cases b with
    | infer => exact hb.elim
    | const n => exact hpair (by rintro ⟨_, _, h, -⟩; cases h)
    | symbolic w => exact hpair (by rintro ⟨_, _, h, -⟩; cases h)

def SminHolds (a b : SInt) (x y : ℤ) : Prop :=
  match a, b with
  | .const _, .const _ => True
  | a, b => Keeps min a b x y

theorem sminPair_iff (ha : a.Denotes env x) (hb : b.Denotes env y)
    (hsym : ¬ ∃ m n, a = .const m ∧ b = .const n) :
    (((arithmeticPair a b).bind fun (p, q) => p.neg.bind fun np => q.neg.bind fun nq =>
      (UOp.tryMax np nq).bind fun m => m.neg.bind fun r => some (SInt.symbolic r)).bind
        (value env) = some (min x y)) ↔ Keeps min a b x y := by
  obtain ⟨p, q, hpair, hp, hq, hup⟩ := arithmeticPair_denotes ha hb hsym
  obtain ⟨np, hnp, hnpd, hnpt⟩ := UOp.neg_denotes hp
  obtain ⟨nq, hnq, hnqd, hnqt⟩ := UOp.neg_denotes hq
  simp only [hpair, Option.bind_some, hnp, hnq]
  unfold Keeps
  rw [← hup, ← hnpt, ← hnqt]
  cases hd : np.dtype.leastUpper nq.dtype with
  | none =>
    rw [UOp.tryMax, UOp.tryBinary_none hnpd hnqd hd]
    simp
  | some d =>
    obtain ⟨m, hm, hmd, -⟩ := UOp.tryBinary_denotes hnpd hnqd .max rfl hd
    obtain ⟨r, hr, hrd, -⟩ := UOp.neg_denotes hmd
    rw [UOp.tryMax, hm, Option.bind_some, hr, Option.bind_some, Option.bind_some]
    show r.exact env = _ ↔ _
    rw [hrd.2, Option.some.injEq]
    have hmin : -BinaryOp.max.apply (-(pairValues a b x y).1) (-(pairValues a b x y).2) =
        min (pairValues a b x y).1 (pairValues a b x y).2 := by
      show -max (-_) (-_) = _
      rw [max_neg_neg, neg_neg]
    rw [hmin]
    simp

theorem smin_iff (ha : a.Denotes env x) (hb : b.Denotes env y) :
    (a.smin b).bind (value env) = some (min x y) ↔ SminHolds a b x y := by
  cases a with
  | infer => exact ha.elim
  | const m =>
    cases b with
    | infer => exact hb.elim
    | const n =>
      obtain ⟨-, rfl⟩ := ha
      obtain ⟨-, rfl⟩ := hb
      show some ((min m n : ℕ) : ℤ) = _ ↔ True
      simp
    | symbolic w => exact sminPair_iff ha hb (by rintro ⟨_, _, -, h⟩; cases h)
  | symbolic u =>
    cases b with
    | infer => exact hb.elim
    | const n => exact sminPair_iff ha hb (by rintro ⟨_, _, h, -⟩; cases h)
    | symbolic w => exact sminPair_iff ha hb (by rintro ⟨_, _, h, -⟩; cases h)

/-! ## Rounded-up quotients -/

/-- The quotient rounded up. -/
def ceilQuotient (x y : ℤ) : ℤ := -((-x).fdiv y)

theorem ceilQuotient_eq {x y : ℤ} (hy : 0 < y) : ceilQuotient x y = (x + y - 1).fdiv y := by
  unfold ceilQuotient
  rw [Int.fdiv_eq_ediv_of_nonneg _ hy.le, Int.fdiv_eq_ediv_of_nonneg _ hy.le]
  have h₁ := Int.mul_ediv_add_emod (-x) y
  have h₂ := Int.emod_nonneg (-x) hy.ne'
  have h₃ := Int.emod_lt_of_pos (-x) hy
  have hmul : -(-x / y) * y = -(y * (-x / y)) := by ring
  symm
  rw [Int.ediv_eq_iff_of_pos hy, hmul]
  constructor <;> omega

/-- The sum of the operands has no varying term, so that subtracting one gives a constant. -/
def collapses (a b : SInt) : Bool :=
  match a.add b with
  | some (.symbolic s) => (affineTerms s).2.isEmpty
  | _ => false

/-- The value of `k / b` for a constant `k`. -/
def constQuotient (k : ℕ) (b : SInt) (y : ℤ) : ℤ :=
  match b with
  | .symbolic u => if k = 0 then y else (commit u.dtype k).fdiv y
  | _ => (k : ℤ).fdiv y

def CeildivHolds (a b : SInt) (x y : ℤ) : Prop :=
  match a, b with
  | .const _, .const _ => x + y < 2 ^ 64
  | a, b =>
    promotes a b = true ∧
      if collapses a b then
        ∃ k, asUsize (wrapSigned 128 ((pairValues a b x y).1 + (pairValues a b x y).2 - 1)) =
          some k ∧ constQuotient k b y = ceilQuotient x y
      else (pairValues a b x y).2 ≠ 0 ∧
        ((pairValues a b x y).1 + (pairValues a b x y).2 - 1).fdiv (pairValues a b x y).2 =
          ceilQuotient x y

/-- A node divided by an operand that is not zero. -/
theorem div_node_iff {r : UOp} {z v : ℤ} (hr : r.Denotes env z) (hb : b.Denotes env y)
    (hy : y ≠ 0) : ((SInt.symbolic r).div b).bind (value env) = some v ↔
      (pairValues (.symbolic r) b z y).2 ≠ 0 ∧ promotes (.symbolic r) b = true ∧
        z.fdiv (pairValues (.symbolic r) b z y).2 = v := by
  have hfst : (pairValues (.symbolic r) b z y).1 = z := by cases b <;> rfl
  obtain ⟨p, q, hpair, hp, hq, hup⟩ :=
    arithmeticPair_denotes (a := .symbolic r) hr hb (by rintro ⟨_, _, h, -⟩; cases h)
  have hdiv : (SInt.symbolic r).div b =
      (arithmeticPair (.symbolic r) b).bind fun (p, q) => (UOp.tryDiv p q).map .symbolic := by
    cases b with
    | infer => exact hb.elim
    | symbolic w => rfl
    | const n =>
      cases n with
      | zero => exact absurd hb.2 hy
      | succ n => rfl
  rw [hdiv, hpair, Option.bind_some, Option.bind_map]
  show (UOp.tryDiv p q).bind (·.exact env) = some v ↔ _
  rw [tryDiv_iff hp hq, hup, hfst]

/-- A constant divided by an operand that is not zero. -/
theorem div_const_iff {k : ℕ} {v : ℤ} (hk : k < 2 ^ 64) (hb : b.Denotes env y) (hy : y ≠ 0) :
    ((SInt.const k).div b).bind (value env) = some v ↔ constQuotient k b y = v := by
  cases b with
  | infer => exact hb.elim
  | const n =>
    obtain ⟨-, rfl⟩ := hb
    have hn : n ≠ 0 := fun h => hy (by rw [h]; rfl)
    show ((if n = 0 then none else some (k / n)).map SInt.const).bind (value env) = some v ↔
      (k : ℤ).fdiv n = v
    rw [if_neg hn, Int.fdiv_eq_ediv_of_nonneg _ (by omega), ← Int.natCast_div]
    exact Option.some_inj
  | symbolic u =>
    cases k with
    | zero =>
      show u.exact env = some v ↔ y = v
      rw [hb.2]
      exact Option.some_inj
    | succ k =>
      obtain ⟨p, q, hpair, hp, hq, hup⟩ := arithmeticPair_denotes (a := .const (k + 1))
        (x := ((k + 1 : ℕ) : ℤ)) ⟨hk, rfl⟩ hb (by rintro ⟨_, _, -, h⟩; cases h)
      show ((arithmeticPair (.const (k + 1)) (.symbolic u)).bind fun (p, q) =>
        (UOp.tryDiv p q).map SInt.symbolic).bind (value env) = some v ↔
          (commit u.dtype ((k + 1 : ℕ) : ℤ)).fdiv y = v
      rw [hpair, Option.bind_some, Option.bind_map]
      show (UOp.tryDiv p q).bind (·.exact env) = some v ↔ _
      rw [tryDiv_iff hp hq, hup]
      exact ⟨fun h => h.2.2, fun h => ⟨hy, rfl, h⟩⟩

/-- A constant is its own value in a dimension's dtype when it is one. -/
theorem commit_one {u : UOp} (hu : u.IsDim) : commit u.dtype 1 = 1 := by
  obtain ⟨s, hs, hdim⟩ := hu
  obtain ⟨t, ht, hsigned, hbits, -⟩ := UOp.intType_of_isDim hdim
  unfold commit
  rw [hs, show (DType.scalar s).base = s from rfl, ht]
  apply IntType.wrap_of_contains
  unfold IntType.Contains IntType.min IntType.max
  rw [if_pos hsigned, if_pos hsigned]
  have hpow : (2 : ℤ) ^ 7 ≤ 2 ^ (t.bits - 1) := pow_le_pow_right₀ (by decide) (by omega)
  omega

/-- The sum of two operands, not both constants and neither of them zero, is a node. -/
theorem add_node (ha : a.Denotes env x) (hb : b.Denotes env y) (hx : x ≠ 0) (hy : y ≠ 0)
    (hsym : ¬ ∃ m n, a = .const m ∧ b = .const n) :
    (promotes a b = false ∧ a.add b = none) ∨
    ∃ s, promotes a b = true ∧ a.add b = some (.symbolic s) ∧
      s.Denotes env ((pairValues a b x y).1 + (pairValues a b x y).2) ∧ isAdd s = true ∧
      ∀ z, (pairValues (.symbolic s) b z y).2 = (pairValues a b x y).2 ∧
        promotes (.symbolic s) b = true := by
  obtain ⟨p, q, hpair, hp, hq, hup⟩ := arithmeticPair_denotes ha hb hsym
  have hadd : a.add b =
      (arithmeticPair a b).bind fun (p, q) => (UOp.tryAdd p q).map .symbolic := by
    cases a with
    | infer => exact ha.elim
    | const m =>
      cases b with
      | infer => exact hb.elim
      | const n => exact absurd ⟨m, n, rfl, rfl⟩ hsym
      | symbolic w =>
        cases m with
        | zero => exact absurd ha.2 hx
        | succ m => rfl
    | symbolic u =>
      cases b with
      | infer => exact hb.elim
      | symbolic w => rfl
      | const n =>
        cases n with
        | zero => exact absurd hb.2 hy
        | succ n => rfl
  cases hd : p.dtype.leastUpper q.dtype with
  | none =>
    refine Or.inl ⟨by rw [← hup, hd]; rfl, ?_⟩
    rw [hadd, hpair]
    show (UOp.tryBinary .add p q).map SInt.symbolic = none
    rw [UOp.tryBinary_none hp hq hd]
    rfl
  | some d =>
    obtain ⟨s, hs, hsd, hst⟩ := UOp.tryBinary_denotes hp hq .add rfl hd
    refine Or.inr ⟨s, by rw [← hup, hd]; rfl, ?_, hsd, ?_, ?_⟩
    · rw [hadd, hpair]
      show (UOp.tryBinary .add p q).map SInt.symbolic = _
      rw [hs]
      rfl
    · unfold UOp.tryBinary at hs
      obtain ⟨_, -, rfl⟩ := Option.map_eq_some_iff.mp hs
      rfl
    · -- the dtype of the sum is that of the symbolic operand, or their common one
      intro z
      cases a with
      | infer => exact ha.elim
      | const m =>
        cases b with
        | infer => exact hb.elim
        | const n => exact absurd ⟨m, n, rfl, rfl⟩ hsym
        | symbolic w =>
          obtain ⟨c, hc, -⟩ := @toUop_const env w hb.1 m
          simp only [arithmeticPair, hc, Option.map_some, Option.some.injEq, Prod.mk.injEq] at hpair
          obtain ⟨rfl, rfl⟩ := hpair
          obtain rfl := Option.some.inj ((UOp.leastUpper_self_of_isDim hb.1).symm.trans hd)
          refine ⟨rfl, ?_⟩
          show (s.dtype.leastUpper w.dtype).isSome = true
          rw [hst, UOp.leastUpper_self_of_isDim hb.1]
          rfl
      | symbolic u =>
        cases b with
        | infer => exact hb.elim
        | const n =>
          obtain ⟨c, hc, -⟩ := @toUop_const env u ha.1 n
          simp only [arithmeticPair, hc, Option.map_some, Option.some.injEq, Prod.mk.injEq] at hpair
          obtain ⟨rfl, rfl⟩ := hpair
          obtain rfl := Option.some.inj ((UOp.leastUpper_self_of_isDim ha.1).symm.trans hd)
          refine ⟨?_, rfl⟩
          show commit s.dtype n = commit u.dtype n
          rw [hst]
        | symbolic w =>
          obtain ⟨rfl, rfl⟩ := Prod.mk.inj (Option.some.inj hpair)
          refine ⟨rfl, ?_⟩
          obtain ⟨e, he, hedim⟩ := ha.1
          obtain ⟨e', he', hedim'⟩ := hb.1
          rw [he, he'] at hd
          obtain ⟨v, hv, rfl⟩ := Option.map_eq_some_iff.mp (by exact hd)
          obtain ⟨-, hvup, -⟩ := ScalarDType.leastUpper_isDim hedim hedim' hv
          show (s.dtype.leastUpper w.dtype).isSome = true
          rw [hst, he', DType.leastUpper_scalar, hvup]
          rfl

/-- One less than a node is a constant when the node has no varying term, else a node. -/
theorem sub_one {s : UOp} {z : ℤ} (hs : s.Denotes env z) (hadd : isAdd s = true) :
    if (affineTerms s).2.isEmpty then
      (SInt.symbolic s).sub (.const 1) = (asUsize (wrapSigned 128 (z - 1))).map .const
    else ∃ r, (SInt.symbolic s).sub (.const 1) = some (.symbolic r) ∧ r.Denotes env (z - 1) ∧
      r.dtype = s.dtype := by
  obtain ⟨c, hc, hcd⟩ := @toUop_const env s hs.1 1
  rw [Nat.cast_one, commit_one hs.1] at hcd
  have hsub : (SInt.symbolic s).sub (.const 1) =
      match affineDifference s (.const (.int c) s.dtype) with
      | some diff => (asUsize diff).map SInt.const
      | none => (UOp.trySub s (.const (.int c) s.dtype)).map SInt.symbolic := by
    show ((toUop s.dtype (.const 1)).map (s, ·)).bind (fun (p, q) =>
      match affineDifference p q with
      | some diff => (asUsize diff).map SInt.const
      | none => (UOp.trySub p q).map SInt.symbolic) = _
    rw [hc]
    rfl
  have hterms : (affineTerms s).2.isPerm (affineTerms (.const (.int c) s.dtype)).2 =
      (affineTerms s).2.isEmpty := by
    show (affineTerms s).2.isPerm [] = _
    cases (affineTerms s).2 <;> rfl
  rw [hsub]
  split
  · next hempty =>
    have hdiff : affineDifference s (.const (.int c) s.dtype) =
        some (wrapSigned 128 ((affineTerms s).1 - (affineTerms (.const (.int c) s.dtype)).1)) := by
      unfold affineDifference
      rw [hadd, hterms, hempty]
      rfl
    rw [hdiff, affineDifference_spec hdiff hs.2 hcd.2]
  · next hempty =>
    have hdiff : affineDifference s (.const (.int c) s.dtype) = none := by
      unfold affineDifference
      rw [hadd, hterms, if_neg hempty]
      rfl
    obtain ⟨r, hr, hrd, hrt⟩ := UOp.trySub_denotes hs hcd (UOp.leastUpper_self_of_isDim hs.1)
    refine ⟨r, ?_, hrd, hrt⟩
    rw [hdiff]
    show (UOp.trySub s _).map SInt.symbolic = _
    rw [hr]
    rfl

/-- `ceildiv` of two constants. -/
theorem ceildiv_const_iff {m n : ℕ} (hm : m < 2 ^ 64) (hn : n < 2 ^ 64) (hm0 : 0 < m)
    (hn0 : 0 < n) : ((SInt.const m).ceildiv (.const n)).bind (value env) =
      some (ceilQuotient m n) ↔ (m : ℤ) + n < 2 ^ 64 := by
  have hceil : ceilQuotient m n = (((m + n - 1) / n : ℕ) : ℤ) := by
    rw [ceilQuotient_eq (by omega), Int.fdiv_eq_ediv_of_nonneg _ (by omega), Int.natCast_div]
    congr 1
    omega
  have hvalue : ((SInt.const m).ceildiv (.const n)).bind (value env) =
      if (m + n) % 2 ^ 64 ≥ 1 then some ((((m + n) % 2 ^ 64 - 1) / n : ℕ) : ℤ) else none := by
    show ((if (m + n) % 2 ^ 64 ≥ 1 then some (SInt.const ((m + n) % 2 ^ 64 - 1)) else none).bind
      fun d => d.div (.const n)).bind (value env) = _
    split
    · show ((if n = 0 then none else some (((m + n) % 2 ^ 64 - 1) / n)).map SInt.const).bind
        (value env) = _
      rw [if_neg (by omega)]
      rfl
    · rfl
  rw [hvalue, hceil]
  have hpos : 1 ≤ (m + n - 1) / n := (Nat.one_le_div_iff hn0).mpr (by omega)
  constructor
  · intro h
    by_contra hge
    -- the sum wraps below the divisor, so the quotient is zero
    split at h
    · have hlt : (m + n) % 2 ^ 64 - 1 < n := by omega
      rw [Nat.div_eq_of_lt hlt] at h
      have h0 := Option.some.inj h
      omega
    · cases h
  · intro h
    have hmod : (m + n) % 2 ^ 64 = m + n := by omega
    rw [hmod, if_pos (by omega)]

theorem ceildiv_iff (ha : a.Denotes env x) (hb : b.Denotes env y) (hx : 0 < x) (hy : 0 < y) :
    (a.ceildiv b).bind (value env) = some (ceilQuotient x y) ↔ CeildivHolds a b x y := by
  by_cases hsym : ∃ m n, a = .const m ∧ b = .const n
  · obtain ⟨m, n, rfl, rfl⟩ := hsym
    obtain ⟨hm, rfl⟩ := ha
    obtain ⟨hn, rfl⟩ := hb
    exact ceildiv_const_iff hm hn (by omega) (by omega)
  · have hholds : CeildivHolds a b x y ↔ promotes a b = true ∧
        if collapses a b then
          ∃ k, asUsize (wrapSigned 128 ((pairValues a b x y).1 + (pairValues a b x y).2 - 1)) =
            some k ∧ constQuotient k b y = ceilQuotient x y
        else (pairValues a b x y).2 ≠ 0 ∧
          ((pairValues a b x y).1 + (pairValues a b x y).2 - 1).fdiv (pairValues a b x y).2 =
            ceilQuotient x y := by
      cases a with
      | infer => exact ha.elim
      | symbolic u => rfl
      | const m =>
        cases b with
        | const n => exact absurd ⟨m, n, rfl, rfl⟩ hsym
        | symbolic w | infer => rfl
    rw [hholds]
    rcases add_node ha hb hx.ne' hy.ne' hsym with ⟨hpromotes, hadd⟩ |
      ⟨s, hpromotes, hadd, hs, hisAdd, hpair⟩
    · -- no common dtype: the sum panics
      simp [ceildiv, hadd, hpromotes]
    · have hcollapses : collapses a b = (affineTerms s).2.isEmpty := by
        unfold collapses
        rw [hadd]
      have hceil : (a.ceildiv b).bind (value env) =
          (((SInt.symbolic s).sub (.const 1)).bind (·.div b)).bind (value env) := by
        simp only [ceildiv, hadd, Option.bind_eq_bind, Option.bind_some]
      have hone := sub_one hs hisAdd
      rw [hceil, hpromotes, hcollapses]
      by_cases hempty : (affineTerms s).2.isEmpty = true
      · -- the sum less one is a constant
        rw [if_pos hempty] at hone ⊢
        rw [hone]
        cases hk : asUsize (wrapSigned 128
            ((pairValues a b x y).1 + (pairValues a b x y).2 - 1)) with
        | none => simp
        | some k =>
          have hk64 : k < 2 ^ 64 := by
            unfold asUsize at hk
            split at hk
            · have := Option.some.inj hk
              omega
            · cases hk
          show ((SInt.const k).div b).bind (value env) = _ ↔ _
          rw [div_const_iff hk64 hb hy.ne']
          simp
      · rw [if_neg hempty] at hone ⊢
        obtain ⟨r, hr, hrd, hrt⟩ := hone
        rw [hr]
        show ((SInt.symbolic r).div b).bind (value env) = _ ↔ _
        rw [div_node_iff hrd hb hy.ne']
        -- the difference has the dtype of the sum
        have hr₁ : (pairValues (.symbolic r) b
            ((pairValues a b x y).1 + (pairValues a b x y).2 - 1) y).2 =
            (pairValues (.symbolic s) b
              ((pairValues a b x y).1 + (pairValues a b x y).2 - 1) y).2 := by
          cases b with
          | const n => exact congrArg (commit · n) hrt
          | symbolic w | infer => rfl
        have hr₂ : promotes (.symbolic r) b = promotes (.symbolic s) b := by
          cases b with
          | const n | infer => rfl
          | symbolic w => exact congrArg (fun d : DType => (d.leastUpper w.dtype).isSome) hrt
        rw [hr₁, hr₂, (hpair _).1, (hpair 0).2]
        simp

/-! ## Products of lists -/

/-- The constant factor of a partial product, and its dtype once it is a node. -/
def prodStep (acc : ℤ × Option DType) (v : SInt) : Option (ℤ × Option DType) :=
  match acc.2, v with
  | _, .infer => none
  | none, .const n => some (acc.1 * n % 2 ^ 64, none)
  | none, .symbolic u => some (if acc.1 = 0 then 1 else commit u.dtype acc.1, some u.dtype)
  | some d, .const n => some (if n = 0 then acc.1 else acc.1 * commit d n, some d)
  | some d, .symbolic u => (d.leastUpper u.dtype).map fun d' => (acc.1, some d')

/-- The constant factor that `sint_prod` is left with: constants are committed to the dtype of
    the product so far, and a zero that meets a symbolic factor is dropped. -/
def prodFactor (values : List SInt) : Option (ℤ × Option DType) :=
  values.foldlM prodStep (1, none)

/-- The constant factor of one element. -/
def constFactor : SInt → ℤ
  | .const n => n
  | _ => 1

/-- The product of the constants of a list. -/
def constProduct (values : List SInt) : ℤ := (values.map constFactor).prod

/-- The symbolic factor of one element. -/
def symbolicFactor (env : UOp.Env) : SInt → ℤ
  | .symbolic u => (u.exact env).getD 1
  | _ => 1

/-- The product of the values of the symbolic factors of a list. -/
def symbolicProduct (env : UOp.Env) (values : List SInt) : ℤ :=
  (values.map (symbolicFactor env)).prod

/-- `sint_prod` is exact. -/
def ProdHolds (env : UOp.Env) (values : List SInt) : Prop :=
  ∃ k d, prodFactor values = some (k, d) ∧
    (symbolicProduct env values = 0 ∨ k = constProduct values)

/-- A partial product: a constant, or a node whose value is the constant factor times the
    product `P` of the symbolic factors so far. -/
def IsPartial (env : UOp.Env) (acc : SInt) (k : ℤ) (d : Option DType) (P : ℤ) : Prop :=
  match d with
  | none => P = 1 ∧ ∃ n : ℕ, acc = .const n ∧ n < 2 ^ 64 ∧ k = n
  | some d => ∃ u, acc = .symbolic u ∧ u.Denotes env (k * P) ∧ u.dtype = d

/-- The product of two dimensions. -/
theorem tryMul_node {p q : UOp} (hp : p.Denotes env x) (hq : q.Denotes env y) :
    (UOp.tryMul p q).map SInt.symbolic = none ∧ p.dtype.leastUpper q.dtype = none ∨
    ∃ r d, (UOp.tryMul p q).map SInt.symbolic = some (.symbolic r) ∧ r.Denotes env (x * y) ∧
      r.dtype = d ∧ p.dtype.leastUpper q.dtype = some d := by
  cases hd : p.dtype.leastUpper q.dtype with
  | none =>
    refine Or.inl ⟨?_, rfl⟩
    rw [UOp.tryMul, UOp.tryBinary_none hp hq hd]
    rfl
  | some d =>
    obtain ⟨r, hr, hrd, hrt⟩ := UOp.tryBinary_denotes hp hq .mul rfl hd
    refine Or.inr ⟨r, d, ?_, hrd, hrt, rfl⟩
    rw [UOp.tryMul, hr]
    rfl

/-- One factor: `prodStep` follows `mul`. -/
theorem mul_isPartial {acc v : SInt} {k P : ℤ} {d : Option DType} (h : IsPartial env acc k d P)
    (hv : v.Denotes env x) :
    (acc.mul v = none ∧ prodStep (k, d) v = none) ∨
    ∃ acc' k' d', acc.mul v = some acc' ∧ prodStep (k, d) v = some (k', d') ∧
      IsPartial env acc' k' d' (P * symbolicFactor env v) := by
  cases d with
  | none =>
    obtain ⟨rfl, n, rfl, hn, rfl⟩ := h
    cases v with
    | infer => exact hv.elim
    | const m =>
      refine Or.inr ⟨.const (n * m % 2 ^ 64), _, _, rfl, rfl, rfl, _, rfl, by omega, ?_⟩
      push_cast
      rfl
    | symbolic u =>
      have hfactor : symbolicFactor env (.symbolic u) = x := by
        show (u.exact env).getD 1 = x
        rw [hv.2]
        rfl
      rw [hfactor]
      cases n with
      | zero =>
        refine Or.inr ⟨.symbolic u, 1, some u.dtype, rfl, rfl, u, rfl, ?_, rfl⟩
        rw [one_mul, one_mul]
        exact hv
      | succ n =>
        obtain ⟨c, hc, hcd⟩ := @toUop_const env u hv.1 (n + 1)
        have hmul : (SInt.const (n + 1)).mul (.symbolic u) =
            (UOp.tryMul (.const (.int c) u.dtype) u).map SInt.symbolic := by
          show ((toUop u.dtype (.const (n + 1))).map (·, u)).bind (fun (p, q) =>
            (UOp.tryMul p q).map SInt.symbolic) = _
          rw [hc]
          rfl
        rcases tryMul_node hcd hv with ⟨-, hd⟩ | ⟨r, d, hr, hrd, hrt, hd⟩
        · exact absurd ((UOp.leastUpper_self_of_isDim hv.1).symm.trans hd) nofun
        · obtain rfl := Option.some.inj ((UOp.leastUpper_self_of_isDim hv.1).symm.trans hd)
          have hne : ((n + 1 : ℕ) : ℤ) ≠ 0 := by omega
          refine Or.inr ⟨.symbolic r, commit u.dtype ((n + 1 : ℕ) : ℤ), some u.dtype,
            hmul.trans hr, ?_, r, rfl, ?_, hrt⟩
          · show some (if ((n + 1 : ℕ) : ℤ) = 0 then 1 else _, some u.dtype) = _
            rw [if_neg hne]
          · rw [one_mul]
            exact hrd
  | some d =>
    obtain ⟨u, rfl, hu, rfl⟩ := h
    cases v with
    | infer => exact hv.elim
    | const n =>
      have hfactor : symbolicFactor env (.const n) = 1 := rfl
      rw [hfactor, mul_one]
      cases n with
      | zero => exact Or.inr ⟨.symbolic u, k, some u.dtype, rfl, rfl, u, rfl, hu, rfl⟩
      | succ n =>
        obtain ⟨c, hc, hcd⟩ := @toUop_const env u hu.1 (n + 1)
        have hmul : (SInt.symbolic u).mul (.const (n + 1)) =
            (UOp.tryMul u (.const (.int c) u.dtype)).map SInt.symbolic := by
          show ((toUop u.dtype (.const (n + 1))).map (u, ·)).bind (fun (p, q) =>
            (UOp.tryMul p q).map SInt.symbolic) = _
          rw [hc]
          rfl
        rcases tryMul_node hu hcd with ⟨-, hd⟩ | ⟨r, d, hr, hrd, hrt, hd⟩
        · exact absurd ((UOp.leastUpper_self_of_isDim hu.1).symm.trans hd) nofun
        · obtain rfl := Option.some.inj ((UOp.leastUpper_self_of_isDim hu.1).symm.trans hd)
          refine Or.inr ⟨.symbolic r, k * commit u.dtype ((n + 1 : ℕ) : ℤ), some u.dtype,
            hmul.trans hr, ?_, r, rfl, ?_, hrt⟩
          · show some (if n + 1 = 0 then k else _, some u.dtype) = _
            rw [if_neg (by omega)]
          · rw [show k * commit u.dtype ((n + 1 : ℕ) : ℤ) * P =
              k * P * commit u.dtype ((n + 1 : ℕ) : ℤ) by ring]
            exact hrd
    | symbolic w =>
      have hfactor : symbolicFactor env (.symbolic w) = x := by
        show (w.exact env).getD 1 = x
        rw [hv.2]
        rfl
      rw [hfactor]
      have hmul : (SInt.symbolic u).mul (.symbolic w) =
          (UOp.tryMul u w).map SInt.symbolic := rfl
      rcases tryMul_node hu hv with ⟨hr, hd⟩ | ⟨r, d, hr, hrd, hrt, hd⟩
      · refine Or.inl ⟨hmul.trans hr, ?_⟩
        show (u.dtype.leastUpper w.dtype).map _ = none
        rw [hd]
        rfl
      · refine Or.inr ⟨.symbolic r, k, some d, hmul.trans hr, ?_, r, rfl, ?_, hrt⟩
        · show (u.dtype.leastUpper w.dtype).map _ = _
          rw [hd]
          rfl
        · rw [← mul_assoc]
          exact hrd

/-- A run over the factors. -/
theorem foldlM_mul_isPartial {values : List SInt} (hv : ∀ v ∈ values, ∃ x, v.Denotes env x)
    {acc : SInt} {k P : ℤ} {d : Option DType} (h : IsPartial env acc k d P) :
    (values.foldlM mul acc = none ∧ values.foldlM prodStep (k, d) = none) ∨
    ∃ acc' k' d', values.foldlM mul acc = some acc' ∧
      values.foldlM prodStep (k, d) = some (k', d') ∧
      IsPartial env acc' k' d' (P * (values.map (symbolicFactor env)).prod) := by
  induction values generalizing acc k P d with
  | nil => exact Or.inr ⟨acc, k, d, rfl, rfl, by simpa using h⟩
  | cons v values ih =>
    obtain ⟨x, hx⟩ := hv v List.mem_cons_self
    rcases mul_isPartial h hx with ⟨hmul, hstep⟩ | ⟨acc', k', d', hmul, hstep, h'⟩
    · refine Or.inl ⟨?_, ?_⟩
      · rw [List.foldlM_cons, hmul]
        rfl
      · rw [List.foldlM_cons, hstep]
        rfl
    · rw [List.foldlM_cons, List.foldlM_cons, hmul, hstep, List.map_cons, List.prod_cons,
        ← mul_assoc]
      exact ih (fun w hw => hv w (List.mem_cons_of_mem v hw)) h'

/-- A list's product is that of its constants times that of its symbolic factors. -/
theorem prod_value {values : List SInt} (hv : ∀ v ∈ values, ∃ x, v.Denotes env x) :
    (values.map fun v => (v.value env).getD 0).prod =
      constProduct values * symbolicProduct env values := by
  induction values with
  | nil => rfl
  | cons v values ih =>
    have hrest := ih fun w hw => hv w (List.mem_cons_of_mem v hw)
    obtain ⟨x, hx⟩ := hv v List.mem_cons_self
    unfold constProduct symbolicProduct at hrest ⊢
    simp only [List.map_cons, List.prod_cons, hrest]
    cases v with
    | infer => exact hx.elim
    | const n =>
      simp only [value, Option.getD_some, constFactor, symbolicFactor]
      ring
    | symbolic u =>
      simp only [value, hx.2, Option.getD_some, constFactor, symbolicFactor]
      ring

theorem sintProd_iff {values : List SInt} (hv : ∀ v ∈ values, ∃ x, v.Denotes env x) :
    (sintProd values).bind (value env) = some (values.map fun v => (v.value env).getD 0).prod ↔
      ProdHolds env values := by
  have hstart : IsPartial env (.const 1) 1 none 1 := ⟨rfl, 1, rfl, by decide, rfl⟩
  unfold ProdHolds prodFactor sintProd
  rw [prod_value hv]
  rcases foldlM_mul_isPartial hv hstart with ⟨hmul, hstep⟩ | ⟨acc, k, d, hmul, hstep, h⟩
  · simp [hmul, hstep]
  · rw [one_mul] at h
    have hvalue : acc.value env = some (k * symbolicProduct env values) := by
      cases d with
      | none =>
        obtain ⟨hone, n, rfl, -, rfl⟩ := h
        rw [symbolicProduct, hone, mul_one]
        rfl
      | some d =>
        obtain ⟨u, rfl, hu, -⟩ := h
        exact hu.2
    rw [hmul, Option.bind_some, hvalue, Option.some.injEq, hstep]
    constructor
    · intro heq
      refine ⟨k, d, rfl, ?_⟩
      rcases mul_eq_mul_right_iff.mp heq with hk | h0
      · exact Or.inr hk
      · exact Or.inl h0
    · rintro ⟨k', d', heq, h0⟩
      obtain ⟨rfl, rfl⟩ := Prod.mk.inj (Option.some.inj heq)
      rcases h0 with h0 | hk
      · rw [h0, mul_zero, mul_zero]
      · rw [hk]

/-! ## The homomorphism -/

/-- **Where the arithmetic of symbolic integers is that of integers.**  For all operands with
    values `x` and `y`, each operation evaluates to the operation on the values exactly under
    its condition: products and quotients fail at their zero shortcuts. -/
theorem sint_homomorphism_iff (ha : a.Denotes env x) (hb : b.Denotes env y) :
    ((a.add b).bind (value env) = some (x + y) ↔ AddHolds a b x y) ∧
    ((a.mul b).bind (value env) = some (x * y) ↔ MulHolds a b x y) ∧
    (y ≠ 0 → ((a.div b).bind (value env) = some (x.fdiv y) ↔ DivHolds a b x y)) ∧
    (y ≤ x → ((a.sub b).bind (value env) = some (x - y) ↔ SubHolds a b x y)) ∧
    (InIntervals a b x y →
      ((a.smax b).bind (value env) = some (max x y) ↔ SmaxHolds a b x y)) ∧
    ((a.smin b).bind (value env) = some (min x y) ↔ SminHolds a b x y) ∧
    (0 < x → 0 < y → ((a.ceildiv b).bind (value env) = some (ceilQuotient x y) ↔
      CeildivHolds a b x y)) ∧
    ∀ values : List SInt, (∀ v ∈ values, ∃ z, v.Denotes env z) →
      ((sintProd values).bind (value env) =
        some (values.map fun v => (v.value env).getD 0).prod ↔ ProdHolds env values) :=
  ⟨add_iff ha hb, mul_iff ha hb, div_iff ha hb, sub_iff ha hb, smax_iff ha hb, smin_iff ha hb,
    ceildiv_iff ha hb, fun _ hv => sintProd_iff hv⟩

/-- A batch size between 0 and 16. -/
def batch : SInt := .symbolic (.defineVar "batch" 0 16 (.scalar .weakInt))

theorem batch_denotes (n : ℤ) : batch.Denotes (fun _ => n) n :=
  ⟨⟨.weakInt, rfl, rfl⟩, rfl⟩

theorem sint_homomorphism_batch :
    (batch.add (.const 3)).bind (value fun _ => 4) = some 7 ∧
    (batch.ceildiv (.const 3)).bind (value fun _ => 4) = some 2 ∧
    (sintProd [batch, .const 3, batch]).bind (value fun _ => 4) = some 48 := by
  have hthree : (SInt.const 3).Denotes (fun _ => 4) 3 := ⟨by decide, rfl⟩
  obtain ⟨hadd, -, -, -, -, -, hceildiv, hprod⟩ :=
    sint_homomorphism_iff (batch_denotes 4) hthree
  refine ⟨hadd.mpr ⟨rfl, by decide⟩, ?_, ?_⟩
  · exact (hceildiv (by decide) (by decide)).mpr ⟨rfl, by decide, by decide⟩
  · refine (hprod [batch, .const 3, batch] ?_).mpr ⟨3, _, rfl, Or.inr rfl⟩
    intro v hv
    simp only [List.mem_cons, List.not_mem_nil, or_false] at hv
    rcases hv with rfl | rfl | rfl
    · exact ⟨4, batch_denotes 4⟩
    · exact ⟨3, hthree⟩
    · exact ⟨4, batch_denotes 4⟩

/-- A product with zero is the other factor, zero divided by a dimension is the dimension, and
    an empty shape has elements. -/
theorem sint_homomorphism_fails :
    (batch.mul (.const 0)).bind (value fun _ => 4) = some 4 ∧
    ((SInt.const 0).mul batch).bind (value fun _ => 4) = some 4 ∧
    ((SInt.const 0).div batch).bind (value fun _ => 4) = some 4 ∧
    (sintProd [batch, .const 0]).bind (value fun _ => 4) = some 4 ∧
    ¬ ∀ (env : UOp.Env) (a b : SInt) (x y : ℤ), (∀ e, 0 ≤ env e) → a.Denotes env x →
      b.Denotes env y → (a.mul b).bind (value env) = some (x * y) := by
  refine ⟨by decide, by decide, by decide, by decide, ?_⟩
  intro h
  have hmul := h (fun _ => 4) batch (.const 0) 4 0 (fun _ => by decide) (batch_denotes 4)
    ⟨by decide, rfl⟩
  exact absurd hmul (by decide)

end SInt

end Svod.Ir
