/-
  Svod.Symbolic.RecombineSound

  Recombination keeps the value.

  The partner of a remainder `base % div` is `base // div + k` for a constant
  `k`, also when the quotient was merged with an inner one.  Both forms of the
  fold are then facts about floor division at the number `base + k * div`.  The
  fold writes the constants `k * div` and `div * d` at the type of the sum,
  which reduces them: this does no harm to a full recombination, and to a
  partial one when the wider modulus does not notice the reduction.
-/

import Mathlib.Data.List.Sigma
import Svod.Symbolic.FactorSound
import Svod.Symbolic.Recombine

namespace Svod.Symbolic

open Svod.Ir Svod.Lib Svod.Symbolic.Expr

variable {mixed : ArithOp → Expr → Expr → Option Expr} {s : ScalarDType} {t : IntType}
  {ρ : Assignment}

/-! ## Constants -/

theorem checkedI128_eq_some {x y : ℤ} (h : RangeEval.checkedI128 x = some y) : y = x := by
  unfold RangeEval.checkedI128 at h
  split at h
  · exact (Option.some.inj h).symm
  · cases h

/-- The numbers that `i64::try_from` accepts. -/
def FitsI64 (x : ℤ) : Prop := -2 ^ 63 ≤ x ∧ x < 2 ^ 63

theorem checkedI64_eq_some {x y : ℤ} (h : RangeEval.checkedI64 x = some y) :
    y = x ∧ FitsI64 x := by
  unfold RangeEval.checkedI64 at h
  split at h
  · next hx => exact ⟨(Option.some.inj h).symm, hx⟩
  · cases h

/-- A constant that is committed to an integer type is reduced to it. -/
theorem constOfType_reduced (ht : intType s = some t) (hs : s ≠ .bool) (v : ℤ) :
    (constOfType s v).value ρ = t.wrap v := by
  have hcast : castTo s t v = t.wrap v := if_neg hs
  have hty : HasType s (constOf t (t.wrap v)) (t.wrap v) := by
    rw [← hcast]
    exact ⟨t, ht, castTo_contains ht v, rfl⟩
  show (committed s v).integerValue.getD 0 = t.wrap v
  rw [committed, ht]
  show (constOf t (castTo s t v)).integerValue.getD 0 = t.wrap v
  rw [hcast, hty.integerValue, Option.getD_some]

theorem constLike_agree (ht : intType s = some t) (hs : s ≠ .bool) {e : Expr} (he : e.Typed s)
    (v : ℤ) : Agree t ((e.constLike v).value ρ) v := by
  rw [constLike_eq he, constOfType_reduced ht hs]
  exact wrap_agree v

theorem operandInt_value {e : Expr} {v : ℤ} (h : e.operandInt = some v) : e.value ρ = v := by
  cases e with
  | const c =>
    change integerValue c.value = some v at h
    show c.value.integerValue.getD 0 = v
    cases hc : c.value <;> rw [hc] at h <;> simp_all [integerValue, ConstValue.integerValue]
  | leaf l => cases h
  | neg src => cases h
  | binary op a b d => cases h

/-- What `pop_const` takes from a sum. -/
theorem popConst_add_value {e a : Expr} {c : ConstValue} {k : ℤ} (h : e.popConst .add = (a, c))
    (hk : integerValue c = some k) : e.value ρ = a.value ρ + k := by
  have hsame : (e, identityElement .add e.dtype) = (a, c) → e.value ρ = a.value ρ + k := by
    intro hp
    obtain ⟨rfl, rfl⟩ := Prod.mk.inj hp
    unfold identityElement at hk
    split at hk
    · cases hk
    · obtain rfl : (0 : ℤ) = k := Option.some.inj hk
      exact (Int.add_zero _).symm
  unfold popConst at h
  split at h
  · next op x c' d =>
    split at h
    · next hop =>
      subst hop
      obtain ⟨rfl, rfl⟩ := Prod.mk.inj h
      rw [value_add, operandInt_value (e := const c') hk]
    · exact hsame h
  · exact hsame h

/-- What `pop_const` takes from a product. -/
theorem popConst_mul_value {e a : Expr} {c : ConstValue} {k : ℤ} (h : e.popConst .mul = (a, c))
    (hk : integerValue c = some k) : e.value ρ = a.value ρ * k := by
  have hsame : (e, identityElement .mul e.dtype) = (a, c) → e.value ρ = a.value ρ * k := by
    intro hp
    obtain ⟨rfl, rfl⟩ := Prod.mk.inj hp
    unfold identityElement at hk
    split at hk
    · cases hk
    · obtain rfl : (1 : ℤ) = k := Option.some.inj hk
      exact (Int.mul_one _).symm
  unfold popConst at h
  split at h
  · next op x c' d =>
    split at h
    · next hop =>
      subst hop
      obtain ⟨rfl, rfl⟩ := Prod.mk.inj h
      rw [value_mul, operandInt_value (e := const c') hk]
    · exact hsame h
  · exact hsame h

theorem popConst_typed {op : ArithOp} {e : Expr} (he : e.Typed s) : (e.popConst op).1.Typed s := by
  unfold popConst
  split
  · split
    · exact he.1
    · exact he
  · exact he

/-! ## The quotient of the same base -/

/-- A merged quotient divides by `c * div` what an inner one divides by `c`. -/
theorem mergedQuotient_some {num n : Expr} {a div qDiv a' d : ℤ}
    (h : mergedQuotient num a div qDiv = some (some (n, a', d))) :
    0 < div ∧ ∃ c, d = c * div ∧ d = qDiv ∧ a' = a * c ∧
      ∀ ρ, num.value ρ = (n.value ρ).fdiv c := by
  unfold mergedQuotient at h
  split at h
  · next nNum nDiv dt =>
    split at h
    · next hdiv =>
      split at h
      · next c hc =>
        split at h
        · next hqd =>
          obtain ⟨ac, hac, hp⟩ := Option.map_eq_some_iff.mp h
          simp only [Option.some.injEq, Prod.mk.injEq] at hp
          obtain ⟨rfl, rfl, rfl⟩ := hp
          refine ⟨hdiv, c, (checkedI128_eq_some hqd), rfl, checkedI128_eq_some hac, fun ρ => ?_⟩
          rw [value_floorDiv, operandInt_value hc]
        · cases h
      · cases h
    · cases h
  · cases h

theorem quotientNumerator_spec {num base n : Expr} {a div qDiv a' d : ℤ}
    (h : quotientNumerator num a div qDiv = some (n, a', d))
    (hbase : ∀ ρ, base.value ρ = num.value ρ + a) :
    div ≠ 0 ∧ d = qDiv ∧
      (d ≠ 0 → ∀ ρ, (n.value ρ + a').fdiv d = (base.value ρ).fdiv div) := by
  unfold quotientNumerator at h
  split at h
  · cases h
  · next hmerged =>
    simp only [Option.some.injEq] at h
    subst h
    obtain ⟨hdiv, c, rfl, hqd, rfl, hnum⟩ := mergedQuotient_some hmerged
    refine ⟨hdiv.ne', hqd, fun hd ρ => ?_⟩
    have hc : c ≠ 0 := fun hc => hd (by rw [hc, Int.zero_mul])
    -- the inner division first, then the outer one
    rw [hbase, hnum, ← fdiv_fdiv hdiv.le, Int.add_mul_fdiv_right _ _ hc]
  · split at h
    · next hqd =>
      simp only [Option.some.injEq, Prod.mk.injEq] at h
      obtain ⟨rfl, rfl, rfl⟩ := h
      exact ⟨hqd.2, hqd.1.symm, fun _ ρ => by rw [hbase]⟩
    · cases h

/-- Numerators that differ by a multiple of the divisor. -/
theorem fdiv_of_tmod_eq_zero {x p t d : ℤ} (hd : d ≠ 0) (ht : t.tmod d = 0) (hx : x - p = t) :
    p.fdiv d = x.fdiv d - t.tdiv d := by
  have hmul : t = t.tdiv d * d := by
    have := Int.tmod_add_mul_tdiv t d
    rw [ht, Int.zero_add, Int.mul_comm] at this
    exact this.symm
  have hshift : x = p + t.tdiv d * d := by omega
  rw [fdiv_of_eq_add_mul hd hshift]
  omega

theorem quotientShift_spec {qNum num : Expr} {s a d k : ℤ}
    (h : quotientShift qNum num s a d = some k) :
    d ≠ 0 ∧ ∀ ρ, (qNum.value ρ).fdiv d + s = (num.value ρ + a).fdiv d - k := by
  unfold quotientShift at h
  generalize hx : num.popConst .add = xp at h
  generalize hp : qNum.popConst .add = pp at h
  obtain ⟨x, cxa⟩ := xp
  obtain ⟨p, cpa⟩ := pp
  dsimp only at h
  split at h
  · cases h
  · next hsame =>
    simp only [ne_eq, Decidable.not_not] at hsame
    subst hsame
    simp only [bind_eq_some] at h
    obtain ⟨xa, hxa, sum, hsum, pa, hpa, t, ht, h⟩ := h
    obtain rfl := checkedI128_eq_some hsum
    obtain rfl := checkedI128_eq_some ht
    split at h
    · cases h
    · next hdt =>
      simp only [not_or, ne_eq, Decidable.not_not] at hdt
      obtain rfl := checkedI128_eq_some h
      refine ⟨hdt.1, fun ρ => ?_⟩
      rw [popConst_add_value hp hpa, popConst_add_value hx hxa]
      have := fdiv_of_tmod_eq_zero (x := p.value ρ + xa + a) hdt.1 hdt.2
        (p := p.value ρ + pa) (by omega)
      omega

/-- `quotient_base` finds a constant `k` with `q = base // div + k`, and gives `base + k * div`. -/
theorem quotientBase_spec {q base b : Expr} {div : ℤ} (h : quotientBase mixed q base div = some b) :
    div ≠ 0 ∧ ∃ k : ℤ, (∀ ρ, q.value ρ = (base.value ρ).fdiv div + k) ∧ FitsI64 (k * div) ∧
      (k = 0 ∧ b = base ∨ tryAdd mixed base (base.constLike (k * div)) = some b) := by
  unfold quotientBase at h
  simp only [Option.bind_eq_bind, Option.bind_eq_some_iff] at h
  obtain ⟨s, hs, a, ha, h⟩ := h
  generalize hq : q.popConst .add = qp at h hs
  obtain ⟨q₀, cs⟩ := qp
  dsimp only at h hs
  split at h
  · next qNum qDivisor dt =>
    simp only [Option.bind_eq_some_iff] at h
    obtain ⟨qDiv, hqDiv, ⟨n, a', d⟩, hnum, k, hk, h⟩ := h
    obtain ⟨hdiv, rfl, hbase⟩ := quotientNumerator_spec hnum fun ρ => popConst_add_value rfl ha
    obtain ⟨hd, hshift⟩ := quotientShift_spec hk
    refine ⟨hdiv, -k, fun ρ => ?_, ?_⟩
    · -- both quotients are of the numerator by the divisor `d`
      have hqv : q.value ρ = (qNum.value ρ).fdiv d + s := by
        rw [popConst_add_value hq hs, value_floorDiv, operandInt_value hqDiv]
      rw [hqv, hshift, hbase hd, Int.sub_eq_add_neg]
    · split at h
      · next hk0 =>
        rw [hk0, Int.neg_zero, Int.zero_mul]
        exact ⟨⟨by decide, by decide⟩, Or.inl ⟨rfl, (Option.some.inj h).symm⟩⟩
      · simp only [Option.bind_eq_some_iff] at h
        obtain ⟨kd, hkd, offset, hoffset, h⟩ := h
        obtain ⟨rfl, hfits⟩ := checkedI64_eq_some hoffset
        rw [checkedI128_eq_some hkd, ← Int.neg_mul] at h hfits
        exact ⟨hfits, Or.inr h⟩
  · cases h

/-! ## Sums -/

theorem addAll_spec {sum e : Expr} {rest : List Expr} (hs : sum.Typed s)
    (hrest : ∀ u ∈ rest, u.Typed s) (h : addAll mixed sum rest = some e) :
    e.Typed s ∧ (Accepted s e → Accepted s sum) ∧
      ∀ ρ, e.value ρ = sum.value ρ + (rest.map fun u => u.value ρ).sum := by
  induction rest generalizing sum with
  | nil =>
    obtain rfl := Option.some.inj h
    exact ⟨hs, fun he => he, fun ρ => by rw [List.map_nil, List.sum_nil, Int.add_zero]⟩
  | cons term rest ih =>
    obtain ⟨next, hnext, h⟩ := Option.bind_eq_some_iff.mp h
    obtain ⟨rfl, hty⟩ := tryAdd_typed hs (hrest term List.mem_cons_self) hnext
    obtain ⟨he, hacc, hval⟩ := ih hty (fun u hu => hrest u (List.mem_cons_of_mem term hu)) h
    refine ⟨he, fun hr => (hacc hr).lhs, fun ρ => ?_⟩
    rw [hval, value_add, List.map_cons, List.sum_cons, Int.add_assoc]

/-- A scaled sum, up to the reduction of its factor. -/
theorem scaledUsum_spec (ht : intType s = some t) (hs : s ≠ .bool) {b r : Expr} {mul : ℤ}
    {rest : List Expr} (hb : b.Typed s) (hrest : ∀ u ∈ rest, u.Typed s)
    (h : scaledUsum mixed b mul rest = some r) :
    (Accepted s r → Accepted s b) ∧
      ∀ ρ, Agree t (r.value ρ) (b.value ρ * mul + (rest.map fun u => u.value ρ).sum) := by
  unfold scaledUsum at h
  split at h
  · next hmul =>
    obtain ⟨-, hacc, hval⟩ := addAll_spec hb hrest h
    refine ⟨hacc, fun ρ => ?_⟩
    rw [hval, hmul, Int.mul_one]
    exact Agree.refl _
  · simp only [bind_eq_some] at h
    obtain ⟨m, hm, scaled, hscaled, h⟩ := h
    obtain ⟨rfl, -⟩ := checkedI64_eq_some hm
    obtain ⟨rfl, hty⟩ := tryMul_typed hb (constLike_typed hb m) hscaled
    obtain ⟨-, hacc, hval⟩ := addAll_spec hty hrest h
    refine ⟨fun hr => (hacc hr).lhs, fun ρ => ?_⟩
    rw [hval, value_mul]
    exact ((Agree.refl _).mul (constLike_agree ht hs hb m)).add (Agree.refl _)

/-- Two terms of a sum and the others. -/
theorem perm_otherTerms {terms : List Expr} {u v : Expr} {i j : ℕ} (hu : (u, i) ∈ terms.zipIdx)
    (hv : (v, j) ∈ terms.zipIdx) (hij : i ≠ j) : terms.Perm (u :: v :: otherTerms terms i j) := by
  have hsnd : (terms.zipIdx.map Prod.snd).Nodup := List.nodup_zipIdx_map_snd terms
  have hnodup : terms.zipIdx.Nodup := hsnd.of_map _
  have hv' : (v, j) ∈ terms.zipIdx.erase (u, i) :=
    hnodup.mem_erase_iff.mpr ⟨fun h => hij (congrArg Prod.snd h).symm, hv⟩
  have hperm : terms.zipIdx.Perm
      ((u, i) :: (v, j) :: (terms.zipIdx.erase (u, i)).erase (v, j)) :=
    (List.perm_cons_erase hu).trans ((List.perm_cons_erase hv').cons _)
  -- an index belongs to one term
  have hindex : ∀ e ∈ terms.zipIdx, ∀ e' ∈ terms.zipIdx, e.2 = e'.2 → e = e' :=
    fun e he e' he' h => List.inj_on_of_nodup_map hsnd he he' h
  have hothers : (terms.zipIdx.erase (u, i)).erase (v, j) =
      terms.zipIdx.filter fun e => e.2 ≠ i && e.2 ≠ j := by
    rw [(hnodup.erase _).erase_eq_filter, hnodup.erase_eq_filter, List.filter_filter]
    refine List.filter_congr fun e he => ?_
    have h₁ : e ≠ (u, i) ↔ e.2 ≠ i := not_congr ⟨fun h => by rw [h], hindex e he _ hu⟩
    have h₂ : e ≠ (v, j) ↔ e.2 ≠ j := not_congr ⟨fun h => by rw [h], hindex e he _ hv⟩
    rw [Bool.eq_iff_iff]
    simp only [Bool.and_eq_true, bne_iff_ne, decide_eq_true_eq, h₁, h₂]
    exact and_comm
  have hmap := hperm.map Prod.fst
  rw [List.zipIdx_map_fst, hothers] at hmap
  exact hmap

/-- The value of a sum, two of its terms apart. -/
theorem value_of_terms {x u v : Expr} {i j : ℕ} (hu : (u, i) ∈ (x.splitUop .add).zipIdx)
    (hv : (v, j) ∈ (x.splitUop .add).zipIdx) (hij : i ≠ j) :
    x.value ρ = u.value ρ + v.value ρ +
      ((otherTerms (x.splitUop .add) i j).map fun w => w.value ρ).sum := by
  have hsum := ((perm_otherTerms hu hv hij).map fun w => w.value ρ).sum_eq
  rw [splitUop_add_value, List.map_cons, List.map_cons, List.sum_cons, List.sum_cons] at hsum
  rw [hsum, Int.add_assoc]

/-! ## The fold -/

/-- `u` is `(base % div) * mul` and `v` is `q * (div * mul)`. -/
structure Partners (u v base q : Expr) (div mul : ℤ) : Prop where
  remainder : ∃ n dt c, u.popConst .mul = (binary .floorMod base n dt, c) ∧
    integerValue c = some mul ∧ n.operandInt = some div
  quotient : ∃ c, v.popConst .mul = (q, c) ∧ integerValue c = some (div * mul)

theorem Partners.value {x base q : Expr} {u v : Expr × ℕ} {div mul : ℤ}
    (h : Partners u.1 v.1 base q div mul) (hu : u ∈ (x.splitUop .add).zipIdx)
    (hv : v ∈ (x.splitUop .add).zipIdx) (huv : u.2 ≠ v.2) :
    x.value ρ = ((base.value ρ).fmod div + q.value ρ * div) * mul +
      ((otherTerms (x.splitUop .add) u.2 v.2).map fun w => w.value ρ).sum := by
  obtain ⟨n, dt, c, hmod, hc, hn⟩ := h.remainder
  obtain ⟨c', hq, hc'⟩ := h.quotient
  rw [value_of_terms hu hv huv, popConst_mul_value hmod hc, popConst_mul_value hq hc',
    value_floorMod, operandInt_value hn]
  ring

/-- The two loops return at this pair of terms. -/
def returnsAt (mixed : ArithOp → Expr → Expr → Option Expr) (x : Expr) (u v : Expr × ℕ) : Bool :=
  (recombinePair mixed x (x.splitUop .add) u v).isSome

/-- The first pair of terms at which the two loops return. -/
def firstPair (mixed : ArithOp → Expr → Expr → Option Expr) (x : Expr) :
    Option ((Expr × ℕ) × (Expr × ℕ)) := do
  let terms := (x.splitUop .add).zipIdx
  let u ← terms.find? fun u => terms.any (returnsAt mixed x u)
  let v ← terms.find? (returnsAt mixed x u)
  some (u, v)

/-- The first element on which a search succeeds. -/
theorem find?_of_findSome? {α β : Type} {f : α → Option β} {l : List α} {b : β}
    (h : l.findSome? f = some b) :
    ∃ a, a ∈ l ∧ f a = some b ∧ l.find? (fun a => (f a).isSome) = some a := by
  induction l with
  | nil => cases h
  | cons a l ih =>
    rw [List.findSome?_cons] at h
    split at h
    · next b' hb' =>
      cases h
      exact ⟨a, List.mem_cons_self, hb', by rw [List.find?_cons, hb']; rfl⟩
    · next hnone =>
      obtain ⟨a', hmem, ha', hfind⟩ := ih h
      exact ⟨a', List.mem_cons_of_mem a hmem, ha', by rw [List.find?_cons, hnone]; exact hfind⟩

theorem foldAddDivmodRecombine_firstPair {x r : Expr}
    (h : foldAddDivmodRecombine mixed x = some r) : ∃ u v, firstPair mixed x = some (u, v) ∧
      u ∈ (x.splitUop .add).zipIdx ∧ v ∈ (x.splitUop .add).zipIdx ∧
      recombinePair mixed x (x.splitUop .add) u v = some (some r) := by
  unfold foldAddDivmodRecombine at h
  rw [Option.join_eq_some_iff] at h
  obtain ⟨u, hu, hin, hfind⟩ := find?_of_findSome? h
  obtain ⟨v, hv, hpair, hfind'⟩ := find?_of_findSome? hin
  refine ⟨u, v, ?_, hu, hv, hpair⟩
  have hany : ∀ u, (x.splitUop .add).zipIdx.any (returnsAt mixed x u) =
      ((x.splitUop .add).zipIdx.findSome?
        fun v => recombinePair mixed x (x.splitUop .add) u v).isSome :=
    fun u => List.isSome_findSome?.symm
  simp only [firstPair, hany, Option.bind_eq_bind]
  rw [hfind, Option.bind_some]
  exact congrArg (Option.bind · _) hfind'

/-- What a fold is made of: the partners it found and the sum it built. -/
theorem foldAddDivmodRecombine_cases {x r : Expr}
    (h : foldAddDivmodRecombine mixed x = some r) :
    exactIntegerRewrite x r = some r ∧ ∃ u v base q div mul e, firstPair mixed x = some (u, v) ∧
      u ∈ (x.splitUop .add).zipIdx ∧ v ∈ (x.splitUop .add).zipIdx ∧ u.2 ≠ v.2 ∧
      Partners u.1 v.1 base q div mul ∧
      scaledUsum mixed e mul (otherTerms (x.splitUop .add) u.2 v.2) = some r ∧
      (quotientBase mixed q base div = some e ∨
        ∃ src n dt d b, q = binary .floorMod src n dt ∧ n.operandInt = some d ∧ 0 < d ∧
          FitsI64 (div * d) ∧ quotientBase mixed src base div = some b ∧
          tryMod mixed b (b.constLike (div * d)) = some e) := by
  have hexact : ∀ {r' : Expr}, exactIntegerRewrite x r' = some r →
      r' = r ∧ exactIntegerRewrite x r = some r := by
    intro r' hr
    have heq : r' = r := (exactIntegerRewrite_eq hr).symm
    exact ⟨heq, heq ▸ hr⟩
  obtain ⟨⟨u, i⟩, ⟨v, j⟩, hfirst, hu, hv, h⟩ := foldAddDivmodRecombine_firstPair h
  unfold recombinePair at h
  generalize hm : u.popConst .mul = mp at h
  generalize hq : v.popConst .mul = qp at h
  obtain ⟨m, c⟩ := mp
  obtain ⟨q, c'⟩ := qp
  dsimp only at h
  split at h
  · next mul base modDiv dt hmul =>
    split at h
    · cases h
    · next div hdiv =>
      split at h
      · cases h
      · next want hwant =>
        obtain rfl := checkedI128_eq_some hwant
        split at h
        · cases h
        · next hpair =>
          simp only [not_or, ne_eq, Decidable.not_not] at hpair
          have hpartners : Partners u v base q div mul :=
            ⟨⟨modDiv, dt, c, hm, hmul, hdiv⟩, ⟨c', hq, hpair.2⟩⟩
          split at h
          · next b hb =>
            -- the quotient itself
            simp only [Option.some.injEq, Option.bind_eq_some_iff] at h
            obtain ⟨r', hr', hr⟩ := h
            obtain ⟨rfl, hr⟩ := hexact hr
            exact ⟨hr, _, _, base, q, div, mul, b, hfirst, hu, hv, hpair.1, hpartners, hr',
              Or.inl hb⟩
          · split at h
            · next qSrc qDiv dt' _ =>
              split at h
              · cases h
              · next d hd =>
                split at h
                · next hpos =>
                  -- the quotient modulo `d`
                  simp only [Option.map_eq_some_iff, bind_eq_some] at h
                  obtain ⟨b, hb, w, hw, w', hw', wider, hwider, r', hr', hr⟩ := h
                  obtain rfl := checkedI128_eq_some hw
                  obtain ⟨rfl, hwide⟩ := checkedI64_eq_some hw'
                  obtain ⟨rfl, hr⟩ := hexact hr
                  exact ⟨hr, _, _, base, _, div, mul, wider, hfirst, hu, hv, hpair.1, hpartners,
                    hr', Or.inr ⟨qSrc, qDiv, dt', d, b, rfl, hd, hpos, hwide, hb, hwider⟩⟩
                · cases h
            · cases h
  · cases h

/-- `u` and `v` are partners of a partial recombination: `(base % div) * mul` and
    `(src % d) * (div * mul)`, where `src` is `base // div + k`; the constants of the
    recombination are `i64` numbers. -/
structure PartialPartners (u v base : Expr) (div d k : ℤ) : Prop where
  partners : ∃ src n dt mul, Partners u v base (binary .floorMod src n dt) div mul ∧
    n.operandInt = some d ∧ 0 < d ∧ ∀ ρ, src.value ρ = (base.value ρ).fdiv div + k
  wide : FitsI64 (div * d)
  shift : FitsI64 (k * div)

/-- Where the first pair that recombines does so in part, the wider modulus `div * d` is a number
    of the type.  So is the constant `k * div` or the dividend `base + k * div`, unless the modulus
    divides the size of the type. -/
def WidePartnersFit (mixed : ArithOp → Expr → Expr → Option Expr) (x : Expr) : Prop :=
  ∀ u v t base div d k, firstPair mixed x = some (u, v) → intType x.dtype = some t →
    PartialPartners u.1 v.1 base div d k →
    t.Contains (div * d) ∧
      (div * d ∣ modulus t ∨ t.Contains (k * div) ∨
        ∀ ρ : Assignment, t.Contains (base.value ρ + k * div))

/-- A signed type of 64 bits holds every constant that the fold writes. -/
theorem widePartnersFit_of_64 {x : Expr} (h : x.dtype ∈ [.int64, .weakInt, .index]) :
    WidePartnersFit mixed x := by
  intro u v t base div d k _ ht hp
  have hfits : ∀ v, FitsI64 v → t.Contains v := by
    intro v hv
    have hsigned : t.signed = true ∧ t.bits = 64 := by
      simp only [List.mem_cons, List.not_mem_nil, or_false] at h
      rcases h with h | h | h <;> rw [h] at ht <;> obtain rfl := Option.some.inj ht <;>
        exact ⟨rfl, rfl⟩
    unfold IntType.Contains IntType.min IntType.max
    rw [hsigned.1, hsigned.2]
    exact ⟨hv.1, Int.le_sub_one_of_lt hv.2⟩
  exact ⟨hfits _ hp.wide, Or.inr (Or.inl (hfits _ hp.shift))⟩

theorem Partners.base_typed {u v base q : Expr} {div mul : ℤ} (h : Partners u v base q div mul)
    (hu : u.Typed s) : base.Typed s := by
  obtain ⟨n, dt, c, hmod, -, -⟩ := h.remainder
  have hty : (u.popConst .mul).1.Typed s := popConst_typed hu
  rw [hmod] at hty
  exact hty.1

/-- The base that `quotient_base` builds, up to the reduction of its constant. -/
theorem quotientBase_agree (ht : intType s = some t) (hs : s ≠ .bool) {base b : Expr} {div k : ℤ}
    (hbase : base.Typed s)
    (h : k = 0 ∧ b = base ∨ tryAdd mixed base (base.constLike (k * div)) = some b) :
    b.Typed s ∧ (∀ ρ, Agree t (b.value ρ) (base.value ρ + k * div)) ∧
      (t.Contains (k * div) → ∀ ρ, b.value ρ = base.value ρ + k * div) := by
  rcases h with ⟨rfl, rfl⟩ | h
  · rw [Int.zero_mul]
    exact ⟨hbase, fun ρ => by rw [Int.add_zero]; exact Agree.refl _,
      fun _ ρ => (Int.add_zero _).symm⟩
  · obtain ⟨rfl, hty⟩ := tryAdd_typed hbase (constLike_typed hbase _) h
    refine ⟨hty, fun ρ => ?_, fun hfits ρ => ?_⟩
    · rw [value_add]
      exact (Agree.refl _).add (constLike_agree ht hs hbase _)
    · rw [value_add, constLike_eq hbase, constOfType_reduced ht hs,
        IntType.wrap_of_contains hfits]

/-- The quotient modulo `d` and the remainder make up the remainder by `div * d`. -/
theorem partial_recombine {base div d k : ℤ} (hdiv : div ≠ 0) (hd : 0 < d) :
    base.fmod div + (base.fdiv div + k).fmod d * div = (base + k * div).fmod (div * d) := by
  rw [fmod_mul_split hd, fdiv_of_eq_add_mul hdiv rfl, fmod_of_eq_add_mul (k := k) rfl]
  exact Int.add_comm _ _

/-- Recombination keeps the value, where the wider modulus and its dividend fit the type; they do
    in a signed type of 64 bits. -/
theorem foldAddDivmodRecombine_value (mixed : ArithOp → Expr → Expr → Option Expr)
    (ρ : Assignment) (x r : Expr) (hfold : foldAddDivmodRecombine mixed x = some r)
    (hfit : x.dtype ∈ [.int64, .weakInt, .index] ∨ WidePartnersFit mixed x) :
    r.machineValue ρ = x.machineValue ρ := by
  obtain ⟨hexact, u, v, base, q, div, mul, e, hfirst, hu, hv, huv, hpartners, hscaled, he⟩ :=
    foldAddDivmodRecombine_cases hfold
  have hfit : WidePartnersFit mixed x := hfit.elim widePartnersFit_of_64 id
  -- the no-wrap proof makes one type of both trees
  obtain ⟨s, t, ht, hs, hx, hr, hdtype⟩ := exactIntegerRewrite_accepted hexact
  have hterm : ∀ w ∈ (x.splitUop .add).zipIdx, w.1.Typed s := fun w hw =>
    splitUop_typed hx.typed w.1 (List.mem_of_getElem? (List.mem_zipIdx_iff_getElem?.mp hw))
  have hrest : ∀ w ∈ otherTerms (x.splitUop .add) u.2 v.2, w.Typed s := by
    intro w hw
    obtain ⟨w', hw', rfl⟩ := List.mem_map.mp hw
    exact hterm w' (List.mem_filter.mp hw').1
  have hbase := hpartners.base_typed (hterm u hu)
  rw [accepted_machineValue ht hs hr, accepted_machineValue ht hs hx]
  refine Agree.eq (t := t) ?_ (accepted_exact ht hs hr).fits (accepted_exact ht hs hx).fits
  rw [hpartners.value hu hv huv]
  rcases he with hq | ⟨src, n, dt, d, b, rfl, hn, hd, hwide64, hq, hmod⟩
  · obtain ⟨hdiv, k, hk, hshift64, hb⟩ := quotientBase_spec hq
    obtain ⟨hty, hagree, -⟩ := quotientBase_agree ht hs hbase hb
    have hsum := (scaledUsum_spec ht hs hty hrest hscaled).2 ρ
    -- the quotient and the remainder make up `base + k * div`
    have hwhole : (base.value ρ).fmod div + q.value ρ * div = base.value ρ + k * div := by
      rw [hk, Int.add_mul, ← Int.add_assoc, Int.add_comm ((base.value ρ).fmod div),
        Int.fdiv_mul_add_fmod]
    rw [hwhole]
    exact hsum.trans (((hagree ρ).mul (Agree.refl _)).add (Agree.refl _))
  · obtain ⟨hdiv, k, hk, hshift64, hb⟩ := quotientBase_spec hq
    obtain ⟨hty, hagree, hexactb⟩ := quotientBase_agree ht hs hbase hb
    obtain ⟨rfl, hety⟩ := tryMod_typed hty (constLike_typed hty _) hmod
    obtain ⟨hacc, hsum⟩ := scaledUsum_spec ht hs hety hrest hscaled
    obtain ⟨hwide, hdividend⟩ := hfit u v t base div d k hfirst (hdtype ▸ ht)
      ⟨⟨src, n, dt, mul, hpartners, hn, hd, hk⟩, hwide64, hshift64⟩
    have hbfits := (accepted_exact (ρ := ρ) ht hs (hacc hr).lhs).fits
    -- the reduced dividend has the remainder of the whole one
    have hrem : (b.value ρ).fmod (div * d) = (base.value ρ + k * div).fmod (div * d) := by
      rcases hdividend with hdvd | hconst | hfits
      · exact fmod_congr (hdvd.trans (Int.ModEq.dvd (hagree ρ).symm))
      · rw [hexactb hconst ρ]
      · rw [(hagree ρ).eq hbfits (hfits ρ)]
    have hvalue : (binary .floorMod b (b.constLike (div * d)) s).value ρ =
        (base.value ρ).fmod div + (binary .floorMod src n dt).value ρ * div := by
      rw [value_floorMod, value_floorMod, hk, operandInt_value hn, partial_recombine hdiv hd,
        constLike_eq hty, constOfType_reduced ht hs, IntType.wrap_of_contains hwide, hrem]
    rw [← hvalue]
    exact hsum ρ

/-- `i % m + ((i // m + shift) % d) * m`, with `i` in `[0, 10]`. -/
def splitDigits (s : ScalarDType) (hfits : rangeFits s (some (0, 10)) = true) (m shift d : ℤ) :
    Expr :=
  let i : Expr := leaf ⟨0, s, some (0, 10), hfits, none⟩
  let k := constOfType s
  let quotient := binary .add (binary .floorDiv i (k m) s) (k shift) s
  binary .add (binary .floorMod i (k m) s)
    (binary .mul (binary .floorMod quotient (k d) s) (k m) s) s

/-- `i % 4 + ((i // 4 + 2) % 8) * 4` is `(i + 8) % 32`. -/
theorem foldAddDivmodRecombine_value_thirtyTwo :
    let i : Expr := leaf ⟨0, .int32, some (0, 10), by decide, none⟩
    let k := constOfType .int32
    let r := binary .floorMod (binary .add i (k 8) .int32) (k 32) .int32
    r.machineValue .least = (splitDigits .int32 (by decide) 4 2 8).machineValue .least := by
  intro i k r
  refine foldAddDivmodRecombine_value (fun _ _ _ => none) .least _ r (by decide +kernel)
    (Or.inr ?_)
  rintro u v t base div d shift hfirst ht ⟨⟨src, n, dt, mul, hp, hn, -, -⟩, -, -⟩
  obtain rfl : IntType.mk true 32 (by decide) = t := Option.some.inj ht
  let rem := binary .floorMod i (k 4) .int32
  let quotient := binary .add (binary .floorDiv i (k 4) .int32) (k 2) .int32
  let digit := binary .floorMod quotient (k 8) .int32
  -- the remainder by 4 recombines with the digit below 8
  have hpair : firstPair (fun _ _ _ => none) (splitDigits .int32 (by decide) 4 2 8) =
      some ((rem, 0), (binary .mul digit (k 4) .int32, 1)) := by decide +kernel
  cases hpair.symm.trans hfirst
  obtain ⟨n', dt', c, hmod, hc, hn'⟩ := hp.remainder
  obtain ⟨c', hq, hc'⟩ := hp.quotient
  obtain ⟨hrem, -⟩ := Prod.mk.inj (show (rem, ConstValue.int 1) = _ from hmod)
  obtain ⟨hdigit, -⟩ := Prod.mk.inj (show (digit, ConstValue.int 4) = _ from hq)
  injection hrem with _ _ hn₁ _
  injection hdigit with _ _ hn₂ _
  obtain rfl : (4 : ℤ) = div :=
    Option.some.inj ((show (k 4).operandInt = some 4 by decide).symm.trans (hn₁ ▸ hn'))
  obtain rfl : (8 : ℤ) = d :=
    Option.some.inj ((show (k 8).operandInt = some 8 by decide).symm.trans (hn₂ ▸ hn))
  exact ⟨by decide, Or.inl (by decide)⟩

/-- Only the pair that recombines counts: `i % 4` and `(i // 4) * 4` come first here, and the digit
    of `j` stays as it is. -/
example :
    let i : Expr := leaf ⟨0, .int8, some (0, 10), by decide, none⟩
    let j : Expr := leaf ⟨1, .int8, some (0, 10), by decide, none⟩
    let k := constOfType .int8
    let rem := binary .floorMod i (k 4) .int8
    let quot := binary .mul (binary .floorDiv i (k 4) .int8) (k 4) .int8
    let digit := binary .floorMod
      (binary .add (binary .floorDiv j (k 5) .int8) (k 100) .int8) (k 3) .int8
    let x := binary .add (binary .add (binary .add rem quot .int8)
      (binary .floorMod j (k 5) .int8) .int8) (binary .mul digit (k 5) .int8) .int8
    firstPair (fun _ _ _ => none) x = some ((rem, 0), (quot, 1)) := by
  decide +kernel

/-- `i % 5 + ((i // 5 + 100) % 3) * 5`, of `int8`, becomes `(i + -12) % 15`, since the constant
    `500` of the recombined dividend is reduced to `-12`. -/
theorem foldAddDivmodRecombine_reduced :
    ¬ ∀ mixed ρ x r, foldAddDivmodRecombine mixed x = some r →
      r.machineValue ρ = x.machineValue ρ := by
  intro hall
  let i : Expr := leaf ⟨0, .int8, some (0, 10), by decide, none⟩
  let k := constOfType .int8
  let r := binary .floorMod (binary .add i (k (-12)) .int8) (k 15) .int8
  have hfold : foldAddDivmodRecombine (fun _ _ _ => none)
      (splitDigits .int8 (by decide) 5 100 3) = some r := by decide +kernel
  exact absurd (hall _ .least _ r hfold) (by decide +kernel)

end Svod.Symbolic
