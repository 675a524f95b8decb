/-
  Svod.Symbolic.DivModSound

  The folds of a floor quotient and of a floor remainder keep the value.

  Each rule states an identity of integers; what it builds may differ from the
  identity by what the constants lose when they are committed to the type.  Two
  values of the type that agree up to the size of the type are equal, so the
  identity holds in an accepted candidate.
-/

import Mathlib.Algebra.BigOperators.Ring.List
import Svod.Symbolic.FactorSound
import Svod.Symbolic.DivMod

namespace Svod.Symbolic

open Svod.Ir Svod.Lib Svod.Symbolic.Expr

variable {mixed : ArithOp → Expr → Expr → Option Expr} {order : List Expr → List Expr}
  {nodeCount : Expr → ℕ} {s : ScalarDType} {t : IntType} {ρ : Assignment}
variable {e : Expr} {terms : List Expr} {c constant : ℤ}

/-! ## Ranges of accepted expressions -/

theorem hasType_int {v w : ℤ} (ht : intType s = some t) (h : HasType s (.int v) w) :
    SignedType s t ∧ t.Contains v ∧ v = w := by
  obtain ⟨t', ht', hc, hv⟩ := h
  obtain rfl : t = t' := Option.some.inj (ht.symm.trans ht')
  unfold constOf at hv
  split at hv
  · next hsg =>
    cases hv
    exact ⟨⟨ht, hsg⟩, hc, rfl⟩
  · split at hv <;> cases hv

/-- The value of an accepted expression lies in its range, and the type is signed. -/
theorem intRange_bounds (ht : intType s = some t) (hs : s ≠ .bool) {lo hi : ℤ} (he : Accepted s e)
    (h : e.intRange = some (lo, hi)) :
    SignedType s t ∧ t.Contains lo ∧ t.Contains hi ∧ lo ≤ e.value ρ ∧ e.value ρ ≤ hi := by
  unfold intRange at h
  split at h
  · next hr =>
    cases h
    obtain ⟨l, u, hl, hu, hv⟩ := (accepted_exact (ρ := ρ) ht hs he).covers _ hr
    obtain ⟨hT, hcl, rfl⟩ := hasType_int ht hl
    obtain ⟨_, hcu, rfl⟩ := hasType_int ht hu
    exact ⟨hT, hcl, hcu, hv _ rfl⟩
  · cases h

section

variable (hT : SignedType s t)

include hT

theorem accepted_contains (he : Accepted s e) : t.Contains (e.value ρ) :=
  (accepted_exact hT.intType hT.ne_bool he).fits

/-! ## Sums -/

/-- An expression is the sum of terms. -/
structure SumOf (s : ScalarDType) (terms : List Expr) (e : Expr) : Prop where
  typed : e.Typed s
  value : ∀ ρ, e.value ρ = (terms.map fun u => u.value ρ).sum
  accepted : Accepted s e → ∀ u ∈ terms, Accepted s u

omit hT in
theorem addAll_sumOf {sum e : Expr} {terms done : List Expr} (hsum : SumOf s done sum)
    (ht : ∀ u ∈ terms, u.Typed s) (h : addAll mixed sum terms = some e) :
    SumOf s (done ++ terms) e := by
  induction terms generalizing sum done with
  | nil =>
    cases h
    rw [List.append_nil]
    exact hsum
  | cons u rest ih =>
    unfold addAll at h
    simp only [bind_eq_some] at h
    obtain ⟨next, hnext, h⟩ := h
    obtain ⟨rfl, hty⟩ := tryAdd_typed hsum.typed (ht u (by simp)) hnext
    have hstep : SumOf s (done ++ [u]) (binary .add sum u s) := by
      refine ⟨hty, ?_, ?_⟩
      · intro ρ
        rw [value_add, hsum.value, List.map_append, List.sum_append]
        simp
      · intro hacc v hv
        rcases List.mem_append.mp hv with hv | hv
        · exact hsum.accepted hacc.lhs v hv
        · rw [List.mem_singleton] at hv
          subst hv
          exact hacc.rhs
    have := ih hstep (fun v hv => ht v (List.mem_cons_of_mem _ hv)) h
    rwa [List.append_assoc, List.singleton_append] at this

theorem tryUopSum_sumOf {template e : Expr} (htpl : template.Typed s)
    (ht : ∀ u ∈ terms, u.Typed s) (h : tryUopSum mixed terms template = some e) :
    SumOf s terms e := by
  cases terms with
  | nil =>
    cases h
    refine ⟨constLike_typed htpl 0, ?_, by simp⟩
    intro ρ
    rw [hT.constLike_exact htpl t.contains_zero]
    rfl
  | cons u rest =>
    have hu : SumOf s [u] u := ⟨ht u (by simp), by simp, by simp⟩
    exact addAll_sumOf hu (fun v hv => ht v (List.mem_cons_of_mem _ hv)) h

theorem scaled_spec {term e : Expr} (ht : term.Typed s) (h : scaled mixed term c = some e) :
    e.Typed s ∧ (∀ ρ : Assignment, e.value ρ = term.value ρ * t.wrap c) ∧
      (c ≠ 0 → Accepted s e → Accepted s term) := by
  unfold scaled at h
  split at h
  · next hc =>
    cases h
    refine ⟨constLike_typed ht 0, ?_, fun h => absurd hc h⟩
    intro ρ
    rw [hc, hT.constLike_value ht, IntType.wrap_of_contains t.contains_zero, mul_zero]
  · split at h
    · next hc =>
      cases h
      refine ⟨ht, ?_, fun _ h => h⟩
      intro ρ
      rw [hc, IntType.wrap_of_contains (hT.contains_small (by omega) (by omega)), mul_one]
    · obtain ⟨rfl, hty⟩ := tryMul_typed ht (constLike_typed ht c) h
      refine ⟨hty, ?_, fun _ h => h.lhs⟩
      intro ρ
      rw [value_mul, hT.constLike_value ht]

omit hT in
theorem scaledTerms_cons (p : Expr × ℤ) (parts : List (Expr × ℤ)) :
    scaledTerms mixed (p :: parts) =
      if p.2 = 0 then scaledTerms mixed parts
      else (scaled mixed p.1 p.2).bind fun e => (scaledTerms mixed parts).map (e :: ·) := by
  unfold scaledTerms
  by_cases hp : p.2 = 0
  · rw [List.filter_cons_of_neg (by simpa using hp), if_pos hp]
  · rw [List.filter_cons_of_pos (by simpa using hp), if_neg hp, List.mapM_cons]
    cases scaled mixed p.1 p.2 with
    | none => rfl
    | some e =>
      cases List.mapM (fun p : Expr × ℤ => scaled mixed p.1 p.2)
        (parts.filter fun p => p.2 ≠ 0) with
      | none => rfl
      | some es => rfl

theorem scaledTerms_spec {parts : List (Expr × ℤ)} (ht : ∀ p ∈ parts, p.1.Typed s)
    (h : scaledTerms mixed parts = some terms) :
    (∀ u ∈ terms, u.Typed s) ∧
      (∀ ρ : Assignment, (terms.map fun u => u.value ρ).sum =
        (parts.map fun p => p.1.value ρ * t.wrap p.2).sum) ∧
      ((∀ u ∈ terms, Accepted s u) → ∀ p ∈ parts, p.2 ≠ 0 → Accepted s p.1) := by
  induction parts generalizing terms with
  | nil =>
    cases h
    exact ⟨by simp, by simp, by simp⟩
  | cons p rest ih =>
    have htr : ∀ q ∈ rest, q.1.Typed s := fun q hq => ht q (List.mem_cons_of_mem _ hq)
    rw [scaledTerms_cons] at h
    split at h
    · next hp =>
      obtain ⟨h₁, h₂, h₃⟩ := ih htr h
      refine ⟨h₁, ?_, ?_⟩
      · intro ρ
        rw [h₂, List.map_cons, List.sum_cons, hp, IntType.wrap_of_contains t.contains_zero,
          mul_zero, zero_add]
      · intro hacc q hq hq0
        rcases List.mem_cons.mp hq with rfl | hq
        · exact absurd hp hq0
        · exact h₃ hacc q hq hq0
    · simp only [Option.bind_eq_some_iff, Option.map_eq_some_iff] at h
      obtain ⟨e, he, es, hes, rfl⟩ := h
      obtain ⟨hte, hve, hae⟩ := scaled_spec hT (ht p (by simp)) he
      obtain ⟨h₁, h₂, h₃⟩ := ih htr hes
      refine ⟨?_, ?_, ?_⟩
      · intro u hu
        rcases List.mem_cons.mp hu with rfl | hu
        · exact hte
        · exact h₁ u hu
      · intro ρ
        rw [List.map_cons, List.sum_cons, List.map_cons, List.sum_cons, hve, h₂]
      · intro hacc q hq hq0
        rcases List.mem_cons.mp hq with rfl | hq
        · exact hae hq0 (hacc e (by simp))
        · exact h₃ (fun u hu => hacc u (List.mem_cons_of_mem _ hu)) q hq hq0

theorem constTerm_spec {template : Expr} (ht : template.Typed s) (v : ℤ) :
    (∀ u ∈ constTerm template v, u.Typed s) ∧
      ∀ ρ : Assignment, ((constTerm template v).map fun u => u.value ρ).sum = t.wrap v := by
  unfold constTerm
  split
  · next hv =>
    refine ⟨by simp, fun ρ => ?_⟩
    rw [hv, IntType.wrap_of_contains t.contains_zero]
    rfl
  · refine ⟨?_, fun ρ => ?_⟩
    · intro u hu
      rw [List.mem_singleton] at hu
      subst hu
      exact constLike_typed ht v
    · rw [List.map_singleton, List.sum_singleton, hT.constLike_value ht]

/-! ## Terms and their numeric factors -/

/-- A term over its numeric factor: what was built for it, and its exact value. -/
structure Part where
  base : Expr
  factor : ℤ
  quotient : ℤ

variable {picks : List (Part × ℤ)}

structure Part.Sound (s : ScalarDType) (t : IntType) (ρ : Assignment) (p : Part) : Prop where
  typed : p.base.Typed s
  agree : Agree t (p.base.value ρ) p.quotient
  exact : Accepted s p.base → p.base.value ρ = p.quotient

/-- The value of the terms. -/
def partsSum (parts : List Part) : ℤ := (parts.map fun p => p.factor * p.quotient).sum

theorem divides_part {term base : Expr} (he : Accepted s term)
    (h : term.divides mixed term.constFactor = some base) :
    ∃ q, term.value ρ = term.constFactor * q ∧
      Part.Sound s t ρ ⟨base, term.constFactor, q⟩ := by
  obtain ⟨hbt, hq⟩ := divides_spec hT he.typed h
  obtain ⟨q, hq, ha⟩ := hq ρ
  refine ⟨q, hq, hbt, ha, ?_⟩
  intro hacc
  exact ha.eq (accepted_contains hT hacc)
    (constFactor_quotient hT (ρ := ρ) he (divides_ne_zero h) hq)

/-- The terms, each over its numeric factor. -/
theorem parts_of_mapM {β : Type} (mk : Expr → ℤ → β) {f : Expr → Option β}
    (hf : ∀ u b, f u = some b →
      ∃ base, u.divides mixed u.constFactor = some base ∧ b = mk base u.constFactor)
    (hterms : ∀ u ∈ terms, Accepted s u) {bs : List β} (h : terms.mapM f = some bs) :
    ∃ parts : List Part, bs = parts.map (fun p => mk p.base p.factor) ∧
      terms.map constFactor = parts.map Part.factor ∧ (∀ p ∈ parts, p.Sound s t ρ) ∧
      partsSum parts = (terms.map fun u => u.value ρ).sum := by
  induction terms generalizing bs with
  | nil =>
    cases h
    exact ⟨[], rfl, rfl, by simp, rfl⟩
  | cons u rest ih =>
    simp only [List.mapM_cons, Option.pure_def, bind_eq_some,
      Option.some.injEq] at h
    obtain ⟨b, hb, bs', hbs', rfl⟩ := h
    obtain ⟨parts, rfl, hfac, hsound, hsum⟩ :=
      ih (fun v hv => hterms v (List.mem_cons_of_mem _ hv)) hbs'
    obtain ⟨base, hbase, rfl⟩ := hf u b hb
    obtain ⟨q, hq, hp⟩ := divides_part hT (ρ := ρ) (hterms u (by simp)) hbase
    refine ⟨⟨base, u.constFactor, q⟩ :: parts, rfl, ?_, ?_, ?_⟩
    · rw [List.map_cons, List.map_cons, hfac]
    · intro p hmem
      rcases List.mem_cons.mp hmem with rfl | hmem
      · exact hp
      · exact hsound p hmem
    · unfold partsSum at hsum ⊢
      rw [List.map_cons, List.sum_cons, List.map_cons, List.sum_cons, hsum, hq]

/-! ## Remainder choices -/

/-- A remainder of a factor by the divisor. -/
structure Residue (c factor r : ℤ) : Prop where
  dvd : c ∣ factor - r
  lower : -c ≤ r
  upper : r < c

omit hT in
theorem remainderChoices_residue {c factor : ℤ} (hc : 0 < c) {lone : Bool} {choices : List ℤ}
    (h : remainderChoices c factor lone = some choices) {r : ℤ} (hr : r ∈ choices) :
    Residue c factor r := by
  unfold remainderChoices at h
  simp only [bind_eq_some] at h
  obtain ⟨positive, hpos, negative, hneg, h⟩ := h
  have hp : positive = factor % c := checkedI64_eq_some hpos
  have hn : negative = positive - c := checkedI64_eq_some hneg
  have h0 := Int.emod_nonneg factor (by omega : c ≠ 0)
  have h1 := Int.emod_lt_of_pos factor hc
  have hdvd : c ∣ factor - factor % c := Int.dvd_self_sub_emod
  have hrpos : Residue c factor positive := ⟨by rw [hp]; exact hdvd, by omega, by omega⟩
  have hrneg : Residue c factor negative := by
    refine ⟨?_, by omega, by omega⟩
    rw [hn, hp]
    obtain ⟨k, hk⟩ := hdvd
    exact ⟨k + 1, by rw [Int.mul_add, ← hk]; omega⟩
  split at h
  · cases h
    rcases List.mem_cons.mp hr with rfl | hr
    · exact hrpos
    · rw [List.mem_singleton] at hr
      subst hr
      exact hrneg
  · split at h
    · cases h
      rw [List.mem_singleton] at hr
      subst hr
      exact hrneg
    · cases h
      rw [List.mem_singleton] at hr
      subst hr
      exact hrpos

omit hT in
/-- A combination of remainders picks a remainder for each term. -/
theorem combination_residues (hc : 0 < c) {lone : Bool} {parts : List Part}
    {choices : List (List ℤ)} (hch : (parts.map fun p => (p.base, p.factor)).mapM
      (fun p => remainderChoices c p.2 lone) = some choices) {rs : List ℤ}
    (hrs : rs ∈ product choices) :
    ∃ picks : List (Part × ℤ), parts = picks.map Prod.fst ∧ rs = picks.map Prod.snd ∧
      ∀ p ∈ picks, Residue c p.1.factor p.2 := by
  induction parts generalizing choices rs with
  | nil =>
    simp only [List.map_nil, List.mapM_nil, Option.pure_def, Option.some.injEq] at hch
    subst hch
    unfold product at hrs
    rw [List.mem_singleton] at hrs
    exact ⟨[], rfl, hrs, by simp⟩
  | cons p rest ih =>
    rw [List.map_cons] at hch
    simp only [List.mapM_cons, Option.pure_def, bind_eq_some,
      Option.some.injEq] at hch
    obtain ⟨choice, hchoice, choices', hchoices', rfl⟩ := hch
    unfold product at hrs
    simp only [List.mem_flatMap, List.mem_map] at hrs
    obtain ⟨r, hr, rs', hrs', rfl⟩ := hrs
    obtain ⟨picks, rfl, rfl, hres⟩ := ih hchoices' hrs'
    refine ⟨(p, r) :: picks, rfl, rfl, ?_⟩
    intro q hq
    rcases List.mem_cons.mp hq with rfl | hq
    · exact remainderChoices_residue hc hchoice hr
    · exact hres q hq

/-! ## Congruence -/

omit hT in
theorem agree_sum {α : Type} {l : List α} {f g : α → ℤ} (h : ∀ a ∈ l, Agree t (f a) (g a)) :
    Agree t (l.map f).sum (l.map g).sum := by
  induction l with
  | nil => exact Agree.refl 0
  | cons a rest ih =>
    rw [List.map_cons, List.sum_cons, List.map_cons, List.sum_cons]
    exact (h a (by simp)).add (ih fun b hb => h b (List.mem_cons_of_mem _ hb))

/-- The terms and the remainders picked for them. -/
structure Picks (s : ScalarDType) (t : IntType) (ρ : Assignment) (c : ℤ)
    (picks : List (Part × ℤ)) : Prop where
  sound : ∀ p ∈ picks, p.1.Sound s t ρ
  residue : ∀ p ∈ picks, Residue c p.1.factor p.2

/-- A candidate of the type, with the value it has when it is accepted. -/
structure Folds (s : ScalarDType) (ρ : Assignment) (r : Expr) (v : ℤ) : Prop where
  typed : r.Typed s
  value : Accepted s r → r.value ρ = v

/-- What the picked remainders leave of the numerator. -/
def residueSum (picks : List (Part × ℤ)) : ℤ := (picks.map fun p => p.2 * p.1.quotient).sum

/-- What the picked remainders take out of the numerator, over the divisor. -/
def carrySum (c : ℤ) (picks : List (Part × ℤ)) : ℤ :=
  (picks.map fun p => (p.1.factor - p.2).tdiv c * p.1.quotient).sum

omit hT in
theorem partsSum_split (h : Picks s t ρ c picks) :
    partsSum (picks.map Prod.fst) = residueSum picks + carrySum c picks * c := by
  unfold partsSum residueSum carrySum
  rw [List.map_map, ← List.sum_map_mul_right, ← List.sum_map_add]
  congr 1
  apply List.map_congr_left
  intro p hp
  obtain ⟨hdvd, _, _⟩ := h.residue p hp
  have hq := Int.mul_tdiv_cancel' hdvd
  simp only [Function.comp_apply]
  linear_combination -p.1.quotient * hq

theorem contains_below {c r : ℤ} (hct : t.Contains c) (hlo : -c ≤ r) (hhi : r < c) :
    t.Contains r := by
  rw [hT.contains_iff] at hct ⊢
  omega

theorem remainderSum_spec {x rem : Expr} (hx : x.Typed s) (hc : 0 < c) (hct : t.Contains c)
    (hp : Picks s t ρ c picks)
    (h : remainderSum mixed x c (picks.map fun p => (p.1.base, p.1.factor)) (picks.map Prod.snd)
      constant = some rem) :
    rem.Typed s ∧
      (Accepted s rem → rem.value ρ = residueSum picks + constant % c) := by
  unfold remainderSum at h
  simp only [bind_eq_some] at h
  obtain ⟨terms, hterms, h⟩ := h
  rw [List.zipWith_map, List.zipWith_self] at hterms
  obtain ⟨htt, htv, hta⟩ := scaledTerms_spec hT (by
    intro p hp'
    obtain ⟨q, hq, rfl⟩ := List.mem_map.mp hp'
    exact (hp.sound q hq).typed) hterms
  obtain ⟨hct', hcv⟩ := constTerm_spec hT hx (constant % c)
  have hsum := tryUopSum_sumOf hT hx (by
    intro u hu
    rcases List.mem_append.mp hu with hu | hu
    · exact htt u hu
    · exact hct' u hu) h
  refine ⟨hsum.typed, ?_⟩
  intro hacc
  have haccs := hta fun u hu => hsum.accepted hacc u (List.mem_append_left _ hu)
  have h0 := Int.emod_nonneg constant (by omega : c ≠ 0)
  have h1 := Int.emod_lt_of_pos constant hc
  rw [hsum.value, List.map_append, List.sum_append, htv, hcv,
    IntType.wrap_of_contains (contains_below hT hct (by omega) h1)]
  congr 1
  unfold residueSum
  rw [List.map_map]
  congr 1
  apply List.map_congr_left
  intro p hpm
  obtain ⟨_, hlo, hhi⟩ := hp.residue p hpm
  simp only [Function.comp_apply]
  rw [IntType.wrap_of_contains (contains_below hT hct hlo hhi)]
  by_cases hr : p.2 = 0
  · rw [hr, mul_zero, zero_mul]
  · have hbase := haccs (p.1.base, p.2) (List.mem_map.mpr ⟨p, hpm, rfl⟩) hr
    rw [(hp.sound p hpm).exact hbase, mul_comm]

theorem quotientSum_spec {x e : Expr} {c constant bucket : ℤ} (hx : x.Typed s) (hc : 0 < c)
    (hp : Picks s t ρ c picks)
    (h : quotientSum mixed x c (picks.map fun p => (p.1.base, p.1.factor)) (picks.map Prod.snd)
      constant bucket = some e) :
    e.Typed s ∧ Agree t (e.value ρ) (carrySum c picks + (constant / c + bucket)) := by
  unfold quotientSum at h
  simp only [bind_eq_some] at h
  obtain ⟨coefficients, hcoef, terms, hterms, quotient, hquot, h⟩ := h
  rw [List.zip_map', List.mapM_map] at hcoef
  have hcoef' := mapM_eq_map (g := fun p : Part × ℤ => (p.1.base, (p.1.factor - p.2).tdiv c))
    (by
      intro p b hb
      simp only [Function.comp_apply, Option.map_eq_some_iff] at hb
      obtain ⟨v, hv, rfl⟩ := hb
      rw [checkedI64_eq_some hv]) hcoef
  have hq : quotient = constant / c + bucket := by
    rw [checkedI64_eq_some hquot]
    have hm := Int.emod_add_mul_ediv constant c
    have : constant - constant % c + bucket * c = c * (constant / c + bucket) := by
      linear_combination -hm
    rw [this, Int.mul_tdiv_cancel_left _ (by omega)]
  subst hcoef' hq
  obtain ⟨htt, htv, _⟩ := scaledTerms_spec hT (by
    intro p hp'
    obtain ⟨q, hq, rfl⟩ := List.mem_map.mp hp'
    exact (hp.sound q hq).typed) hterms
  obtain ⟨hct', hcv⟩ := constTerm_spec hT hx (constant / c + bucket)
  have hsum := tryUopSum_sumOf hT hx (by
    intro u hu
    rcases List.mem_append.mp hu with hu | hu
    · exact htt u hu
    · exact hct' u hu) h
  refine ⟨hsum.typed, ?_⟩
  rw [hsum.value, List.map_append, List.sum_append, htv, hcv, List.map_map]
  refine Agree.add (agree_sum ?_) (wrap_agree _)
  intro p hpm
  simp only [Function.comp_apply]
  rw [mul_comm]
  exact (wrap_agree _).mul (hp.sound p hpm).agree

theorem trySub_const {x rem r : Expr} {v : ℤ} (hx : x.Typed s) (hrem : rem.Typed s)
    (h : trySub mixed rem (x.constLike v) = some r) :
    r.Typed s ∧ (Accepted s r → Accepted s rem) ∧
      r.value ρ = rem.value ρ - t.wrap v := by
  obtain ⟨rfl, hty⟩ := trySub_typed hrem (constLike_typed hx v) h
  refine ⟨hty, fun hr => hr.lhs, ?_⟩
  rw [value_add, value_mul, hT.constLike_value hx,
    hT.constLike_exact (constLike_typed hx v) (hT.contains_small (by omega) (by omega))]
  ring

theorem quotientBucket_spec {rem : Expr} {c bucket : ℤ} (hc : 0 < c) (hrem : Accepted s rem)
    (h : quotientBucket rem c = some bucket) : (rem.value ρ).fdiv c = bucket := by
  unfold quotientBucket at h
  split at h
  · next lo hi hr =>
    split at h
    · next hends =>
      cases h
      obtain ⟨_, _, _, hlo, hhi⟩ := intRange_bounds (ρ := ρ) hT.intType hT.ne_bool hrem hr
      exact fdiv_eq_of_ends hc hlo hhi hends
    · cases h
  · cases h

/-- Each combination of the search is a choice of remainders for the terms of the numerator. -/
theorem congruenceSearch_picks {x : Expr} {decomposition : List (Expr × ℤ)}
    {combinations : List (List ℤ)} (hx : Accepted s x) (hc : 0 < c)
    (h : congruenceSearch mixed x c = some (decomposition, combinations, constant))
    {remainders : List ℤ} (hr : remainders ∈ combinations) :
    ∃ picks : List (Part × ℤ), decomposition = picks.map (fun p => (p.1.base, p.1.factor)) ∧
      remainders = picks.map Prod.snd ∧ Picks s t ρ c picks ∧
      x.value ρ = partsSum (picks.map Prod.fst) + constant := by
  unfold congruenceSearch at h
  cases hpop : x.popConst .add with
  | mk withoutConst value =>
    rw [hpop] at h
    cases value with
    | int k =>
      simp only [bind_eq_some] at h
      obtain ⟨dec, hdec, choices, hchoices, h⟩ := h
      split at h
      · simp only [Option.some.injEq, Prod.mk.injEq] at h
        obtain ⟨rfl, rfl, rfl⟩ := h
        obtain ⟨hwc, _, hval⟩ := popConst_add hT (ρ := ρ) hx hpop
        obtain ⟨parts, hparts, _, hsound, hsum⟩ := parts_of_mapM hT (ρ := ρ) Prod.mk
          (by
            intro u b hb
            unfold factored at hb
            dsimp only at hb
            split at hb
            · cases hb
            · simp only [Option.map_eq_some_iff] at hb
              obtain ⟨base, hbase, rfl⟩ := hb
              exact ⟨base, hbase, rfl⟩) (splitUop_accepted hwc) hdec
        rw [hparts] at hchoices
        obtain ⟨picks, rfl, hrem, hres⟩ := combination_residues hc hchoices hr
        refine ⟨picks, ?_, hrem, ⟨?_, hres⟩, ?_⟩
        · rw [hparts, List.map_map]
          rfl
        · intro p hp
          exact hsound p.1 (List.mem_map.mpr ⟨p, hp, rfl⟩)
        · rw [hsum, splitUop_add_value, hval]
      · cases h
    | uint k | bool k => cases h
    | invalid => cases h

theorem congruenceCandidate_mod {x r : Expr} (hx : Accepted s x) (hc : 0 < c) (hct : t.Contains c)
    (hp : Picks s t ρ c picks) (hval : x.value ρ = partsSum (picks.map Prod.fst) + constant)
    (h : congruenceCandidate mixed x c (picks.map fun p => (p.1.base, p.1.factor))
      (picks.map Prod.snd) constant true = some r) : Folds s ρ r ((x.value ρ).fmod c) := by
  unfold congruenceCandidate at h
  simp only [Option.bind_eq_bind, Option.bind_eq_some_iff, if_true] at h
  obtain ⟨rem, hrem, bucket, hbucket, h⟩ := h
  obtain ⟨hremt, hremv⟩ := remainderSum_spec hT hx.typed hc hct hp hrem
  -- the numerator and its remainder sum differ by a multiple of the divisor
  have hx' : x.value ρ = (residueSum picks + constant % c) +
      (carrySum c picks + constant / c) * c := by
    rw [hval, partsSum_split hp]
    linear_combination -(Int.emod_add_mul_ediv constant c)
  have key : Accepted s rem → (x.value ρ).fmod c = rem.value ρ - bucket * c := by
    intro hacc
    rw [fmod_of_eq_add_mul hx', ← hremv hacc, Int.fmod_def,
      quotientBucket_spec hT (ρ := ρ) hc hacc hbucket]
    ring
  split at h
  · next hz =>
    cases h
    refine ⟨hremt, fun hr => ?_⟩
    rw [key hr, hz, sub_zero]
  · simp only [Option.bind_eq_some_iff] at h
    obtain ⟨offset, hoff, h⟩ := h
    obtain ⟨hty, hacc, hrv⟩ := trySub_const hT (ρ := ρ) hx.typed hremt h
    refine ⟨hty, fun hr => ?_⟩
    have hk := key (hacc hr)
    have hfits := accepted_contains hT (ρ := ρ) hr
    rw [checkedI64_eq_some hoff] at hrv
    refine Agree.eq ?_ hfits (fmod_contains hct (by omega))
    rw [hrv, hk]
    exact (Agree.refl _).sub (wrap_agree _)

theorem congruenceCandidate_div {x r : Expr} (hx : Accepted s x) (hc : 0 < c) (hct : t.Contains c)
    (hp : Picks s t ρ c picks) (hval : x.value ρ = partsSum (picks.map Prod.fst) + constant)
    (h : congruenceCandidate mixed x c (picks.map fun p => (p.1.base, p.1.factor))
      (picks.map Prod.snd) constant false = some r)
    (hsafe : ∀ rem, remainderSum mixed x c (picks.map fun p => (p.1.base, p.1.factor))
      (picks.map Prod.snd) constant = some rem → integerArithmeticDoesNotWrap rem = true) :
    Folds s ρ r ((x.value ρ).fdiv c) := by
  unfold congruenceCandidate at h
  simp only [bind_eq_some, Bool.false_eq_true, if_false] at h
  obtain ⟨rem, hrem, bucket, hbucket, h⟩ := h
  obtain ⟨hremt, hremv⟩ := remainderSum_spec hT hx.typed hc hct hp hrem
  have hacc : Accepted s rem := ⟨hremt, hsafe rem hrem⟩
  obtain ⟨hty, hagree⟩ := quotientSum_spec hT hx.typed hc hp h
  have hx' : x.value ρ = rem.value ρ + (carrySum c picks + constant / c) * c := by
    rw [hval, partsSum_split hp, hremv hacc]
    linear_combination -(Int.emod_add_mul_ediv constant c)
  have hquot : (x.value ρ).fdiv c = carrySum c picks + (constant / c + bucket) := by
    rw [fdiv_of_eq_add_mul (by omega) hx', quotientBucket_spec hT (ρ := ρ) hc hacc hbucket]
    ring
  refine ⟨hty, fun hr => ?_⟩
  rw [hquot]
  refine hagree.eq (accepted_contains hT hr) ?_
  rw [← hquot]
  exact fdiv_contains (accepted_contains hT hx) hct (by omega) (by omega)

end

/-- The remainder sum whose sound range decides the fold of a quotient by a number. -/
def decidingRemainder (mixed : ArithOp → Expr → Expr → Option Expr) (x : Expr) (c : ℤ) :
    Option Expr := do
  let (decomposition, combinations, constant) ← congruenceSearch mixed x c
  let remainders ← combinations.find? fun remainders =>
    (congruenceCandidate mixed x c decomposition remainders constant false).isSome
  remainderSum mixed x c decomposition remainders constant

/-- The remainder sum that decides a quotient does not wrap. -/
def RemainderExact (mixed : ArithOp → Expr → Expr → Option Expr) (x : Expr) (c : ℤ) : Prop :=
  ∀ rem, decidingRemainder mixed x c = some rem → integerArithmeticDoesNotWrap rem = true

/-- The result of one of the two divisions. -/
def floorOp (isMod : Bool) (a b : ℤ) : ℤ := if isMod then a.fmod b else a.fdiv b

section

variable (hT : SignedType s t)

include hT

theorem foldDivmodCongruence_value {x r : Expr} {isMod : Bool} (hx : Accepted s x) (hc : 0 < c)
    (hct : t.Contains c) (h : foldDivmodCongruence mixed x c isMod = some r)
    (hsafe : isMod = false → RemainderExact mixed x c) :
    Folds s ρ r (floorOp isMod (x.value ρ) c) := by
  unfold foldDivmodCongruence at h
  simp only [bind_eq_some] at h
  obtain ⟨⟨dec, combs, constant⟩, hsearch, h⟩ := h
  dsimp only at h
  obtain ⟨before, remainders, after, hcombs, hcand, hbefore⟩ := List.findSome?_eq_some_iff.mp h
  have hmem : remainders ∈ combs := by
    rw [hcombs]
    simp
  obtain ⟨picks, rfl, rfl, hp, hval⟩ :=
    congruenceSearch_picks hT (ρ := ρ) hx hc hsearch hmem
  cases isMod with
  | true => exact congruenceCandidate_mod hT hx hc hct hp hval hcand
  | false =>
    refine congruenceCandidate_div hT hx hc hct hp hval hcand ?_
    intro rem hrem
    apply hsafe rfl
    unfold decidingRemainder
    rw [hsearch]
    simp only [Option.bind_eq_bind, Option.bind_some, Option.bind_eq_some_iff]
    refine ⟨_, ?_, hrem⟩
    rw [List.find?_eq_some_iff_append]
    refine ⟨by rw [hcand]; rfl, before, after, hcombs, ?_⟩
    intro a ha
    rw [hbefore a ha]
    rfl

/-! ## Rules for a constant divisor -/

theorem constInt_value {y : Expr} (hy : y.Typed s) (h : y.constInt = some c) :
    y.value ρ = c ∧ t.Contains c := by
  cases y with
  | const k =>
    unfold constInt at h
    rcases hT.const_int (show k.dtype = s from hy) with hk | ⟨v, hv, hvc⟩
    · simp only [hk] at h
      cases h
    · simp only [hv, Option.some.injEq] at h
      subst h
      exact ⟨SignedType.const_value hv, hvc⟩
  | leaf l => cases h
  | neg src => cases h
  | binary op a b d => cases h

theorem nestedDiv_value {x y r : Expr} (hx : Accepted s x) (hy : y.Typed s) (hc : 0 < c)
    (hyc : y.value ρ = c) (h : nestedDiv mixed x y c = some (some r)) :
    Folds s ρ r ((x.value ρ).fdiv c) := by
  unfold nestedDiv at h
  split at h
  · next inner modulus d =>
    simp only [Option.bind_eq_bind, Option.bind_eq_some_iff] at h
    obtain ⟨k, hk, ⟨kMin, kMax⟩, hrange, h⟩ := h
    dsimp only at h
    split at h
    · next hpos =>
      simp only [Option.some.injEq, Option.bind_eq_some_iff] at h
      obtain ⟨q, hq, hmod⟩ := h
      obtain ⟨rfl, hqt⟩ := tryDiv_typed hx.typed.1 hy hq
      have hkt := (divides_spec hT hx.typed.2.1 hk).1
      obtain ⟨rfl, hty⟩ := tryMod_typed hqt hkt hmod
      refine ⟨hty, fun hr => ?_⟩
      obtain ⟨_, _, _, hlo, _⟩ := intRange_bounds (ρ := ρ) hT.intType hT.ne_bool hr.rhs hrange
      rw [value_floorMod, value_floorDiv, value_floorMod,
        divides_exact hT (ρ := ρ) hx.rhs hr.rhs (by omega) hk, hyc,
        fdiv_fmod_mul hc (by omega)]
    · cases h
  · cases h

theorem stripMod_spec (mixed : ArithOp → Expr → Expr → Option Expr) {u : Expr} (hu : u.Typed s) :
    (stripMod mixed c u).Typed s ∧ c ∣ u.value ρ - (stripMod mixed c u).value ρ := by
  have hself : u.Typed s ∧ c ∣ u.value ρ - u.value ρ := ⟨hu, by simp⟩
  unfold stripMod
  split
  · next inner modulus d =>
    split
    · next hdiv =>
      obtain ⟨k, hk⟩ := Option.isSome_iff_exists.mp hdiv
      obtain ⟨q, hq, _⟩ := (divides_spec hT hu.2.1 hk).2 ρ
      refine ⟨hu.1, ?_⟩
      rw [value_floorMod, hq]
      exact (Dvd.intro q rfl).trans Int.dvd_fmod_sub_self
    · exact hself
  · exact hself

omit hT in
theorem dvd_sum_sub {α : Type} {l : List α} {f g : α → ℤ} (h : ∀ a ∈ l, c ∣ f a - g a) :
    c ∣ (l.map f).sum - (l.map g).sum := by
  induction l with
  | nil => simp
  | cons a rest ih =>
    rw [List.map_cons, List.sum_cons, List.map_cons, List.sum_cons]
    have h₁ := h a (by simp)
    have h₂ := ih fun b hb => h b (List.mem_cons_of_mem _ hb)
    have : f a + (rest.map f).sum - (g a + (rest.map g).sum) =
        (f a - g a) + ((rest.map f).sum - (rest.map g).sum) := by ring
    rw [this]
    exact Int.dvd_add h₁ h₂

theorem removeNestedMod_value {x y r : Expr} (hx : x.Typed s) (hy : y.Typed s)
    (hyc : y.value ρ = c) (hct : t.Contains constant) (hterms : ∀ u ∈ terms, u.Typed s)
    (hval : x.value ρ = (terms.map fun u => u.value ρ).sum + constant)
    (h : removeNestedMod mixed x y c constant terms = some (some r)) :
    Folds s ρ r ((x.value ρ).fmod c) := by
  unfold removeNestedMod at h
  dsimp only at h
  split at h
  · cases h
  · simp only [Option.some.injEq, Option.bind_eq_bind, Option.bind_eq_some_iff] at h
    obtain ⟨sum, hsum, h⟩ := h
    have hs := tryUopSum_sumOf hT hx (by
      intro u hu
      obtain ⟨v, hv, rfl⟩ := List.mem_map.mp hu
      exact (stripMod_spec hT mixed (c := c) (ρ := ρ) (hterms v hv)).1) hsum
    obtain ⟨sum', hs', hmod⟩ : ∃ sum' : Expr,
        (sum'.Typed s ∧ sum'.value ρ = sum.value ρ + constant) ∧
          tryMod mixed sum' y = some r := by
      split at h
      · next hz => exact ⟨sum, ⟨hs.typed, by omega⟩, h⟩
      · simp only [Option.bind_eq_some_iff] at h
        obtain ⟨sum', hadd, hmod⟩ := h
        obtain ⟨rfl, hty⟩ := tryAdd_typed hs.typed (constLike_typed hx constant) hadd
        exact ⟨_, ⟨hty, by rw [value_add, hT.constLike_exact hx hct]⟩, hmod⟩
    obtain ⟨rfl, hty⟩ := tryMod_typed hs'.1 hy hmod
    refine ⟨hty, fun _ => ?_⟩
    rw [value_floorMod, hyc]
    refine (fmod_congr ?_).symm
    rw [hval, hs'.2, hs.value, List.map_map]
    have hdvd := dvd_sum_sub (c := c) (l := terms) (f := fun u => u.value ρ)
      (g := (fun u => u.value ρ) ∘ stripMod mixed c)
      fun u hu => (stripMod_spec hT mixed (hterms u hu)).2
    have : (terms.map fun u => u.value ρ).sum + constant -
        ((terms.map ((fun u => u.value ρ) ∘ stripMod mixed c)).sum + constant) =
        (terms.map fun u => u.value ρ).sum -
          (terms.map ((fun u => u.value ρ) ∘ stripMod mixed c)).sum := by ring
    rw [this]
    exact hdvd

theorem offsetBy_spec {value r : Expr} {offset : ℤ} (hv : value.Typed s)
    (h : offsetBy mixed value offset = some r) :
    r.Typed s ∧ (Accepted s r → Accepted s value) ∧
      r.value ρ = value.value ρ + t.wrap offset := by
  unfold offsetBy at h
  split at h
  · next hz =>
    cases h
    refine ⟨hv, fun hr => hr, ?_⟩
    rw [hz, IntType.wrap_of_contains t.contains_zero, add_zero]
  · obtain ⟨rfl, hty⟩ := tryAdd_typed hv (constLike_typed hv offset) h
    exact ⟨hty, fun hr => hr.lhs, by rw [value_add, hT.constLike_value hv]⟩

omit hT in
theorem foldl_gcd_dvd (factors : List ℤ) (c : ℤ) : factors.foldl gcd c ∣ c := by
  induction factors generalizing c with
  | nil => exact Int.dvd_refl c
  | cons f rest ih =>
    rw [List.foldl_cons]
    refine (ih _).trans ?_
    unfold gcd
    split
    · exact Int.one_dvd c
    · exact Int.gcd_dvd_left ..

theorem gcdWithRemainder_value {x peeled r : Expr} {factors : List ℤ} {isMod : Bool}
    (hx : x.Typed s) (hpeeled : Accepted s peeled) (hc : 0 < c) (hct : t.Contains c)
    (hkt : t.Contains constant) (hval : x.value ρ = peeled.value ρ + constant)
    (h : gcdWithRemainder mixed x peeled c constant factors isMod = some (some r)) :
    Folds s ρ r (floorOp isMod (x.value ρ) c) := by
  unfold gcdWithRemainder at h
  dsimp only at h
  obtain ⟨c', hc'⟩ := foldl_gcd_dvd factors c
  generalize factors.foldl gcd c = g at h hc'
  split at h
  · next hg =>
    have hc0 : 0 < c' := by
      by_contra hle
      have : g * c' ≤ g * 0 := Int.mul_le_mul_of_nonneg_left (by omega) (by omega)
      omega
    have hcg : c / g = c' := by
      rw [hc']
      exact Int.mul_ediv_cancel_left c' (by omega)
    have hge : g ≤ c := by
      rw [hc']
      have : g * 1 ≤ g * c' := Int.mul_le_mul_of_nonneg_left (by omega) (by omega)
      omega
    have hc'le : c' ≤ c := by
      rw [hc']
      have : 1 * c' ≤ g * c' := Int.mul_le_mul_of_nonneg_right (by omega) (by omega)
      omega
    rw [hcg] at h
    have hs0 := Int.emod_nonneg (constant / g) (by omega : c' ≠ 0)
    have hs1 := Int.emod_lt_of_pos (constant / g) hc0
    have hm0 := Int.emod_nonneg constant (by omega : g ≠ 0)
    have hm1 := Int.emod_lt_of_pos constant (by omega : 0 < g)
    split at h
    · cases h
    · next reduced hdiv =>
      have hredt := (divides_spec hT hpeeled.typed hdiv).1
      split at h
      · cases h
      · next shifted hshift =>
        -- the dividend over the common divisor
        have hsh : shifted.Typed s ∧ (Accepted s shifted → Accepted s reduced) ∧
            shifted.value ρ = reduced.value ρ + constant / g % c' := by
          split at hshift
          · next hz =>
            cases hshift
            exact ⟨hredt, fun h => h, by rw [hz, add_zero]⟩
          · obtain ⟨rfl, hty⟩ := tryAdd_typed hredt (constLike_typed hx _) hshift
            refine ⟨hty, fun h => h.lhs, ?_⟩
            rw [value_add, hT.constLike_exact hx (hT.contains_between hct hs0 (by omega))]
        obtain ⟨hsht, hsha, hshv⟩ := hsh
        have hdividend : Accepted s shifted →
            x.value ρ = g * reduced.value ρ + constant := by
          intro hacc
          rw [hval, divides_exact hT hpeeled (hsha hacc) (by omega) hdiv]
        have hinner : (x.constLike c').value ρ = c' :=
          hT.constLike_exact hx (hT.contains_between hct hc0.le hc'le)
        split at h
        · split at h
          · rw [Option.some.injEq] at h
            cases isMod with
            | true =>
              simp only [if_true, bind_eq_some] at h
              obtain ⟨rest, hrest, up, hup, h⟩ := h
              obtain ⟨rfl, hrt⟩ := tryMod_typed hsht (constLike_typed hx c') hrest
              obtain ⟨rfl, hut⟩ := tryMul_typed hrt (constLike_typed hx g) hup
              obtain ⟨hty, hacc, hv⟩ := offsetBy_spec hT (ρ := ρ) hut h
              refine ⟨hty, fun hr => ?_⟩
              have hd := hdividend (hacc hr).lhs.lhs
              show r.value ρ = (x.value ρ).fmod c
              rw [hv, value_mul, value_floorMod, hinner, hshv,
                hT.constLike_exact hx (hT.contains_between hct (by omega) hge),
                IntType.wrap_of_contains (hT.contains_between hct hm0 (by omega)), hd, hc',
                fmod_factor_shift (by omega) hc0]
            | false =>
              simp only [Bool.false_eq_true, if_false, bind_eq_some] at h
              obtain ⟨quotient, hquot, h⟩ := h
              obtain ⟨rfl, hqt⟩ := tryDiv_typed hsht (constLike_typed hx c') hquot
              obtain ⟨hty, hacc, hv⟩ := offsetBy_spec hT (ρ := ρ) hqt h
              refine ⟨hty, fun hr => ?_⟩
              have hd := hdividend (hacc hr).lhs
              have hkc : t.Contains (constant / c) := by
                rw [← Int.fdiv_eq_ediv_of_nonneg constant hc.le]
                exact fdiv_contains hkt hct (by omega) (by omega)
              show r.value ρ = (x.value ρ).fdiv c
              rw [hv, value_floorDiv, hinner, hshv, IntType.wrap_of_contains hkc, hd, hc',
                fdiv_factor_shift (by omega) hc0]
          · cases h
        · cases h
  · cases h

/-! ## Quotients by a smaller divisor -/

omit hT in
theorem nestDivisors_spec {c d : ℤ} {factors : List ℤ} (h : d ∈ nestDivisors c terms factors) :
    2 ≤ d ∧ d < c ∧ c % d = 0 := by
  unfold nestDivisors at h
  rw [List.mem_dedup, List.mem_mergeSort, List.mem_map] at h
  obtain ⟨p, hp, rfl⟩ := h
  rw [List.mem_filter] at hp
  simp only [Bool.and_eq_true, decide_eq_true_eq] at hp
  exact ⟨hp.2.1.2.1, hp.2.1.2.2, hp.2.2⟩

omit hT in
theorem nestDivisors_mono {c d : ℤ} {factors : List ℤ} (hdc : d < c) (hdvd : c % d = 0) :
    nestDivisors d terms factors ⊆ nestDivisors c terms factors := by
  intro f hf
  unfold nestDivisors at hf ⊢
  rw [List.mem_dedup, List.mem_mergeSort, List.mem_map] at hf ⊢
  obtain ⟨p, hp, rfl⟩ := hf
  refine ⟨p, ?_, rfl⟩
  rw [List.mem_filter] at hp ⊢
  simp only [Bool.and_eq_true, decide_eq_true_eq] at hp ⊢
  refine ⟨hp.1, ⟨hp.2.1.1, hp.2.1.2.1, by omega⟩, ?_⟩
  apply Int.emod_eq_zero_of_dvd
  exact (Int.dvd_of_emod_eq_zero hp.2.2).trans (Int.dvd_of_emod_eq_zero hdvd)

theorem digit_typed {x digit : Expr} {low : List Expr} {d constant : ℤ} {parts : List Part}
    (hx : x.Typed s) (hparts : ∀ p ∈ parts, p.Sound s t ρ)
    (hlow : scaledTerms mixed (List.zipWith (fun b f => (b, f % d)) (parts.map Part.base)
      (parts.map Part.factor)) = some low)
    (hdigit : tryUopSum mixed (low ++ constTerm x (constant % d)) x = some digit) :
    digit.Typed s := by
  rw [List.zipWith_map, List.zipWith_self] at hlow
  obtain ⟨htt, _, _⟩ := scaledTerms_spec hT (by
    intro p hp
    obtain ⟨q, hq, rfl⟩ := List.mem_map.mp hp
    exact (hparts q hq).typed) hlow
  obtain ⟨hct, _⟩ := constTerm_spec hT hx (constant % d)
  refine (tryUopSum_sumOf hT hx ?_ hdigit).typed
  intro u hu
  rcases List.mem_append.mp hu with hu | hu
  · exact htt u hu
  · exact hct u hu

/-- The low digit of the numerator, built from the factors' remainders. -/
theorem digit_value {x digit : Expr} {low : List Expr} {d constant mn mx : ℤ} {parts : List Part}
    (hx : x.Typed s) (hd : 0 < d) (hdt : t.Contains d) (hparts : ∀ p ∈ parts, p.Sound s t ρ)
    (hval : x.value ρ = partsSum parts + constant)
    (hlow : scaledTerms mixed (List.zipWith (fun b f => (b, f % d)) (parts.map Part.base)
      (parts.map Part.factor)) = some low)
    (hdigit : tryUopSum mixed (low ++ constTerm x (constant % d)) x = some digit)
    (hacc : Accepted s digit) (hrange : digit.intRange = some (mn, mx)) (hmn : 0 ≤ mn)
    (hmx : mx < d) : digit.value ρ = (x.value ρ).fmod d := by
  have hpicks : Picks s t ρ d (parts.map fun p => (p, p.factor % d)) := by
    constructor
    · intro p hp
      obtain ⟨q, hq, rfl⟩ := List.mem_map.mp hp
      exact hparts q hq
    · intro p hp
      obtain ⟨q, _, rfl⟩ := List.mem_map.mp hp
      have h0 := Int.emod_nonneg q.factor (by omega : d ≠ 0)
      have h1 := Int.emod_lt_of_pos q.factor hd
      exact ⟨Int.dvd_self_sub_emod, by omega, h1⟩
  have hrem : remainderSum mixed x d
      ((parts.map fun p => (p, p.factor % d)).map fun p => (p.1.base, p.1.factor))
      ((parts.map fun p => (p, p.factor % d)).map Prod.snd) constant = some digit := by
    unfold remainderSum
    rw [List.zipWith_map, List.zipWith_self] at hlow
    rw [List.zipWith_map, List.zipWith_self, List.map_map]
    simp only [bind_eq_some]
    exact ⟨low, hlow, hdigit⟩
  have hv := (remainderSum_spec hT hx hd hdt hpicks hrem).2 hacc
  have hsplit := partsSum_split hpicks
  have hfst : (parts.map fun p => (p, p.factor % d)).map Prod.fst = parts := by
    rw [List.map_map]
    exact List.map_id parts
  rw [hfst] at hsplit
  obtain ⟨_, _, _, hlo, hhi⟩ := intRange_bounds (ρ := ρ) hT.intType hT.ne_bool hacc hrange
  have hx' : x.value ρ = digit.value ρ +
      (carrySum d (parts.map fun p => (p, p.factor % d)) + constant / d) * d := by
    rw [hval, hsplit, hv]
    linear_combination -(Int.emod_add_mul_ediv constant d)
  rw [fmod_of_eq_add_mul hx']
  exact (Int.fmod_eq_of_lt (by omega) (by omega)).symm

theorem nestCandidate_value {x nested cand : Expr} {c d constant xMin : ℤ} {parts : List Part}
    {isMod : Bool} (hx : x.Typed s) (hct : t.Contains c) (hd : 2 ≤ d ∧ d < c ∧ c % d = 0)
    (hparts : ∀ p ∈ parts, p.Sound s t ρ) (hval : x.value ρ = partsSum parts + constant)
    (hn : Folds s ρ nested ((x.value ρ).fdiv d))
    (h : nestCandidate mixed x nested c d constant xMin (parts.map Part.base)
      (parts.map Part.factor) isMod = some (some cand)) :
    Folds s ρ cand (floorOp isMod (x.value ρ) c) := by
  obtain ⟨k, hk⟩ := Int.dvd_of_emod_eq_zero hd.2.2
  have hk0 : 0 < k := by
    by_contra hle
    have : d * k ≤ d * 0 := Int.mul_le_mul_of_nonneg_left (by omega) (by omega)
    omega
  have hkc : k ≤ c := by
    rw [hk]
    have : 1 * k ≤ d * k := Int.mul_le_mul_of_nonneg_right (by omega) (by omega)
    omega
  have hcd : c / d = k := by
    rw [hk]
    exact Int.mul_ediv_cancel_left k (by omega)
  have hdt : t.Contains d := hT.contains_between hct (by omega) hd.2.1.le
  have houter : (x.constLike (c / d)).value ρ = k := by
    rw [hcd]
    exact hT.constLike_exact hx (hT.contains_between hct hk0.le hkc)
  unfold nestCandidate at h
  dsimp only at h
  cases isMod with
  | false =>
    simp only [Bool.false_eq_true, if_false, Option.map_eq_some_iff, Option.some.injEq] at h
    obtain ⟨_, hdiv, rfl⟩ := h
    obtain ⟨rfl, hty⟩ := tryDiv_typed hn.typed (constLike_typed hx _) hdiv
    refine ⟨hty, fun hacc => ?_⟩
    show _ = (x.value ρ).fdiv c
    rw [value_floorDiv, houter, hn.value hacc.lhs, hk, fdiv_fdiv hk0.le]
  | true =>
    simp only [if_true] at h
    split at h
    · cases h
    · split at h
      · split at h
        · split at h
          · cases h
          · next low hlow =>
            split at h
            · cases h
            · next digit hdigit =>
              split at h
              · next mn mx hrange =>
                split at h
                · next hbounds =>
                  split at h
                  · cases h
                  · next high hhigh =>
                    simp only [Option.bind_eq_some_iff] at hhigh
                    obtain ⟨rest, hrest, hmul⟩ := hhigh
                    obtain ⟨rfl, hrt⟩ := tryMod_typed hn.typed (constLike_typed hx _) hrest
                    obtain ⟨rfl, hht⟩ := tryMul_typed hrt (constLike_typed hx d) hmul
                    have hhv : Accepted s (binary .mul (binary .floorMod nested
                        (x.constLike (c / d)) s) (x.constLike d) s) →
                        (binary .mul (binary .floorMod nested (x.constLike (c / d)) s)
                          (x.constLike d) s).value ρ = ((x.value ρ).fdiv d).fmod k * d := by
                      intro ha
                      rw [value_mul, value_floorMod, houter, hT.constLike_exact hx hdt,
                        hn.value ha.lhs.lhs]
                    have hdt' := digit_typed hT hx hparts hlow hdigit
                    split at h
                    · next hempty =>
                      -- no low digit: the divisor divides the numerator
                      simp only [Option.some.injEq] at h
                      subst h
                      rw [List.isEmpty_iff] at hempty
                      rw [hempty] at hdigit
                      cases hdigit
                      have hdig := digit_value hT hx (by omega) hdt hparts hval hlow
                        (by rw [hempty]; rfl) ⟨constLike_typed hx 0, rfl⟩ hrange hbounds.1 hbounds.2
                      rw [hT.constLike_exact hx t.contains_zero] at hdig
                      refine ⟨hht, fun hacc => ?_⟩
                      show _ = (x.value ρ).fmod c
                      rw [hhv hacc, hk, fmod_mul_split hk0, ← hdig, add_zero]
                    · split at h
                      · cases h
                      · next cand' hadd =>
                        simp only [Option.some.injEq] at h
                        subst h
                        obtain ⟨rfl, hty⟩ := tryAdd_typed hht hdt' hadd
                        refine ⟨hty, fun hacc => ?_⟩
                        have hdig := digit_value hT hx (by omega) hdt hparts hval hlow hdigit
                          hacc.rhs hrange hbounds.1 hbounds.2
                        show _ = (x.value ρ).fmod c
                        rw [value_add, hhv hacc.lhs, hdig, hk, fmod_mul_split hk0]
                · cases h
              · cases h
        · cases h
      · cases h

theorem nestBest_value {fold : Expr → Expr → Option Expr} {x r : Expr} {c constant xMin : ℤ}
    {parts : List Part} {isMod : Bool} (hx : x.Typed s) (hct : t.Contains c)
    (hparts : ∀ p ∈ parts, p.Sound s t ρ) (hval : x.value ρ = partsSum parts + constant)
    {divisors : List ℤ} (hds : ∀ d ∈ divisors, 2 ≤ d ∧ d < c ∧ c % d = 0)
    (hfold : ∀ d ∈ divisors, ∀ nested, fold x (x.constLike d) = some nested →
      Folds s ρ nested ((x.value ρ).fdiv d))
    {best : Option Expr}
    (hbest : ∀ b, best = some b → Folds s ρ b (floorOp isMod (x.value ρ) c))
    (h : nestBest mixed nodeCount fold x c constant xMin (parts.map Part.base)
      (parts.map Part.factor) isMod best divisors = some r) :
    Folds s ρ r (floorOp isMod (x.value ρ) c) := by
  induction divisors generalizing best with
  | nil => exact hbest r h
  | cons d rest ih =>
    have hdr : ∀ d' ∈ rest, 2 ≤ d' ∧ d' < c ∧ c % d' = 0 :=
      fun d' hd' => hds d' (List.mem_cons_of_mem _ hd')
    have hfr : ∀ d' ∈ rest, ∀ nested, fold x (x.constLike d') = some nested →
        Folds s ρ nested ((x.value ρ).fdiv d') :=
      fun d' hd' => hfold d' (List.mem_cons_of_mem _ hd')
    unfold nestBest at h
    split at h
    · exact ih hdr hfr hbest h
    · next nested hnested =>
      split at h
      · exact ih hdr hfr hbest h
      · cases h
      · next candidate hcand =>
        have hc := nestCandidate_value hT hx hct (hds d (by simp)) hparts hval
          (hfold d (by simp) nested hnested) hcand
        dsimp only at h
        refine ih hdr hfr ?_ h
        intro b hb
        cases best with
        | none =>
          cases hb
          exact hc
        | some old =>
          dsimp only at hb
          split at hb
          · cases hb
            exact hc
          · exact hbest b hb

/-! ## The rules -/

omit hT in
theorem division_typed {isMod : Bool} {x y e : Expr} (hx : x.Typed s) (hy : y.Typed s)
    (h : division mixed isMod x y = some e) :
    e = binary (if isMod then .floorMod else .floorDiv) x y s ∧ e.Typed s := by
  unfold division at h
  cases isMod with
  | true => exact tryMod_typed hx hy h
  | false => exact tryDiv_typed hx hy h

/-- The terms of a numerator. -/
def numeratorTerms (x : Expr) : List Expr := (x.popConst .add).1.splitUop .add

/-- The remainder sums that decide the quotients a fold looks at do not wrap. -/
structure QuotientsExact (mixed : ArithOp → Expr → Expr → Option Expr) (isMod : Bool) (x : Expr)
    (c : ℤ) : Prop where
  own : isMod = false → RemainderExact mixed x c
  nested : ∀ d ∈ nestDivisors c (numeratorTerms x) ((numeratorTerms x).map constFactor),
    RemainderExact mixed x d

theorem constDenominatorRules_value {fold : Expr → Expr → Option Expr} {isMod : Bool}
    {x y peeled r : Expr} (hx : Accepted s x) (hy : y.Typed s) (hyc : y.constInt = some c)
    (hpop : x.popConst .add = (peeled, .int constant)) (hsafe : QuotientsExact mixed isMod x c)
    (hfold : ∀ d ∈ nestDivisors c (numeratorTerms x) ((numeratorTerms x).map constFactor),
      ∀ nested, fold x (x.constLike d) = some nested →
        Folds s ρ nested ((x.value ρ).fdiv d))
    (h : constDenominatorRules mixed nodeCount fold isMod x y peeled constant
      (peeled.splitUop .add) = some r) : Folds s ρ r (floorOp isMod (x.value ρ) (y.value ρ)) := by
  obtain ⟨hyv, hct⟩ := constInt_value hT (ρ := ρ) hy hyc
  obtain ⟨hpeeled, hkt, hval⟩ := popConst_add hT (ρ := ρ) hx hpop
  have hterms : numeratorTerms x = peeled.splitUop .add := by
    unfold numeratorTerms
    rw [hpop]
  rw [hterms] at hfold
  unfold constDenominatorRules at h
  rw [hyc] at h
  dsimp only at h
  rw [hyv]
  split at h
  · next hc =>
    split at h
    · -- a quotient of a remainder
      next result hres =>
      subst h
      cases isMod with
      | true => cases hres
      | false => exact nestedDiv_value hT hx hy hc hyv hres
    · split at h
      · -- a remainder of remainders
        next result hres =>
        subst h
        cases isMod with
        | false => cases hres
        | true =>
          refine removeNestedMod_value hT hx.typed hy hyv hkt
            (splitUop_typed hpeeled.typed) ?_ hres
          rw [splitUop_add_value, hval]
      · split at h
        · next folded hres =>
          cases h
          exact foldDivmodCongruence_value hT hx hc hct hres hsafe.own
        · simp only [Option.bind_eq_bind, Option.bind_eq_some_iff] at h
          obtain ⟨bases, hbases, h⟩ := h
          split at h
          · next result hres =>
            subst h
            exact gcdWithRemainder_value hT hx.typed hpeeled hc hct hkt hval hres
          · simp only [Option.bind_eq_some_iff] at h
            obtain ⟨⟨xMin, xMax⟩, _, h⟩ := h
            have hzip : List.zip (peeled.splitUop .add) ((peeled.splitUop .add).map constFactor) =
                (peeled.splitUop .add).map fun u => (u, u.constFactor) := by
              rw [← List.zip_map', List.map_id']
            rw [hzip, List.mapM_map] at hbases
            obtain ⟨parts, rfl, hfactors, hparts, hsum⟩ := parts_of_mapM hT (ρ := ρ)
              (fun base _ => base) (fun u b hb => ⟨b, hb, rfl⟩)
              (splitUop_accepted hpeeled) hbases
            rw [splitUop_add_value] at hsum
            rw [hfactors] at h hfold
            exact nestBest_value hT hx.typed hct hparts (by rw [hval, hsum])
              (fun d hd => nestDivisors_spec hd) hfold (by simp) h
  · cases h

theorem cancelDivmod_value {isMod : Bool} {x y r : Expr} (hx : Accepted s x) (hy : Accepted s y)
    (hy0 : y.value ρ ≠ 0) (hdiv : isMod = false → Accepted s (binary .floorDiv x y s))
    (h : cancelDivmod mixed isMod x y = some (some r)) :
    Folds s ρ r (floorOp isMod (x.value ρ) (y.value ρ)) := by
  have hN := hT.half_bounds
  unfold cancelDivmod at h
  split at h
  · cases h
  · next qmin qmax hrange =>
    simp only [Option.bind_eq_some_iff] at hrange
    obtain ⟨node, hnode, hrange⟩ := hrange
    obtain ⟨rfl, _⟩ := tryDiv_typed hx.typed hy.typed hnode
    split at h
    · next hq =>
      subst hq
      -- the single bucket is the quotient, reduced to the type
      have hqv : t.Contains qmin ∧ qmin = t.wrap ((x.value ρ).fdiv (y.value ρ)) := by
        unfold intRange at hrange
        split at hrange
        · next hr =>
          cases hrange
          obtain ⟨l, u, hl, hu, hv⟩ := binary_covers hT.intType hT.ne_bool rfl
            (accepted_exact hT.intType hT.ne_bool hx) (accepted_exact (ρ := ρ) hT.intType
              hT.ne_bool hy) hr
          obtain ⟨_, hcl, rfl⟩ := hasType_int hT.intType hl
          obtain ⟨_, _, rfl⟩ := hasType_int hT.intType hu
          obtain ⟨h₁, h₂⟩ := hv _ rfl
          exact ⟨hcl, le_antisymm h₁ h₂⟩
        · cases hrange
      obtain ⟨hqc, hqv⟩ := hqv
      rw [Option.some.injEq] at h
      cases isMod with
      | false =>
        simp only [Bool.false_eq_true, if_false, Option.some.injEq] at h
        subst h
        refine ⟨constLike_typed hx.typed qmin, fun _ => ?_⟩
        have hfits := accepted_contains hT (ρ := ρ) (hdiv rfl)
        rw [value_floorDiv] at hfits
        rw [hT.constLike_exact hx.typed hqc, hqv, IntType.wrap_of_contains hfits]
        rfl
      | true =>
        simp only [if_true, Option.bind_eq_some_iff] at h
        obtain ⟨product, hprod, hsub⟩ := h
        obtain ⟨hpt, hpv, _⟩ := scaled_spec hT hy.typed hprod
        obtain ⟨rfl, hty⟩ := trySub_typed hx.typed hpt hsub
        refine ⟨hty, fun hr => ?_⟩
        have hpc := accepted_contains hT (ρ := ρ) hr.rhs.lhs
        rw [value_add, value_mul, hT.constLike_exact hpt (hT.contains_small (by omega) (by omega)),
          hpv]
        rw [hpv, IntType.wrap_of_contains hqc] at hpc
        rw [IntType.wrap_of_contains hqc]
        have hfits : t.Contains ((x.value ρ).fdiv (y.value ρ)) := by
          apply fdiv_contains (accepted_contains hT hx) (accepted_contains hT hy) hy0
          rintro ⟨hy1, hneg⟩
          -- the least value over `-1`: the product by the reduced quotient would leave the type
          have hxc := hT.contains_iff.mp (accepted_contains hT (ρ := ρ) hx)
          rw [hT.contains_iff] at hneg
          have hxN : x.value ρ = -half t := by omega
          have hdm := Int.fdiv_mul_add_fmod (x.value ρ) (y.value ρ)
          have hm := fmod_bounds_neg (x.value ρ) (by omega : y.value ρ < 0)
          have hquot : (x.value ρ).fdiv (y.value ρ) = half t := by
            rw [hy1] at hdm hm ⊢
            omega
          rw [hqv, hquot, hT.wrap_half, hy1, hT.contains_iff] at hpc
          omega
        rw [hqv, IntType.wrap_of_contains hfits]
        show _ = (x.value ρ).fmod (y.value ρ)
        rw [Int.fmod_def]
        ring
    · cases h

theorem paramMultiple_value {isMod : Bool} {x y r : Expr} (hx : x.Typed s) (hy : y.Typed s)
    (hpromise : ∀ l m, x = leaf l → l.multipleOf = some m → (m : ℤ) ∣ ρ.val l)
    (h : paramMultiple isMod x y = some (some r)) :
    Folds s ρ r (floorOp isMod (x.value ρ) (y.value ρ)) := by
  unfold paramMultiple at h
  split at h
  · next l =>
    simp only [Option.bind_eq_bind, Option.bind_eq_some_iff] at h
    obtain ⟨m, ⟨n, hn, hm⟩, c, hc, h⟩ := h
    obtain ⟨hyv, _⟩ := constInt_value hT (ρ := ρ) hy hc
    split at h
    · next hrem =>
      cases isMod with
      | false => cases h
      | true =>
        simp only [if_true, Option.some.injEq] at h
        subst h
        refine ⟨constLike_typed hx 0, fun _ => ?_⟩
        rw [hT.constLike_exact hx t.contains_zero, hyv]
        unfold checkedRem at hrem
        obtain ⟨hc0, hrem⟩ := hrem
        split at hrem
        · cases hrem
        · rw [Option.some.injEq] at hrem
          have hdvd : c ∣ (n : ℤ) := by
            rw [← checkedI64_eq_some hm]
            exact Int.dvd_of_tmod_eq_zero hrem
          exact (Int.fmod_eq_zero_of_dvd (hdvd.trans (hpromise l n rfl hn))).symm
    · cases h
  · cases h

/-- What a term adds to the quotient and to the remainder. -/
structure TermSplit (s : ScalarDType) (t : IntType) (ρ : Assignment) (isMod : Bool)
    (term y : ℤ) (quotient remainder : List Expr) (q : ℤ) : Prop where
  quotientTyped : ∀ u ∈ quotient, u.Typed s
  remainderTyped : ∀ u ∈ remainder, u.Typed s
  value : (∀ u ∈ remainder, Accepted s u) →
    term = y * q + (remainder.map fun u => u.value ρ).sum
  agree : isMod = false → Agree t (quotient.map fun u => u.value ρ).sum q

theorem factorTerm_split {x y term : Expr} {isMod : Bool} {parts : Option Expr × Option Expr}
    (hord : ∀ l, (order l).Perm l) (hx : x.Typed s) (hy : y.Typed s) (hterm : Accepted s term)
    (hpos : ∀ c, y.constInt = some c → 0 < c)
    (h : factorTerm mixed order x y y.constInt isMod term = some parts) :
    ∃ q, TermSplit s t ρ isMod (term.value ρ) (y.value ρ) parts.1.toList parts.2.toList q := by
  unfold factorTerm at h
  split at h
  · next exact hexact =>
    cases h
    obtain ⟨hty, q, hq, ha⟩ := (divideExact_cases hexact).spec hT hord (ρ := ρ) hterm.typed hy
    refine ⟨q, ?_, by simp, ?_, ?_⟩
    · intro u hu
      rw [Option.toList_some, List.mem_singleton] at hu
      subst hu
      exact hty
    · intro _
      rw [hq]
      simp
    · intro _
      simpa using ha
  · dsimp only at h
    split at h
    · next base residue carry hsplit =>
      simp only [Option.bind_eq_some_iff] at hsplit
      obtain ⟨d, hd, hsplit⟩ := hsplit
      split at hsplit
      · simp only [Option.map_eq_some_iff, Prod.mk.injEq] at hsplit
        obtain ⟨base', hdiv, rfl, rfl, rfl⟩ := hsplit
        obtain ⟨hyv, hdt⟩ := constInt_value hT (ρ := ρ) hy hd
        have hdp := hpos d hd
        obtain ⟨q, hq, hpart⟩ := divides_part hT (ρ := ρ) hterm hdiv
        simp only [Option.bind_eq_bind, Option.bind_eq_some_iff] at h
        obtain ⟨low, hlow, h⟩ := h
        obtain ⟨high, hhigh, rfl⟩ : ∃ high, (if isMod then some (x.constLike 0)
            else scaled mixed base' (term.constFactor / d)) = some high ∧
              (some high, some low) = parts := by
          cases isMod with
          | true =>
            simp only [if_true, Option.bind_some, Option.some.injEq] at h
            exact ⟨_, rfl, h⟩
          | false =>
            simp only [Bool.false_eq_true, if_false, Option.bind_eq_some_iff,
              Option.some.injEq] at h
            exact h
        obtain ⟨hlt, hlv, hla⟩ := scaled_spec hT hpart.typed hlow
        have h0 := Int.emod_nonneg term.constFactor (by omega : d ≠ 0)
        have h1 := Int.emod_lt_of_pos term.constFactor hdp
        have hwrap : t.wrap (term.constFactor % d) = term.constFactor % d :=
          IntType.wrap_of_contains (contains_below hT hdt (by omega) h1)
        refine ⟨term.constFactor / d * q, ?_, ?_, ?_, ?_⟩
        · intro u hu
          rw [Option.toList_some, List.mem_singleton] at hu
          subst hu
          cases isMod with
          | true =>
            cases hhigh
            exact constLike_typed hx 0
          | false => exact (scaled_spec hT hpart.typed hhigh).1
        · intro u hu
          rw [Option.toList_some, List.mem_singleton] at hu
          subst hu
          exact hlt
        · intro hacc
          have hlowv : low.value ρ = term.constFactor % d * q := by
            rw [hlv, hwrap]
            by_cases hz : term.constFactor % d = 0
            · rw [hz, mul_zero, zero_mul]
            · rw [hpart.exact (hla hz (hacc low (by simp))), mul_comm]
          rw [Option.toList_some, List.map_singleton, List.sum_singleton, hlowv, hq, hyv]
          linear_combination -q * (Int.emod_add_mul_ediv term.constFactor d)
        · intro hm
          subst hm
          rw [Option.toList_some, List.map_singleton, List.sum_singleton,
            (scaled_spec hT hpart.typed hhigh).2.1, mul_comm]
          exact (wrap_agree _).mul hpart.agree
      · cases hsplit
    · cases h
      refine ⟨0, by simp, ?_, ?_, ?_⟩
      · intro u hu
        rw [Option.toList_some, List.mem_singleton] at hu
        subst hu
        exact hterm.typed
      · intro _
        simp
      · intro _
        exact Agree.refl 0

theorem factorTerms_split {x y : Expr} {isMod : Bool} {parts : List (Option Expr × Option Expr)}
    (hord : ∀ l, (order l).Perm l) (hx : x.Typed s) (hy : y.Typed s)
    (hterms : ∀ u ∈ terms, Accepted s u) (hpos : ∀ c, y.constInt = some c → 0 < c)
    (h : terms.mapM (factorTerm mixed order x y y.constInt isMod) = some parts) :
    ∃ q, TermSplit s t ρ isMod (terms.map fun u => u.value ρ).sum (y.value ρ)
      (parts.filterMap Prod.fst) (parts.filterMap Prod.snd) q := by
  induction terms generalizing parts with
  | nil =>
    simp only [List.mapM_nil, Option.pure_def, Option.some.injEq] at h
    subst h
    exact ⟨0, by simp, by simp, by simp, fun _ => Agree.refl 0⟩
  | cons u rest ih =>
    simp only [List.mapM_cons, Option.pure_def, bind_eq_some,
      Option.some.injEq] at h
    obtain ⟨part, hpart, parts', hparts', rfl⟩ := h
    obtain ⟨q, hq⟩ := factorTerm_split hT (ρ := ρ) hord hx hy (hterms u (by simp)) hpos hpart
    obtain ⟨q', hq'⟩ := ih (fun v hv => hterms v (List.mem_cons_of_mem _ hv)) hparts'
    have hfm : ∀ f : Option Expr × Option Expr → Option Expr,
        (part :: parts').filterMap f = (f part).toList ++ parts'.filterMap f := by
      intro f
      cases hf : f part <;> simp [hf]
    rw [hfm, hfm]
    refine ⟨q + q', ?_, ?_, ?_, ?_⟩
    · intro v hv
      rcases List.mem_append.mp hv with hv | hv
      · exact hq.quotientTyped v hv
      · exact hq'.quotientTyped v hv
    · intro v hv
      rcases List.mem_append.mp hv with hv | hv
      · exact hq.remainderTyped v hv
      · exact hq'.remainderTyped v hv
    · intro hacc
      have h₁ := hq.value fun v hv => hacc v (List.mem_append_left _ hv)
      have h₂ := hq'.value fun v hv => hacc v (List.mem_append_right _ hv)
      rw [List.map_cons, List.sum_cons, h₁, h₂, List.map_append, List.sum_append]
      ring
    · intro hm
      rw [List.map_append, List.sum_append]
      exact (hq.agree hm).add (hq'.agree hm)

theorem nonNegative_value {u : Unit} (he : Accepted s e) (h : nonNegative e = some u) :
    0 ≤ e.value ρ := by
  unfold nonNegative at h
  split at h
  · next lo hi hr =>
    split at h
    · obtain ⟨_, _, _, hlo, _⟩ := intRange_bounds (ρ := ρ) hT.intType hT.ne_bool he hr
      omega
    · cases h
  · cases h

theorem factorRemainder_value {x y r : Expr} {isMod : Bool} (hord : ∀ l, (order l).Perm l)
    (hx : Accepted s x) (hy : Accepted s y) (hy0 : y.value ρ ≠ 0)
    (h : factorRemainder mixed order isMod x y (x.splitUop .add) = some r) :
    Folds s ρ r (floorOp isMod (x.value ρ) (y.value ρ)) := by
  unfold factorRemainder at h
  simp only [Option.bind_eq_bind, Option.bind_eq_some_iff] at h
  obtain ⟨_, _, _, hyn, parts, hparts, h⟩ := h
  have hyp : 0 < y.value ρ := by
    have := nonNegative_value hT (ρ := ρ) hy hyn
    omega
  have hpos : ∀ c, y.constInt = some c → 0 < c := by
    intro c hc
    rw [← (constInt_value hT (ρ := ρ) hy.typed hc).1]
    exact hyp
  obtain ⟨q, hq⟩ := factorTerms_split hT (ρ := ρ) hord hx.typed hy.typed
    (splitUop_accepted hx) hpos hparts
  rw [splitUop_add_value] at hq
  split at h
  · cases h
  · simp only [Option.bind_eq_some_iff] at h
    obtain ⟨newX, hnew, _, _, folded, hfold, h⟩ := h
    have hsum := tryUopSum_sumOf hT hx.typed hq.remainderTyped hnew
    obtain ⟨rfl, hft⟩ := division_typed hsum.typed hy.typed hfold
    have hxv : Accepted s newX → x.value ρ = newX.value ρ + q * y.value ρ := by
      intro hacc
      rw [hq.value (hsum.accepted hacc), hsum.value]
      ring
    cases isMod with
    | true =>
      simp only [if_true, Option.some.injEq] at h
      subst h
      refine ⟨hft, fun hr => ?_⟩
      show (newX.value ρ).fmod (y.value ρ) = (x.value ρ).fmod (y.value ρ)
      exact (fmod_of_eq_add_mul (hxv hr.lhs)).symm
    | false =>
      simp only [Bool.false_eq_true, if_false, Option.bind_eq_some_iff] at h
      obtain ⟨sum, hqsum, hadd⟩ := h
      have hqs := tryUopSum_sumOf hT hx.typed hq.quotientTyped hqsum
      obtain ⟨rfl, hty⟩ := tryAdd_typed hft hqs.typed hadd
      refine ⟨hty, fun hr => ?_⟩
      have hquot : (x.value ρ).fdiv (y.value ρ) =
          (newX.value ρ).fdiv (y.value ρ) + q :=
        fdiv_of_eq_add_mul hy0 (hxv hr.lhs.lhs)
      show _ = (x.value ρ).fdiv (y.value ρ)
      refine Agree.eq ?_ (accepted_contains hT hr)
        (fdiv_contains (accepted_contains hT hx) (accepted_contains hT hy) hy0 (by omega))
      rw [hquot, value_add, hqs.value]
      exact (Agree.refl _).add (hq.agree rfl)

theorem variableDenominatorRules_value {x y r : Expr} {isMod : Bool}
    (hord : ∀ l, (order l).Perm l) (hx : Accepted s x) (hy : Accepted s y)
    (hy0 : y.value ρ ≠ 0)
    (h : variableDenominatorRules mixed order isMod x y = some r) :
    Folds s ρ r (floorOp isMod (x.value ρ) (y.value ρ)) := by
  unfold variableDenominatorRules at h
  split at h
  · cases h
  · next first rest hsplit =>
    simp only [Option.bind_eq_bind, Option.bind_eq_some_iff] at h
    obtain ⟨g, hg, h⟩ := h
    split at h
    · -- both sides over their common divisor
      simp only [Option.bind_eq_some_iff] at h
      obtain ⟨lhs, hlhs, rhs, hrhs, folded, hfold, h⟩ := h
      have hterms : ∀ u ∈ x.splitUop .add, u.Typed s := splitUop_typed hx.typed
      rw [hsplit] at hterms
      obtain ⟨hgt, hg1, hgc⟩ := symbolicGcd_minusOnes hT ρ hord (hterms first (by simp)) (by
        intro u hu
        rcases List.mem_append.mp hu with hu | hu
        · exact hterms u (List.mem_cons_of_mem _ hu)
        · rw [List.mem_singleton] at hu
          subst hu
          exact hy.typed) hg
      have hdl := divideExact_cases hlhs
      have hdr := divideExact_cases hrhs
      have hlt := (hdl.spec hT hord (ρ := ρ) hx.typed hgt).1
      have hrt := (hdr.spec hT hord (ρ := ρ) hy.typed hgt).1
      have hxg : Accepted s lhs → x.value ρ = g.value ρ * lhs.value ρ := by
        intro hacc
        refine hdl.exact hT hord hx hacc hgt hg1 ?_
        intro u hu
        rw [hsplit] at hu
        apply hgc u
        simp only [List.mem_cons, List.mem_append] at hu ⊢
        tauto
      have hyg : Accepted s rhs → y.value ρ = g.value ρ * rhs.value ρ := by
        intro hacc
        refine hdr.exact hT hord hy hacc hgt hg1 ?_
        have hyc := hgc y (by simp)
        -- a divisor that is a sum has no factor `-1`
        intro u hu
        cases y with
        | binary op a b d =>
          by_cases hop : op = .add
          · subst hop
            rw [withoutFactor_add hT hy.typed] at hyc
            omega
          · rw [splitUop, if_neg hop, List.mem_singleton] at hu
            subst hu
            exact hyc
        | const c | leaf l | neg src =>
          simp only [splitUop, List.mem_singleton] at hu
          subst hu
          exact hyc
      obtain ⟨rfl, hft⟩ := division_typed hlt hrt hfold
      have hg0 : Accepted s rhs → g.value ρ ≠ 0 := by
        intro hacc hz
        apply hy0
        rw [hyg hacc, hz, zero_mul]
      cases isMod with
      | false =>
        simp only [Bool.false_eq_true, if_false, Option.some.injEq] at h
        subst h
        refine ⟨hft, fun hr => ?_⟩
        show (lhs.value ρ).fdiv (rhs.value ρ) = (x.value ρ).fdiv (y.value ρ)
        rw [hxg hr.lhs, hyg hr.rhs, mul_fdiv_mul_left (hg0 hr.rhs)]
      | true =>
        simp only [if_true] at h
        obtain ⟨rfl, hty⟩ := tryMul_typed hft hgt h
        refine ⟨hty, fun hr => ?_⟩
        show (lhs.value ρ).fmod (rhs.value ρ) * g.value ρ =
          (x.value ρ).fmod (y.value ρ)
        rw [hxg hr.lhs.lhs, hyg hr.lhs.rhs, mul_fmod_mul_left (hg0 hr.lhs.rhs), mul_comm]
    · rw [← hsplit] at h
      exact factorRemainder_value hT hord hx hy hy0 h

/-! ## The fold -/

theorem soundIntegerRange_const {x : Expr} {d : ℤ} (hx : x.Typed s) (hd : t.Contains d) :
    soundIntegerRange (x.constLike d) = some (d, d) := by
  rw [constLike_eq hx]
  have hc : committed s d = .int d := by
    rw [hT.committed_eq, IntType.wrap_of_contains hd]
  have hr : (constOfType s d).range = some (.int d, .int d) := by
    unfold constOfType range
    simp only [hc]
    rfl
  unfold soundIntegerRange
  rw [show (constOfType s d).dtype = s from rfl, integerDtypeBounds_eq hT.intType hT.ne_bool, hr]
  simp only [Option.bind_eq_bind, Option.bind_some, integerValue]
  rw [if_pos ⟨hd.1, le_refl _, hd.2⟩]

/-- A quotient by a positive constant is accepted with its dividend. -/
theorem accepted_constDiv {x : Expr} {d : ℤ} {lo hi : ℤ} (hx : Accepted s x)
    (hrange : soundIntegerRange x = some (lo, hi)) (hlo : t.Contains lo) (hhi : t.Contains hi)
    (hd : 0 < d) (hdt : t.Contains d) : Accepted s (binary .floorDiv x (x.constLike d) s) := by
  have hdtype : x.dtype = s := hx.typed.dtype_eq
  have hrange' := soundIntegerRange_const hT hx.typed hdt
  have hN := hT.half_bounds
  have hquot : ∀ v, t.Contains v → ∃ q, checkedDivEuclid v d = some q ∧ t.min ≤ q ∧ q ≤ t.max := by
    intro v hv
    have hq := fdiv_contains hv hdt (by omega) (by omega)
    rw [Int.fdiv_eq_ediv_of_nonneg v hd.le] at hq
    refine ⟨v / d, ?_, hq⟩
    rw [hT.contains_iff] at hq
    unfold checkedDivEuclid RangeEval.checkedI128
    rw [if_neg (by omega), if_pos (by omega)]
  obtain ⟨q₁, h₁, hq₁⟩ := hquot lo hlo
  obtain ⟨q₂, h₂, hq₂⟩ := hquot hi hhi
  refine ⟨⟨hx.typed, constLike_typed hx.typed d, rfl⟩, ?_⟩
  have hbin : integerBinaryDoesNotWrap .floorDiv x (x.constLike d) s = true := by
    unfold integerBinaryDoesNotWrap
    rw [if_neg (by simp [hdtype, constLike, dtype]), integerDtypeBounds_eq hT.intType hT.ne_bool,
      hrange, hrange']
    simp only [endResults]
    rw [if_neg (by omega), h₁, h₂]
    simp [hq₁, hq₂]
  unfold integerArithmeticDoesNotWrap
  rw [hx.noWrap, hbin]
  rfl

/-- An accepted division: the divisor is not zero. -/
theorem accepted_division {isMod : Bool} {x y : Expr}
    (h : Accepted s (binary (if isMod then .floorMod else .floorDiv) x y s)) :
    y.value ρ ≠ 0 ∧
      ∃ lo hi, soundIntegerRange x = some (lo, hi) ∧ t.Contains lo ∧ t.Contains hi := by
  have hw := h.noWrap
  unfold integerArithmeticDoesNotWrap at hw
  simp only [Bool.and_eq_true] at hw
  obtain ⟨lhsMin, lhsMax, rhsMin, rhsMax, hra, hrb, hall⟩ :=
    integerBinaryDoesNotWrap_iff hT.intType hT.ne_bool hw.2
  have hea := accepted_exact (ρ := ρ) hT.intType hT.ne_bool h.lhs
  have heb := accepted_exact (ρ := ρ) hT.intType hT.ne_bool h.rhs
  obtain ⟨hl, hu, hx⟩ := hea.of_soundIntegerRange hT.intType hT.ne_bool h.typed.1.dtype_eq hra
  obtain ⟨hl', hu', hy⟩ := heb.of_soundIntegerRange hT.intType hT.ne_bool h.typed.2.1.dtype_eq hrb
  have hzero := (endResults_contains hl hu hl' hu' hx hy hall).2 (by cases isMod <;> simp)
  exact ⟨by omega, lhsMin, lhsMax, hra, hl, hu⟩

theorem foldDivmodDepth_value {depth : ℕ} {isMod : Bool} {x y r : Expr}
    (hord : ∀ l, (order l).Perm l)
    (horig : Accepted s (binary (if isMod then .floorMod else .floorDiv) x y s))
    (hpromise : ∀ l m, x = leaf l → l.multipleOf = some m → (m : ℤ) ∣ ρ.val l)
    (hsafe : ∀ c, y.constInt = some c → 0 < c → QuotientsExact mixed isMod x c)
    (h : foldDivmodDepth mixed order nodeCount depth isMod x y = some r) :
    Folds s ρ r (floorOp isMod (x.value ρ) (y.value ρ)) := by
  induction depth generalizing isMod y r with
  | zero => cases h
  | succ depth ih =>
    have hx := horig.lhs
    have hy := horig.rhs
    obtain ⟨hy0, lo, hi, hrange, hlo, hhi⟩ := accepted_division hT (ρ := ρ) horig
    unfold foldDivmodDepth at h
    simp only [bind_eq_some] at h
    obtain ⟨⟨yMin, yMax⟩, _, h⟩ := h
    dsimp only at h
    split at h
    · cases h
    · split at h
      · next result hres =>
        subst h
        refine cancelDivmod_value hT hx hy hy0 ?_ hres
        intro hm
        subst hm
        exact horig
      · split at h
        · next result hres =>
          subst h
          exact paramMultiple_value hT hx.typed hy.typed hpromise hres
        · split at h
          · next peeled constant hpop =>
            split at h
            · next result hres =>
              cases h
              have hc : ∃ c, y.constInt = some c ∧ 0 < c := by
                unfold constDenominatorRules at hres
                cases hyc : y.constInt with
                | none =>
                  rw [hyc] at hres
                  cases hres
                | some c =>
                  rw [hyc] at hres
                  dsimp only at hres
                  split at hres
                  · next hc => exact ⟨c, rfl, hc⟩
                  · cases hres
              obtain ⟨c, hyc, hc0⟩ := hc
              obtain ⟨_, hct⟩ := constInt_value hT (ρ := ρ) hy.typed hyc
              have hs := hsafe c hyc hc0
              refine constDenominatorRules_value hT hx hy.typed hyc hpop hs ?_ hres
              intro d hd nested hnested
              -- the quotient by a smaller divisor
              obtain ⟨hd2, hdc, hdvd⟩ := nestDivisors_spec hd
              have hdt := hT.contains_between hct (by omega : 0 ≤ d) hdc.le
              have hdv : (x.constLike d).value ρ = d := hT.constLike_exact hx.typed hdt
              have := @ih false (x.constLike d) nested
                (accepted_constDiv hT hx hrange hlo hhi (by omega) hdt) (by
                  intro c' hc' _
                  have hcd : c' = d := by
                    rw [← (constInt_value hT (ρ := ρ) (constLike_typed hx.typed d) hc').1, hdv]
                  subst hcd
                  exact ⟨fun _ => hs.nested c' hd,
                    fun d' hd' => hs.nested d' (nestDivisors_mono hdc hdvd hd')⟩) hnested
              rw [hdv] at this
              exact this
            · exact variableDenominatorRules_value hT hord hx hy hy0 h
          · cases h

end

/-! ## The rewrite -/

/-- The fold of an accepted division, where the folded tree is accepted too. -/
theorem foldDivmodGeneral_accepted (ht : intType s = some t) (hs : s ≠ .bool)
    (hord : ∀ l, (order l).Perm l) (isMod : Bool) {x y r : Expr} {d : ScalarDType}
    (horig : Accepted s (binary (if isMod then .floorMod else .floorDiv) x y d))
    (hr : Accepted s r) (hpromise : ∀ l m, x = leaf l → l.multipleOf = some m → (m : ℤ) ∣ ρ.val l)
    (hsafe : ∀ c, y.constInt = some c → 0 < c → QuotientsExact mixed isMod x c)
    (hfold : foldDivmodGeneral mixed order nodeCount isMod x y = some r) :
    r.value ρ = floorOp isMod (x.value ρ) (y.value ρ) := by
  have hT : SignedType s t := by
    unfold foldDivmodGeneral foldDivmodDepth at hfold
    simp only [bind_eq_some] at hfold
    obtain ⟨⟨lo, hi⟩, hrange, _⟩ := hfold
    exact (intRange_bounds (ρ := ρ) ht hs horig.rhs hrange).1
  obtain rfl : d = s := horig.typed.2.2
  exact (foldDivmodDepth_value hT (ρ := ρ) hord horig hpromise hsafe hfold).value hr

/-- The fold of a floor quotient or of a floor remainder, accepted by the no-wrap proof, has the
value of the division.  A PARAM keeps the multiple it declares, and the remainder sums that decide
the quotients looked at do not wrap. -/
theorem foldDivmodGeneral_value (mixed : ArithOp → Expr → Expr → Option Expr)
    (order : List Expr → List Expr) (hord : ∀ l, (order l).Perm l) (nodeCount : Expr → ℕ)
    (ρ : Assignment) (isMod : Bool) (x y r r' : Expr) (d : ScalarDType)
    (hfold : foldDivmodGeneral mixed order nodeCount isMod x y = some r)
    (hexact : exactIntegerRewrite (binary (if isMod then .floorMod else .floorDiv) x y d) r =
      some r')
    (hpromise : ∀ l m, x = leaf l → l.multipleOf = some m → (m : ℤ) ∣ ρ.val l)
    (hsafe : ∀ c, y.constInt = some c → 0 < c → QuotientsExact mixed isMod x c) :
    r'.machineValue ρ =
      if isMod then
        x.machineValue ρ - y.machineValue ρ * (x.machineValue ρ).fdiv (y.machineValue ρ)
      else (x.machineValue ρ).fdiv (y.machineValue ρ) := by
  obtain rfl := exactIntegerRewrite_eq hexact
  obtain ⟨s, t, ht, hs, horig, hr, -⟩ := exactIntegerRewrite_accepted hexact
  rw [accepted_machineValue ht hs hr, accepted_machineValue ht hs horig.lhs,
    accepted_machineValue ht hs horig.rhs,
    foldDivmodGeneral_accepted ht hs hord isMod horig hr hpromise hsafe hfold]
  cases isMod with
  | true => exact Int.fmod_def _ _
  | false => rfl

/-- `(i * 6 + j) // 6`, with `i` in `[3, 9]` and `j` in `[2, 5]`, is `i * 1`. -/
theorem foldDivmodGeneral_value_sixfold :
    let i : Expr := leaf ⟨0, .int32, some (3, 9), by decide, none⟩
    let j : Expr := leaf ⟨1, .int32, some (2, 5), by decide, none⟩
    let c := constOfType .int32 6
    let x := binary .add (binary .mul i c .int32) j .int32
    let r := binary .mul i (constOfType .int32 1) .int32
    r.machineValue .least = (x.machineValue .least).fdiv (c.machineValue .least) := by
  intro i j c x r
  refine foldDivmodGeneral_value (fun _ _ _ => none) id (fun _ => List.Perm.refl _) (fun _ => 0)
    .least false x c r r .int32 (by decide +kernel) (by decide +kernel) ?_ ?_
  · intro l m hl
    simp [x] at hl
  · intro c' hc' _
    have hc : c.constInt = some 6 := by decide +kernel
    obtain rfl : 6 = c' := Option.some.inj (hc.symm.trans hc')
    constructor
    · intro _ rem hrem
      have hj : decidingRemainder (fun _ _ _ => none) x 6 =
          some j := by decide +kernel
      rw [hj] at hrem
      cases hrem
      decide +kernel
    · intro d hd
      have hnil : nestDivisors 6 (numeratorTerms x) ((numeratorTerms x).map constFactor) = [] := by
        decide +kernel
      rw [hnil] at hd
      cases hd

/-- A PARAM with values in `[8, 100]` that is declared to be a multiple of `16` has the accepted
remainder `0` by `16`, also at the value `8`.  And `(t * -2 + u + v * 4) // 4`, of `int8` with
`t = 64`, has the accepted quotient `t * -1 + v - 32`, decided by a remainder sum that wraps. -/
theorem foldDivmodGeneral_value_fails :
    (let p : Expr := leaf ⟨0, .int32, some (8, 100), by decide, some 16⟩
      let c := constOfType .int32 16
      let r := constOfType .int32 0
      foldDivmodGeneral (fun _ _ _ => none) id (fun _ => 0) true p c = some r ∧
        exactIntegerRewrite (binary .floorMod p c .int32) r = some r ∧
        r.value .least ≠ (p.value .least).fmod (c.value .least)) ∧
      (let t : Expr := leaf ⟨0, .int8, some (64, 64), by decide, none⟩
        let u : Expr := leaf ⟨1, .int8, some (0, 3), by decide, none⟩
        let v : Expr := leaf ⟨2, .int8, some (0, 1), by decide, none⟩
        let k := constOfType .int8
        let add := fun a b : Expr => binary .add a b .int8
        let mul := fun a b : Expr => binary .mul a b .int8
        let x := add (add (mul t (k (-2))) u) (mul v (k 4))
        let r := add (add (mul (mul t (k 1)) (k (-1))) (mul v (k 1))) (k (-32))
        foldDivmodGeneral (fun _ _ _ => none) id (fun _ => 0) false x (k 4) = some r ∧
          exactIntegerRewrite (binary .floorDiv x (k 4) .int8) r = some r ∧
          r.value .least ≠ (x.value .least).fdiv ((k 4).value .least)) := by
  decide +kernel

end Svod.Symbolic
