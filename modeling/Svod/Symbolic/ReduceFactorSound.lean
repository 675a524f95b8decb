/-
  Svod.Symbolic.ReduceFactorSound

  What moving factors out of a reduction keeps.

  The factors of a product can be regrouped, for its value modulo the size of the
  type and for its shape alike.  A factor that reads no range of the reduction,
  and has none of the leading axes, has one value in all contributions; a sum
  then distributes over it.  A maximum does so as long as the factor keeps the
  largest contribution the largest.
-/

import Mathlib.Data.ZMod.Basic
import Svod.Symbolic.FactorSound
import Svod.Symbolic.ReduceFactor

namespace Svod.Symbolic.ReduceFactor

open Svod.Ir Svod.Lib

variable {t : IntType} {E : Env} {r : Reduce} {k k' : Counters} {l l' : Lane}

/-! ## Products -/

/-- A quantity that is multiplicative on products. -/
def Multiplicative {M : Type} [CommMonoid M] (f : Body → M) : Prop :=
  ∀ a b, f (.mul a b) = f a * f b

theorem shape_multiplicative : Multiplicative Body.shape := fun _ _ => rfl

theorem wrap_cast (v : ℤ) : ((t.wrap v : ℤ) : ZMod (2 ^ t.bits)) = v := by
  rw [ZMod.intCast_eq_intCast_iff]
  exact_mod_cast wrap_agree v

theorem agree_iff_cast {a b : ℤ} :
    Agree t a b ↔ (a : ZMod (2 ^ t.bits)) = b := by
  rw [ZMod.intCast_eq_intCast_iff]
  unfold Agree modulus
  exact_mod_cast Iff.rfl

theorem eval_multiplicative (E : Env) (k : Counters) (l : Lane) :
    Multiplicative fun b => ((b.eval t E k l : ℤ) : ZMod (2 ^ t.bits)) := by
  intro a b
  simp only [Body.eval]
  rw [wrap_cast, Int.cast_mul]

section

variable {M : Type} [CommMonoid M] {f : Body → M} (hf : Multiplicative f)

include hf

theorem splitUop_prod (b : Body) : (b.splitUop.map f).prod = f b := by
  induction b with
  | factor _ | const _ => simp [Body.splitUop]
  | expanded _ _ => simp [Body.splitUop]
  | mul a b iha ihb => rw [Body.splitUop, List.map_append, List.prod_append, iha, ihb, hf]

omit hf in
/-- The factors in two groups. -/
theorem filter_prod (p : Body → Bool) (bs : List Body) :
    ((bs.filter p).map f).prod * ((bs.filter (!p ·)).map f).prod = (bs.map f).prod := by
  rw [← List.prod_append, ← List.map_append]
  exact ((List.filter_append_perm p bs).map f).prod_eq

theorem foldlM_expectMul_prod {b p : Body} {bs : List Body}
    (h : bs.foldlM expectMul b = .ok p) : f p = f b * (bs.map f).prod := by
  induction bs generalizing b with
  | nil =>
    cases h
    simp
  | cons c cs ih =>
    rw [List.foldlM_cons] at h
    unfold expectMul at h
    cases hm : b.tryMul c with
    | none =>
      rw [hm] at h
      cases h
    | some m =>
      rw [hm] at h
      unfold Body.tryMul at hm
      split at hm
      · cases hm
        rw [ih h, hf, List.map_cons, List.prod_cons, mul_assoc]
      · cases hm

theorem mulAll_prod {p : Body} {bs : List Body} (h : mulAll bs = .ok (some p)) :
    f p = (bs.map f).prod := by
  cases bs with
  | nil => cases h
  | cons b bs =>
    simp only [mulAll] at h
    cases hfold : bs.foldlM expectMul b with
    | error e =>
      rw [hfold] at h
      cases h
    | ok q =>
      rw [hfold] at h
      cases h
      rw [foldlM_expectMul_prod hf hfold, List.map_cons, List.prod_cons]

end

/-- Factors whose shapes join have a product. -/
theorem foldlM_expectMul_ok {b : Body} {bs : List Body} {s : List ℕ}
    (h : b.shape * (bs.map Body.shape).prod = some s) :
    ∃ p, bs.foldlM expectMul b = .ok p := by
  induction bs generalizing b with
  | nil => exact ⟨b, rfl⟩
  | cons c cs ih =>
    rw [List.map_cons, List.prod_cons, ← mul_assoc] at h
    obtain ⟨s₁, -, hs₁, -, -⟩ := Extent.mul_eq_some.mp h
    have hm : b.tryMul c = some (.mul b c) := by
      unfold Body.tryMul
      rw [hs₁]
    rw [List.foldlM_cons]
    unfold expectMul
    rw [hm]
    exact ih h

theorem mulAll_ok {bs : List Body} {s : List ℕ} (h : (bs.map Body.shape).prod = some s) :
    (bs = [] ∧ mulAll bs = .ok none) ∨ ∃ p, mulAll bs = .ok (some p) := by
  cases bs with
  | nil => exact Or.inl ⟨rfl, rfl⟩
  | cons b bs =>
    rw [List.map_cons, List.prod_cons] at h
    obtain ⟨p, hp⟩ := foldlM_expectMul_ok h
    refine Or.inr ⟨p, ?_⟩
    simp only [mulAll, hp]
    rfl

/-- What products keep, the product of a list has. -/
theorem mulAll_induction {P : Body → Prop} (hmul : ∀ a b, P a → P b → P (.mul a b)) {p : Body}
    {bs : List Body} (hbs : ∀ b ∈ bs, P b) (h : mulAll bs = .ok (some p)) : P p := by
  cases bs with
  | nil => cases h
  | cons b bs =>
    simp only [mulAll] at h
    cases hfold : bs.foldlM expectMul b with
    | error e =>
      rw [hfold] at h
      cases h
    | ok q =>
      rw [hfold] at h
      cases h
      have hb : P b := hbs b (List.mem_cons_self ..)
      have hrest : ∀ c ∈ bs, P c := fun c hc => hbs c (List.mem_cons_of_mem _ hc)
      clear hbs
      induction bs generalizing b with
      | nil =>
        cases hfold
        exact hb
      | cons c cs ih =>
        rw [List.foldlM_cons] at hfold
        unfold expectMul at hfold
        cases hm : b.tryMul c with
        | none =>
          rw [hm] at hfold
          cases hfold
        | some m =>
          rw [hm] at hfold
          unfold Body.tryMul at hm
          split at hm
          · cases hm
            exact ih _ hfold (hmul b c hb (hrest c (List.mem_cons_self ..)))
              fun d hd => hrest d (List.mem_cons_of_mem _ hd)
          · cases hm

/-! ## Types -/

/-- Each value is of the type. -/
def Env.Typed (t : IntType) (E : Env) : Prop := ∀ id ks is, t.Contains (E.factor id ks is)

def Body.Typed (t : IntType) : Body → Prop
  | .factor _ => True
  | .const v => t.Contains v
  | .expanded v _ => t.Contains v
  | .mul a b => a.Typed t ∧ b.Typed t

theorem Body.Typed.eval_contains {b : Body} (hb : b.Typed t) (hE : E.Typed t) :
    t.Contains (b.eval t E k l) := by
  cases b with
  | factor f => exact hE _ _ _
  | const v => exact hb
  | expanded v s => exact hb
  | mul a b => exact t.wrap_contains _

theorem Body.Typed.splitUop {b : Body} (hb : b.Typed t) : ∀ c ∈ b.splitUop, c.Typed t := by
  induction b with
  | factor f => simpa [Body.splitUop] using hb
  | const v => simpa [Body.splitUop] using hb
  | expanded v s => simpa [Body.splitUop] using hb
  | mul a b iha ihb =>
    intro c hc
    rcases List.mem_append.mp hc with h | h
    · exact iha hb.1 c h
    · exact ihb hb.2 c h

/-! ## Ranks -/

/-- The number of dimensions. -/
def Body.rank (b : Body) : ℕ := (Option.getD b.shape []).length

theorem prod_length_le {bs : List Body} {s : List ℕ} {m : ℕ}
    (h : (bs.map Body.shape).prod = some s) : s.length ≤ m ↔ ∀ b ∈ bs, b.rank ≤ m := by
  induction bs generalizing s with
  | nil =>
    obtain rfl : [] = s := Option.some.inj h
    simp
  | cons b bs ih =>
    rw [List.map_cons, List.prod_cons] at h
    obtain ⟨s₁, s₂, hs₁, hs₂, hs⟩ := Extent.mul_eq_some.mp h
    have hrank : b.rank = s₁.length := by
      unfold Body.rank
      rw [hs₁]
      rfl
    rw [broadcast_length hs, max_le_iff, ih hs₂, List.forall_mem_cons, hrank]

/-! ## Factors in two groups -/

/-- The product of factors, of the type. -/
def productOf (t : IntType) (E : Env) (bs : List Body) (k : Counters) (l : Lane) : ℤ :=
  t.wrap (bs.map (·.eval t E k l)).prod

/-- The factors have none of the leading axes. -/
def FitsBelow (bs : List Body) (r : Reduce) : Prop := ∀ b ∈ bs, b.rank + r.numAxes ≤ r.src.rank

/-- The body of a reduction is a product of two groups of factors, and the two bodies are their
    products; the second group reads no range of the reduction. -/
structure Factoring (t : IntType) (r : Reduce) (bi bo : List Body) (inside outside : Body) : Prop
    where
  srcEval : ∀ E k l, Agree t (r.src.eval t E k l)
    ((bi.map (·.eval t E k l)).prod * (bo.map (·.eval t E k l)).prod)
  insideEval : ∀ E k l, Agree t (inside.eval t E k l) (bi.map (·.eval t E k l)).prod
  outsideEval : ∀ E k l, Agree t (outside.eval t E k l) (bo.map (·.eval t E k l)).prod
  outsideShape : outside.shape = (bo.map Body.shape).prod
  insideTyped : t.Contains 1 → r.src.Typed t → inside.Typed t
  outsideReads : outside.anyInSubtree (r.ranges.map (·.id)) = false
  shape : ∀ s, r.src.shape = some s → inside.shape * outside.shape = some s

theorem prod_cast (bs : List Body) (E : Env) (k : Counters) (l : Lane) :
    (((bs.map (·.eval t E k l)).prod : ℤ) : ZMod (2 ^ t.bits)) =
      (bs.map fun b => ((b.eval t E k l : ℤ) : ZMod (2 ^ t.bits))).prod := by
  have hmap := map_list_prod (Int.castRingHom (ZMod (2 ^ t.bits))) (bs.map (·.eval t E k l))
  rw [List.map_map] at hmap
  exact hmap

theorem mulAll_eval {p : Body} {bs : List Body} (h : mulAll bs = .ok (some p)) (E : Env)
    (k : Counters) (l : Lane) : Agree t (p.eval t E k l) (bs.map (·.eval t E k l)).prod := by
  have hcast : ((p.eval t E k l : ℤ) : ZMod (2 ^ t.bits)) =
      (bs.map fun b => ((b.eval t E k l : ℤ) : ZMod (2 ^ t.bits))).prod :=
    mulAll_prod (eval_multiplicative E k l) h
  rw [agree_iff_cast, hcast, prod_cast]

/-- The factors of the body by whether they satisfy `p`, where those that do read no range of the
    reduction.  With none left inside, the inner product is a one of the body's shape. -/
theorem factoring_of_filter {s : List ℕ} (p : Body → Bool)
    (hp : ∀ b, p b → b.anyInSubtree (r.ranges.map (·.id)) = false) (hs : r.src.shape = some s)
    (hne : r.src.splitUop.filter p ≠ []) :
    ∃ inside outside, mulAll (r.src.splitUop.filter p) = .ok (some outside) ∧
      (mulAll (r.src.splitUop.filter (!p ·)) = .ok (some inside) ∨
        mulAll (r.src.splitUop.filter (!p ·)) = .ok none ∧ inside = .expanded 1 s) ∧
      Factoring t r (r.src.splitUop.filter (!p ·)) (r.src.splitUop.filter p) inside outside := by
  have hshape : ((r.src.splitUop.filter p).map Body.shape).prod *
      ((r.src.splitUop.filter (!p ·)).map Body.shape).prod = some s := by
    rw [filter_prod, splitUop_prod shape_multiplicative, hs]
  have hsrc : ∀ E k l, Agree t (r.src.eval t E k l)
      (((r.src.splitUop.filter (!p ·)).map (·.eval t E k l)).prod *
        ((r.src.splitUop.filter p).map (·.eval t E k l)).prod) := fun E k l => by
    have hall : ((r.src.eval t E k l : ℤ) : ZMod (2 ^ t.bits)) =
        (r.src.splitUop.map fun b => ((b.eval t E k l : ℤ) : ZMod (2 ^ t.bits))).prod :=
      (splitUop_prod (eval_multiplicative E k l) r.src).symm
    rw [agree_iff_cast, Int.cast_mul, prod_cast, prod_cast, hall, mul_comm]
    exact (filter_prod p r.src.splitUop).symm
  obtain ⟨so, si, hso, hsi, -⟩ := Extent.mul_eq_some.mp hshape
  rcases mulAll_ok hso with ⟨hnil, -⟩ | ⟨outside, hout⟩
  · exact absurd hnil hne
  have hshapeOut : outside.shape = some so := by rw [mulAll_prod shape_multiplicative hout, hso]
  have hreads : outside.anyInSubtree (r.ranges.map (·.id)) = false :=
    mulAll_induction (P := fun b => b.anyInSubtree (r.ranges.map (·.id)) = false)
      (fun a b ha hb => by simp [Body.anyInSubtree, ha, hb])
      (fun b hb => hp b (List.mem_filter.mp hb).2) hout
  rcases mulAll_ok hsi with ⟨hnil, hin⟩ | ⟨inside, hin⟩
  · -- nothing stays: the reduction is of ones
    refine ⟨.expanded 1 s, outside, hout, Or.inr ⟨hin, rfl⟩, hsrc, ?_,
      fun E k l => mulAll_eval hout E k l, ?_, fun h1 _ => h1, hreads, ?_⟩
    · intro E k l
      rw [hnil]
      exact Agree.refl _
    · rw [hshapeOut, hso]
    · intro s' hs'
      obtain rfl : s = s' := Option.some.inj (hs.symm.trans hs')
      rw [hnil, List.map_nil, List.prod_nil, mul_one, hso] at hshape
      obtain rfl : so = s := Option.some.inj hshape
      rw [hshapeOut]
      exact broadcast_self so
  · refine ⟨inside, outside, hout, Or.inl hin, hsrc, fun E k l => mulAll_eval hin E k l,
      fun E k l => mulAll_eval hout E k l, ?_, fun _ hsrc => ?_, hreads, ?_⟩
    · rw [hshapeOut, hso]
    · exact mulAll_induction (P := Body.Typed t) (fun a b ha hb => ⟨ha, hb⟩)
        (fun b hb => hsrc.splitUop b (List.mem_filter.mp hb).1) hin
    · intro s' hs'
      obtain rfl : s = s' := Option.some.inj (hs.symm.trans hs')
      rw [hshapeOut, mulAll_prod shape_multiplicative hin, ← hso, mul_comm]
      exact hshape

/-! ## The chain of factors -/

/-- The factors that stay, and those that move out. -/
def Reduce.insideFactors (t : IntType) (r : Reduce) : List Body :=
  r.src.splitUop.filter (!movesOut t r ·)

def Reduce.outsideFactors (t : IntType) (r : Reduce) : List Body :=
  r.src.splitUop.filter (movesOut t r)

/-- What `reduce_mul_chain_sym` builds: the two products. -/
theorem reduceMulChainSym_eq {s : List ℕ} (hs : r.src.shape = some s)
    (hne : r.outsideFactors t ≠ []) : ∃ inside outside,
      reduceMulChainSym t r = .ok (({ r with src := inside } : Reduce).tryMul outside) ∧
      Factoring t r (r.insideFactors t) (r.outsideFactors t) inside outside := by
  obtain ⟨inside, outside, hout, hin, hfac⟩ := factoring_of_filter (t := t) (movesOut t r)
    (fun b hb => by
      simp only [movesOut, Bool.and_eq_true, Bool.not_eq_true'] at hb
      exact hb.1) hs hne
  refine ⟨inside, outside, ?_, hfac⟩
  rcases hin with hin | ⟨hin, rfl⟩
  · simp only [reduceMulChainSym, hout, hin]
    rfl
  · simp only [reduceMulChainSym, hout, hin, hs]
    rfl

theorem reduceMulChainSym_nil (h : r.outsideFactors t = []) :
    reduceMulChainSym t r = .ok none := by
  unfold Reduce.outsideFactors at h
  simp only [reduceMulChainSym, h]
  rfl

/-! ## Independence -/

/-- A node that reads none of the ids has one value in all iterations, and depends on the axes
    it has. -/
theorem eval_congr {b : Body} {ids : List ℕ} {s : List ℕ} (hb : b.anyInSubtree ids = false)
    (hk : AgreeOff ids k k') (hs : b.shape = some s) (hl : ∀ axis < s.length, l axis = l' axis) :
    b.eval t E k l = b.eval t E k' l' := by
  induction b generalizing s with
  | factor f =>
    obtain rfl : f.shape = s := Option.some.inj hs
    have hclip : clip f.shape l = clip f.shape l' := by
      unfold clip
      refine List.mapIdx_eq_mapIdx_iff.mpr fun i hi => ?_
      rw [hl i hi]
    simp only [Body.eval, hclip, hk.reads hb]
  | const v => rfl
  | expanded v s => rfl
  | mul a b iha ihb =>
    simp only [Body.anyInSubtree, Bool.or_eq_false_iff] at hb
    obtain ⟨s₁, s₂, h₁, h₂, hjoin⟩ := Extent.mul_eq_some.mp hs
    have hlen := broadcast_length hjoin
    simp only [Body.eval]
    rw [iha hb.1 h₁ fun axis h => hl axis (by omega),
      ihb hb.2 h₂ fun axis h => hl axis (by omega)]

/-! ## Leading axes -/

/-- The lanes of the leading axes differ at these axes only. -/
theorem leadingLanes_agree {n : ℕ} {s : List ℕ} (h : l' ∈ leadingLanes n s l) {axis : ℕ}
    (haxis : axis < s.length - n) : l' axis = l axis := by
  refine agreeOff_of_mem_iterations h axis ?_
  simp only [List.map_map, List.mem_map, List.mem_range'_1, not_exists, not_and]
  rintro i hi rfl
  simp only [Function.comp_apply] at haxis
  omega

/-- A shape with the same leading axes runs over the same lanes. -/
theorem leadingLanes_congr {n : ℕ} {s s' : List ℕ} (hn : n ≤ s.length)
    (hlen : n = 0 ∨ s'.length = s.length) (hdrop : s'.drop (s.length - n) = s.drop (s.length - n)) :
    leadingLanes n s' l = leadingLanes n s l := by
  rcases hlen with rfl | hlen
  · rfl
  · unfold leadingLanes
    rw [hlen]
    refine iterations_congr ?_ l
    intro loop hloop _
    simp only [List.mem_map, List.mem_range'_1] at hloop
    obtain ⟨axis, haxis, rfl⟩ := hloop
    have hget (u : List ℕ) : u.getD axis 1 =
        (u.drop (s.length - n)).getD (axis - (s.length - n)) 1 := by
      have hi : s.length - n + (axis - (s.length - n)) = axis := by omega
      rw [List.getD_eq_getElem?_getD, List.getD_eq_getElem?_getD, List.getElem?_drop, hi]
    rw [hget s', hget s, hdrop]

/-! ## Contributions -/

/-- The counters and lanes of the contributions. -/
def Reduce.points (E : Env) (r : Reduce) (k : Counters) (l : Lane) : List (Counters × Lane) :=
  (iterations E.trips r.ranges k).flatMap fun k' =>
    (leadingLanes r.numAxes (Option.getD r.src.shape []) l).map fun l' => (k', l')

theorem contributions_eq (r : Reduce) : r.contributions t E k l =
    (r.points E k l).map fun p => r.src.eval t E p.1 p.2 := by
  unfold Reduce.contributions Reduce.points
  rw [List.map_flatMap]
  simp only [List.map_map]
  rfl

section

variable {bi bo : List Body} {inside outside : Body} {s : List ℕ}
  (hc : Factoring t r bi bo inside outside) (hs : r.src.shape = some s) (hn : r.numAxes ≤ s.length)

include hc hs hn

/-- The shapes of the two products, and where they fit. -/
theorem Factoring.shapes : ∃ si so, inside.shape = some si ∧ outside.shape = some so ∧
    broadcast si so = some s ∧ (FitsBelow bo r ↔ so.length + r.numAxes ≤ s.length) := by
  obtain ⟨si, so, hsi, hso, hjoin⟩ := Extent.mul_eq_some.mp (hc.shape s hs)
  refine ⟨si, so, hsi, hso, hjoin, ?_⟩
  have hrank : r.src.rank = s.length := by
    unfold Body.rank
    rw [hs]
    rfl
  have hprod : (bo.map Body.shape).prod = some so := by
    rw [← hc.outsideShape, hso]
  have hle := prod_length_le (m := s.length - r.numAxes) hprod
  unfold FitsBelow
  rw [hrank]
  constructor
  · intro h
    have := hle.mpr fun b hb => by have := h b hb; omega
    omega
  · intro h b hb
    have := hle.mp (by omega) b hb
    omega

/-- Where the factors outside have none of the leading axes, the shape is kept, and the reduction
    runs over the same points. -/
theorem Factoring.shape_eq (hfits : FitsBelow bo r) :
    ({ r with src := inside } : Reduce).shape * outside.shape = r.shape ∧
      ∀ E k l, ({ r with src := inside } : Reduce).points E k l = r.points E k l := by
  obtain ⟨si, so, hsi, hso, hjoin, hiff⟩ := hc.shapes hs hn
  have hrank := hiff.mp hfits
  have hlen := broadcast_length hjoin
  have hshape : r.shape = some (s.take (s.length - r.numAxes)) := by
    unfold Reduce.shape reduceShape
    rw [hs]
    exact if_pos hn
  have hsilen : r.numAxes = 0 ∨ si.length = s.length := by omega
  have hred : ({ r with src := inside } : Reduce).shape =
      some (si.take (s.length - r.numAxes)) := by
    show reduceShape r.numAxes inside.shape = _
    unfold reduceShape
    rw [hsi]
    rcases hsilen with h0 | hlen'
    · -- no leading axes: the whole shape stays
      have hfull : si.take (s.length - 0) = si := List.take_of_length_le (by omega)
      rw [h0, hfull]
      simp only [Nat.zero_le, Nat.sub_zero, List.take_length]
      exact if_pos trivial
    · simp only [hlen']
      exact if_pos hn
  refine ⟨?_, fun E k l => ?_⟩
  · rw [hshape, hred, hso]
    exact broadcast_take hjoin (by omega)
  · have hlanes (l : Lane) : leadingLanes r.numAxes si l = leadingLanes r.numAxes s l :=
      leadingLanes_congr hn hsilen (broadcast_drop hjoin (by omega)).symm
    unfold Reduce.points
    simp only [hs, hsi, Option.getD_some, hlanes]

/-- A shape that is kept shows that the factors fit. -/
theorem Factoring.fits_of_shape
    (h : ({ r with src := inside } : Reduce).shape * outside.shape = r.shape) :
    FitsBelow bo r := by
  obtain ⟨si, so, hsi, hso, hjoin, hiff⟩ := hc.shapes hs hn
  have hshape : r.shape = some (s.take (s.length - r.numAxes)) := by
    unfold Reduce.shape reduceShape
    rw [hs]
    exact if_pos hn
  rw [hshape] at h
  obtain ⟨s₁, s₂, -, h₂, hjoin'⟩ := Extent.mul_eq_some.mp h
  obtain rfl : so = s₂ := Option.some.inj (hso.symm.trans h₂)
  have hlen := broadcast_length hjoin'
  rw [List.length_take] at hlen
  exact hiff.mpr (by omega)

/-- Each contribution is the one of the factors inside, times those outside. -/
theorem Factoring.contributions_eq (hfits : FitsBelow bo r) (h1 : t.Contains 1)
    (hsrc : r.src.Typed t) (hE : E.Typed t) :
    ({ r with src := inside } : Reduce).contributions t E k l =
        ((r.points E k l).map fun p => productOf t E bi p.1 p.2) ∧
      r.contributions t E k l = ((r.points E k l).map fun p => productOf t E bi p.1 p.2).map
        fun b => t.wrap (b * productOf t E bo k l) := by
  obtain ⟨si, so, hsi, hso, hjoin, hiff⟩ := hc.shapes hs hn
  have hrank := hiff.mp hfits
  have hin (k' : Counters) (l' : Lane) : inside.eval t E k' l' = productOf t E bi k' l' :=
    ((hc.insideEval E k' l').trans (Int.ModEq.symm (wrap_agree _))).eq
      ((hc.insideTyped h1 hsrc).eval_contains hE) (t.wrap_contains _)
  constructor
  · rw [ReduceFactor.contributions_eq, (hc.shape_eq hs hn hfits).2]
    exact List.map_congr_left fun p _ => hin p.1 p.2
  · rw [ReduceFactor.contributions_eq, List.map_map]
    refine List.map_congr_left fun p hp => ?_
    obtain ⟨k', hk', l', hl', rfl⟩ : ∃ k' ∈ iterations E.trips r.ranges k,
        ∃ l' ∈ leadingLanes r.numAxes s l, (k', l') = p := by
      simpa only [Reduce.points, hs, Option.getD_some, List.mem_flatMap, List.mem_map] using hp
    -- the factors outside have one value at all points
    have hout : outside.eval t E k' l' = outside.eval t E k l :=
      eval_congr hc.outsideReads (agreeOff_of_mem_iterations hk') hso
        fun axis haxis => leadingLanes_agree hl' (by omega)
    have houtv : Agree t (bo.map (·.eval t E k' l')).prod (productOf t E bo k l) := by
      refine (Int.ModEq.symm (hc.outsideEval E k' l')).trans ?_
      rw [hout]
      exact (hc.outsideEval E k l).trans (Int.ModEq.symm (wrap_agree _))
    refine Agree.eq ?_ (hsrc.eval_contains hE) (t.wrap_contains _)
    refine (hc.srcEval E k' l').trans (Agree.trans ?_ (Int.ModEq.symm (wrap_agree _)))
    exact Agree.mul (Int.ModEq.symm (wrap_agree _)) houtv

end

/-! ## Folds -/

theorem fold_add (xs : List ℤ) : Agree t (ReduceOp.add.fold t xs) xs.sum := by
  have hgen : ∀ acc, Agree t (xs.foldl (ReduceOp.add.step t) acc) (acc + xs.sum) := by
    induction xs with
    | nil => intro acc; simp [Agree.refl]
    | cons x xs ih =>
      intro acc
      rw [List.foldl_cons, List.sum_cons, ← add_assoc]
      exact (ih _).trans ((wrap_agree _).add (Agree.refl _))
  have h := hgen 0
  rwa [zero_add] at h

theorem fold_add_contains (xs : List ℤ) : t.Contains (ReduceOp.add.fold t xs) := by
  unfold ReduceOp.fold
  rcases List.eq_nil_or_concat xs with rfl | ⟨ys, y, rfl⟩
  · exact t.contains_zero
  · rw [List.concat_eq_append, List.foldl_append]
    exact t.wrap_contains _

/-- A sum distributes over a factor. -/
theorem fold_add_mul (bs : List ℤ) (a : ℤ) :
    t.wrap (ReduceOp.add.fold t bs * a) = ReduceOp.add.fold t (bs.map fun b => t.wrap (b * a)) := by
  refine Agree.eq ?_ (t.wrap_contains _) (fold_add_contains _)
  have hsum : Agree t (bs.map fun b => t.wrap (b * a)).sum (bs.sum * a) := by
    induction bs with
    | nil => simp [Agree.refl]
    | cons b bs ih =>
      rw [List.map_cons, List.sum_cons, List.sum_cons, add_mul]
      exact (wrap_agree _).add ih
  refine (wrap_agree _).trans (((fold_add bs).mul (Agree.refl a)).trans ?_)
  exact Int.ModEq.symm ((fold_add _).trans hsum)

theorem foldl_max_le_iff (xs : List ℤ) (a c : ℤ) :
    xs.foldl Max.max a ≤ c ↔ a ≤ c ∧ ∀ x ∈ xs, x ≤ c := by
  induction xs generalizing a with
  | nil => simp
  | cons x xs ih =>
    rw [List.foldl_cons, ih, max_le_iff, List.forall_mem_cons, and_assoc]

theorem foldl_max_mem (xs : List ℤ) (a : ℤ) :
    xs.foldl Max.max a = a ∨ xs.foldl Max.max a ∈ xs := by
  induction xs generalizing a with
  | nil => exact Or.inl rfl
  | cons x xs ih =>
    rw [List.foldl_cons]
    rcases ih (Max.max a x) with h | h
    · rw [h]
      rcases max_choice a x with h' | h'
      · exact Or.inl h'
      · rw [h']
        exact Or.inr (List.mem_cons_self ..)
    · exact Or.inr (List.mem_cons_of_mem _ h)

theorem fold_max (xs : List ℤ) : ReduceOp.max.fold t xs = xs.foldl Max.max t.min := rfl

/-- The largest of values of the type is one of them. -/
theorem fold_max_mem {xs : List ℤ} (hne : xs ≠ []) (hxs : ∀ x ∈ xs, t.Contains x) :
    ReduceOp.max.fold t xs ∈ xs := by
  rw [fold_max]
  rcases foldl_max_mem xs t.min with h | h
  · obtain ⟨x, hx⟩ := List.exists_mem_of_ne_nil xs hne
    have hle := ((foldl_max_le_iff xs t.min _).mp le_rfl).2 x hx
    have hge := (hxs x hx).1
    rw [h] at hle ⊢
    exact (le_antisymm hle hge) ▸ hx
  · exact h

/-- Multiplication by `a` keeps the largest of the values the largest. -/
def Scales (t : IntType) (a : ℤ) (bs : List ℤ) : Prop :=
  if bs = [] then t.wrap (t.min * a) = t.min
  else ∀ b ∈ bs, t.wrap (b * a) ≤ t.wrap (ReduceOp.max.fold t bs * a)

theorem fold_max_mul_iff {bs : List ℤ} (hbs : ∀ b ∈ bs, t.Contains b) (a : ℤ) :
    t.wrap (ReduceOp.max.fold t bs * a) = ReduceOp.max.fold t (bs.map fun b => t.wrap (b * a)) ↔
      Scales t a bs := by
  unfold Scales
  split
  · next h =>
    subst h
    exact Iff.rfl
  · next hne =>
    have hle (c : ℤ) : ReduceOp.max.fold t (bs.map fun b => t.wrap (b * a)) ≤ c ↔
        t.min ≤ c ∧ ∀ b ∈ bs, t.wrap (b * a) ≤ c := by
      rw [fold_max, foldl_max_le_iff, List.forall_mem_map]
    constructor
    · intro h b hb
      rw [h]
      exact ((hle _).mp le_rfl).2 b hb
    · intro h
      refine le_antisymm ?_ ((hle _).mpr ⟨(t.wrap_contains _).1, h⟩)
      exact ((hle _).mp le_rfl).2 _ (fold_max_mem hne hbs)

/-! ## Factors outside -/

/-- The reduction of the factors inside, times those outside, has the shape and the value of the
    reduction exactly when the factors outside have none of the leading axes and, under a maximum,
    keep the largest contribution the largest. -/
theorem Factoring.keeps_iff {bi bo : List Body} {inside outside : Body} {s : List ℕ}
    (hc : Factoring t r bi bo inside outside) (hs : r.src.shape = some s)
    (hn : r.numAxes ≤ s.length) (h1 : t.Contains 1) (hsrc : r.src.Typed t) (hE : E.Typed t)
    (hop : r.reduceOp = .add ∨ r.reduceOp = .max) :
    ((⟨{ r with src := inside }, outside⟩ : Factored).shape = r.shape ∧
        (⟨{ r with src := inside }, outside⟩ : Factored).eval t E k l = r.eval t E k l) ↔
      FitsBelow bo r ∧ (r.reduceOp = .max → Scales t (productOf t E bo k l)
        ((r.points E k l).map fun p => productOf t E bi p.1 p.2)) := by
  have hval : ∀ x : ℤ, t.wrap (x * outside.eval t E k l) = t.wrap (x * productOf t E bo k l) := by
    intro x
    have h := (Agree.refl (t := t) x).mul
      ((hc.outsideEval E k l).trans (Int.ModEq.symm (wrap_agree _)))
    exact Agree.eq ((wrap_agree _).trans (h.trans (Int.ModEq.symm (wrap_agree _))))
      (t.wrap_contains _) (t.wrap_contains _)
  have hfold (hfits : FitsBelow bo r) :
      (⟨{ r with src := inside }, outside⟩ : Factored).eval t E k l = r.eval t E k l ↔
        t.wrap (r.reduceOp.fold t ((r.points E k l).map fun p => productOf t E bi p.1 p.2) *
            productOf t E bo k l) =
          r.reduceOp.fold t (((r.points E k l).map fun p => productOf t E bi p.1 p.2).map
            fun b => t.wrap (b * productOf t E bo k l)) := by
    obtain ⟨hin, hall⟩ := hc.contributions_eq (k := k) (l := l) hs hn hfits h1 hsrc hE
    unfold Factored.eval Reduce.eval
    rw [hval, hin, hall]
  have hbs : ∀ b ∈ (r.points E k l).map fun p => productOf t E bi p.1 p.2, t.Contains b := by
    intro b hb
    obtain ⟨p, -, rfl⟩ := List.mem_map.mp hb
    exact t.wrap_contains _
  constructor
  · rintro ⟨hshape, heval⟩
    have hfits := hc.fits_of_shape hs hn hshape
    refine ⟨hfits, fun hmax => ?_⟩
    have h := (hfold hfits).mp heval
    rw [hmax] at h
    exact (fold_max_mul_iff hbs _).mp h
  · rintro ⟨hfits, hscales⟩
    refine ⟨(hc.shape_eq hs hn hfits).1, (hfold hfits).mpr ?_⟩
    rcases hop with hadd | hmax
    · rw [hadd]
      exact fold_add_mul _ _
    · rw [hmax]
      exact (fold_max_mul_iff hbs _).mpr (hscales hmax)

/-! ## The rules -/

/-- The products of the factors that stay and of those that move out, of the type. -/
def insideValue (t : IntType) (E : Env) (r : Reduce) (k : Counters) (l : Lane) : ℤ :=
  t.wrap ((r.insideFactors t).map (·.eval t E k l)).prod

def outsideValue (t : IntType) (E : Env) (r : Reduce) (k : Counters) (l : Lane) : ℤ :=
  t.wrap ((r.outsideFactors t).map (·.eval t E k l)).prod

/-- The contributions without the factors that move out. -/
def insideValues (t : IntType) (E : Env) (r : Reduce) (k : Counters) (l : Lane) : List ℤ :=
  (r.points E k l).map fun p => insideValue t E r p.1 p.2

/-- The factors that move out have none of the leading axes. -/
def OutsideFits (t : IntType) (r : Reduce) : Prop :=
  ∀ b ∈ r.outsideFactors t, b.rank + r.numAxes ≤ r.src.rank

/-- When a rule keeps the shape and the value: a factor that moves out has none of the leading
    axes, and of a maximum it keeps the largest contribution the largest. -/
def Rule.Keeps (t : IntType) (E : Env) (r : Reduce) (k : Counters) (l : Lane) : Rule → Prop
  | .pullConst => True
  | .mulChain => OutsideFits t r ∧
      (r.reduceOp = .max → Scales t (outsideValue t E r k l) (insideValues t E r k l))

/-- The outcome is built, has the shape of the reduction, and its value. -/
def Preserved (t : IntType) (E : Env) (r : Reduce) (k : Counters) (l : Lane)
    (out : Except Panic (Option Factored)) : Prop :=
  ∃ f, out = .ok (some f) ∧ f.shape = r.shape ∧ f.eval t E k l = r.eval t E k l

theorem constOperands_eq {b x : Body} {c : ℤ} (h : (x, c) ∈ constOperands b) :
    b = .mul x (.const c) ∨ b = .mul (.const c) x := by
  unfold constOperands at h
  split at h
  · split at h
    · next c₁ c₂ =>
      simp only [List.mem_cons, Prod.mk.injEq, List.not_mem_nil, or_false] at h
      rcases h with ⟨rfl, rfl⟩ | ⟨rfl, rfl⟩
      · exact Or.inl rfl
      · exact Or.inr rfl
    · obtain ⟨rfl, rfl⟩ := Prod.mk.injEq .. ▸ List.mem_singleton.mp h
      exact Or.inl rfl
  · obtain ⟨rfl, rfl⟩ := Prod.mk.injEq .. ▸ List.mem_singleton.mp h
    exact Or.inr rfl
  · cases h

theorem tryMul_eq_some {b : Body} {f : Factored} (h : r.tryMul b = some f) : f = ⟨r, b⟩ := by
  unfold Reduce.tryMul at h
  split at h
  · exact (Option.some.inj h).symm
  · cases h

/-- A constant pulled out of a sum. -/
theorem pullConst_preserved {s : List ℕ} {x : Body} {c : ℤ} (hop : r.reduceOp = .add)
    (hx : (x, c) ∈ constOperands r.src) (hs : r.src.shape = some s) (hn : r.numAxes ≤ s.length) :
    Preserved t E r k l (.ok (({ r with src := x } : Reduce).tryMul (.const c))) := by
  have hshape : x.shape = some s ∧ ∀ k l, r.src.eval t E k l = t.wrap (x.eval t E k l * c) := by
    rcases constOperands_eq hx with h | h
    · rw [h] at hs ⊢
      exact ⟨(mul_one x.shape).symm.trans hs, fun _ _ => rfl⟩
    · rw [h] at hs ⊢
      refine ⟨(one_mul x.shape).symm.trans hs, fun k l => ?_⟩
      rw [mul_comm (x.eval t E k l)]
      rfl
  obtain ⟨hxs, heval⟩ := hshape
  have hred : ({ r with src := x } : Reduce).shape = r.shape := by
    unfold Reduce.shape
    rw [hxs, hs]
  have hsome : r.shape = some (s.take (s.length - r.numAxes)) := by
    unfold Reduce.shape reduceShape
    rw [hs]
    exact if_pos hn
  have hmul : r.shape * (Body.const c).shape = r.shape := mul_one r.shape
  have hpoints : ({ r with src := x } : Reduce).points E k l = r.points E k l := by
    unfold Reduce.points
    simp only [hxs, hs]
  refine ⟨⟨{ r with src := x }, .const c⟩, ?_, ?_, ?_⟩
  · unfold Reduce.tryMul
    rw [hred, hmul, hsome]
  · exact (congrArg (· * (Body.const c).shape) hred).trans hmul
  · unfold Factored.eval Reduce.eval
    rw [contributions_eq, contributions_eq, hpoints]
    simp only [hop, heval]
    rw [show (Body.const c).eval t E k l = c from rfl, fold_add_mul, List.map_map]
    rfl

/-- A rule that fires keeps the shape and the value of the reduction exactly when the factors it
    moves out have none of the leading axes and, under a maximum, keep the largest contribution
    the largest. -/
theorem reduceSymPatterns_iff {d : ScalarDType} {rule : Rule} {s : List ℕ}
    {out : Except Panic (Option Factored)} (ht : intType d = some t)
    (hs : r.src.shape = some s) (hn : r.numAxes ≤ s.length) (hsrc : r.src.Typed t)
    (hE : E.Typed t) (hout : out ∈ rule.outcomes t r) (hfires : out ≠ .ok none) :
    Preserved t E r k l out ↔ rule.Keeps t E r k l := by
  cases rule with
  | pullConst =>
    simp only [Rule.outcomes] at hout
    split at hout
    · next hop =>
      obtain ⟨⟨x, c⟩, hx, rfl⟩ := List.mem_map.mp hout
      exact iff_of_true (pullConst_preserved hop hx hs hn) trivial
    · cases hout
  | mulChain =>
    simp only [Rule.outcomes] at hout
    split at hout
    · next hop =>
      obtain rfl := List.mem_singleton.mp hout
      have h1 : t.Contains 1 := by
        cases d <;> simp only [intType, reduceCtorEq, Option.some.injEq] at ht <;> subst ht <;>
          decide
      have hne : r.outsideFactors t ≠ [] := fun h => hfires (reduceMulChainSym_nil h)
      obtain ⟨inside, outside, heq, hc⟩ := reduceMulChainSym_eq hs hne
      rw [heq] at hfires ⊢
      cases hf : ({ r with src := inside } : Reduce).tryMul outside with
      | none =>
        rw [hf] at hfires
        exact absurd rfl hfires
      | some f =>
        obtain rfl := tryMul_eq_some hf
        refine Iff.trans ?_ (hc.keeps_iff (k := k) (l := l) hs hn h1 hsrc hE hop.1)
        constructor
        · rintro ⟨f, hf', hshape, heval⟩
          obtain rfl := (Option.some.inj (Except.ok.inj hf')).symm
          exact ⟨hshape, heval⟩
        · rintro ⟨hshape, heval⟩
          exact ⟨_, rfl, hshape, heval⟩
    · cases hout

/-- A factor of shape `s` that reads the ranges `reads`. -/
def plainFactor (id : ℕ) (reads s : List ℕ) : Body := .factor ⟨id, reads, s, none⟩

/-- Every factor is `1`, every range runs three times. -/
def ones : Env where
  factor _ _ _ := 1
  trips _ _ := 3

/-- `x * a` summed over a range that only `x` reads. -/
def sumOfScaled : Reduce where
  src := .mul (plainFactor 0 [7] []) (plainFactor 1 [] [])
  ranges := [⟨7, []⟩]
  reduceOp := .add
  numAxes := 0

theorem ones_typed : ones.Typed ⟨true, 8, by decide⟩ := by
  intro id ks is
  have h : (⟨true, 8, by decide⟩ : IntType).Contains 1 := by decide
  exact h

theorem reduceSymPatterns_iff_sum :
    Preserved ⟨true, 8, by decide⟩ ones sumOfScaled (fun _ => 0) (fun _ => 0)
      (.ok (some ⟨{ sumOfScaled with src := plainFactor 0 [7] [] }, plainFactor 1 [] []⟩)) := by
  have hout : (.ok (some ⟨{ sumOfScaled with src := plainFactor 0 [7] [] }, plainFactor 1 [] []⟩) :
      Except Panic (Option Factored)) ∈
        Rule.outcomes ⟨true, 8, by decide⟩ .mulChain sumOfScaled := List.mem_singleton.mpr rfl
  have hkeeps : Rule.Keeps ⟨true, 8, by decide⟩ ones sumOfScaled (fun _ => 0) (fun _ => 0)
      .mulChain := by
    refine ⟨fun b hb => ?_, fun hmax => by cases hmax⟩
    obtain rfl := List.mem_singleton.mp hb
    decide
  have hsrc : sumOfScaled.src.Typed ⟨true, 8, by decide⟩ := ⟨trivial, trivial⟩
  exact (reduceSymPatterns_iff (d := .int8) rfl rfl (Nat.zero_le _) hsrc ones_typed hout
    (by intro h; cases h)).mpr hkeeps

/-- `a * b` summed over its only axis. -/
def sumOverAxis : Reduce where
  src := .mul (plainFactor 0 [] [2]) (plainFactor 1 [] [2])
  ranges := []
  reduceOp := .add
  numAxes := 1

/-- Both factors move out of the sum over the axis they share. -/
theorem reduceSymPatterns_fails :
    ¬ ∀ (d : ScalarDType) (t : IntType) (E : Env) (r : Reduce) (rule : Rule) (s : List ℕ)
        (out : Except Panic (Option Factored)) (k : Counters) (l : Lane),
      intType d = some t → r.src.shape = some s → r.numAxes ≤ s.length → r.src.Typed t →
        E.Typed t → out ∈ rule.outcomes t r → out ≠ .ok none → Preserved t E r k l out := by
  intro h
  obtain ⟨f, hf, hshape, -⟩ := h .int8 _ ones sumOverAxis .mulChain [2]
    (.ok (some ⟨{ sumOverAxis with src := .expanded 1 [2] },
      .mul (plainFactor 0 [] [2]) (plainFactor 1 [] [2])⟩))
    (fun _ => 0) (fun _ => 0) rfl rfl (by decide) ⟨trivial, trivial⟩ ones_typed
    (List.mem_singleton.mpr rfl) (by intro h; cases h)
  obtain rfl := (Option.some.inj (Except.ok.inj hf)).symm
  have hlen : (some [2] : Option (List ℕ)) = some [] := hshape
  cases hlen

end Svod.Symbolic.ReduceFactor
