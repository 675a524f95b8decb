/-
  Svod.Rangeify.ReduceSimplifySound

  What dropping ranges and moving factors out keeps.

  A range that the body does not mention repeats the contributions of the others:
  a sum is scaled by its extent, a maximum stays, and a product is raised to it.
  The extent is cast to the type first, which a power does not forgive, and a body
  that is left without ranges keeps its leading axes.
-/

import Mathlib.FieldTheory.Finite.Basic
import Mathlib.RingTheory.Int.Basic
import Mathlib.Data.ZMod.Units
import Svod.Lib.TypedInt
import Svod.Rangeify.ReduceSimplify
import Svod.Symbolic.ReduceFactorSound

namespace Svod.Rangeify.ReduceSimplify

open Svod.Ir Svod.Lib
open Svod.Symbolic Svod.Symbolic.ReduceFactor

variable {t : IntType} {E : Env} {r : Reduce} {k k' : Counters} {l : Lane}

/-! ## Ranges that stay -/

/-- The reduction over the ranges that the body mentions. -/
def Reduce.stays (r : Reduce) : Reduce := { r with ranges := (partitionReduceRanges r).1 }

/-- The extents of the ranges that are dropped. -/
def Reduce.droppedExtents (E : Env) (r : Reduce) : List ℕ :=
  ((partitionReduceRanges r).2.filterMap Entry.size).map fun id => E.trips id []

theorem anyInSubtree_of_forall {b : Body} {ids : List ℕ}
    (h : ∀ id ∈ ids, b.anyInSubtree [id] = false) : b.anyInSubtree ids = false := by
  induction b with
  | factor f =>
    simp only [Body.anyInSubtree, List.any_eq_false, List.mem_singleton, decide_eq_true_eq] at h ⊢
    exact fun x hx hmem => h x hmem x hx rfl
  | const v => rfl
  | expanded v s => rfl
  | mul a b iha ihb =>
    simp only [Body.anyInSubtree, Bool.or_eq_false_iff] at h ⊢
    exact ⟨iha fun id hid => (h id hid).1, ihb fun id hid => (h id hid).2⟩

theorem stays_loops (r : Reduce) : r.stays.nest.ranges =
    r.nest.ranges.filter fun loop => r.src.anyInSubtree [loop.id] := by
  show (r.ranges.filter r.parents).filterMap Entry.loop =
    (r.ranges.filterMap Entry.loop).filter fun loop => r.src.anyInSubtree [loop.id]
  generalize r.ranges = entries
  induction entries with
  | nil => rfl
  | cons e es ih =>
    cases e with
    | const v =>
      rw [List.filter_cons_of_neg (by simp [Reduce.parents])]
      exact ih
    | range id =>
      rw [List.filterMap_cons_some (show Entry.loop (.range id) = some ⟨id, []⟩ from rfl)]
      by_cases hid : r.src.anyInSubtree [id] = true
      · rw [List.filter_cons_of_pos (by exact hid), List.filter_cons_of_pos (by exact hid),
          List.filterMap_cons_some (show Entry.loop (.range id) = some ⟨id, []⟩ from rfl), ih]
      · rw [List.filter_cons_of_neg (by exact hid), List.filter_cons_of_neg (by exact hid), ih]

theorem droppedExtents_eq (r : Reduce) : r.droppedExtents E =
    (r.nest.ranges.filter fun loop => !r.src.anyInSubtree [loop.id]).map fun loop =>
      E.trips loop.id [] := by
  show ((r.ranges.filter (!r.parents ·)).filterMap Entry.size).map (fun id => E.trips id []) =
    ((r.ranges.filterMap Entry.loop).filter fun loop => !r.src.anyInSubtree [loop.id]).map _
  generalize r.ranges = entries
  induction entries with
  | nil => rfl
  | cons e es ih =>
    cases e with
    | const v =>
      rw [List.filter_cons_of_pos (by simp [Reduce.parents])]
      exact ih
    | range id =>
      rw [List.filterMap_cons_some (show Entry.loop (.range id) = some ⟨id, []⟩ from rfl)]
      by_cases hid : r.src.anyInSubtree [id] = true
      · rw [List.filter_cons_of_neg (by simp [Reduce.parents, hid]),
          List.filter_cons_of_neg (by simp [hid]), ih]
      · rw [List.filter_cons_of_pos (by simp [Reduce.parents, hid]),
          List.filter_cons_of_pos (by simp [hid]),
          List.filterMap_cons_some (show Entry.size (.range id) = some id from rfl),
          List.map_cons, List.map_cons, ih]

theorem nest_reads (r : Reduce) : ∀ loop ∈ r.nest.ranges, loop.reads = [] := by
  intro loop hloop
  obtain ⟨e, -, he⟩ := List.mem_filterMap.mp hloop
  cases e with
  | range id =>
    cases he
    rfl
  | const v => cases he

/-- The dropped ranges repeat the contributions of the others. -/
theorem contributions_nsmul {s : List ℕ} (hs : r.src.shape = some s) :
    (r.nest.contributions t E k l : Multiset ℤ) =
      (r.droppedExtents E).prod • (r.stays.nest.contributions t E k l : Multiset ℤ) := by
  have hskip : r.src.anyInSubtree
      ((r.nest.ranges.filter fun loop => !r.src.anyInSubtree [loop.id]).map (·.id)) = false := by
    refine anyInSubtree_of_forall fun id hid => ?_
    obtain ⟨loop, hloop, rfl⟩ := List.mem_map.mp hid
    simpa using (List.mem_filter.mp hloop).2
  rw [droppedExtents_eq]
  unfold Svod.Symbolic.ReduceFactor.Reduce.contributions
  rw [stays_loops]
  have hf (k k' : Counters) (hk : AgreeOff ((r.nest.ranges.filter fun loop =>
      !r.src.anyInSubtree [loop.id]).map (·.id)) k k') :
      (leadingLanes r.numAxes (Option.getD r.src.shape []) l).map (r.src.eval t E k) =
        (leadingLanes r.numAxes (Option.getD r.src.shape []) l).map (r.src.eval t E k') :=
    List.map_congr_left fun l' _ => eval_congr hskip hk hs fun _ _ => rfl
  refine flatMap_iterations_filter r.nest.ranges (fun loop => r.src.anyInSubtree [loop.id]) hf
    (fun loop hloop hp => ?_) (nest_reads r) k
  exact List.mem_map.mpr ⟨loop, List.mem_filter.mpr ⟨hloop, by simp [hp]⟩, rfl⟩

/-! ## Powers -/

/-- The extents, cast to the type. -/
def castExtents (t : IntType) (ns : List ℕ) : List ℤ := ns.map fun n : ℕ => t.wrap n

/-- The exponent of a chain of powers. -/
def castExponent (t : IntType) (ns : List ℕ) : ℕ := ((castExtents t ns).map Int.toNat).prod

/-- When the cast does not matter for the powers of `x`: no extent becomes negative, and all
    extents are of the type, or `x` is odd, or the power vanishes. -/
def PowKeeps (t : IntType) (x : ℤ) (ns : List ℕ) : Prop :=
  (∀ c ∈ castExtents t ns, 0 ≤ c) ∧
    ((∀ n ∈ ns, t.Contains n) ∨ x % 2 = 1 ∨ 2 ^ t.bits ∣ x ^ castExponent t ns)

theorem wrap_le_natCast (n : ℕ) : t.wrap n ≤ n := by
  by_contra hlt
  rw [not_le] at hlt
  have hdvd : (2 ^ t.bits : ℤ) ∣ t.wrap n - n := (dvd_sub_comm).mp (t.dvd_sub_wrap n)
  have hle := Int.le_of_dvd (by omega) hdvd
  have hmax := (t.wrap_contains (n : ℤ)).2
  have hspan := t.max_eq
  have hmin : t.min ≤ 0 := t.contains_zero.1
  omega

theorem castExponent_cons (n : ℕ) (ns : List ℕ) :
    castExponent t (n :: ns) = (t.wrap n).toNat * castExponent t ns := rfl

theorem castExponent_le (ns : List ℕ) : castExponent t ns ≤ ns.prod := by
  induction ns with
  | nil => rfl
  | cons n ns ih =>
    rw [castExponent_cons, List.prod_cons]
    exact Nat.mul_le_mul (Int.toNat_le.mpr (wrap_le_natCast n)) ih

theorem castExponent_of_contains {ns : List ℕ} (h : ∀ n ∈ ns, t.Contains n) :
    castExponent t ns = ns.prod := by
  induction ns with
  | nil => rfl
  | cons n ns ih =>
    rw [castExponent_cons, List.prod_cons, ih fun m hm => h m (List.mem_cons_of_mem _ hm),
      IntType.wrap_of_contains (h n (List.mem_cons_self ..)), Int.toNat_natCast]

/-- Casts that are not negative keep the exponent modulo the size of the type. -/
theorem castExponent_agree {ns : List ℕ} (h : ∀ c ∈ castExtents t ns, 0 ≤ c) :
    Agree t (castExponent t ns) ns.prod := by
  induction ns with
  | nil => exact Agree.refl _
  | cons n ns ih =>
    have hn : 0 ≤ t.wrap n := h _ (List.mem_cons_self ..)
    rw [castExponent_cons, List.prod_cons]
    rw [Nat.cast_mul, Nat.cast_mul, Int.toNat_of_nonneg hn]
    exact (wrap_agree _).mul (ih fun c hc => h c (List.mem_cons_of_mem _ hc))

/-- Powers of an odd number repeat after the size of the type. -/
theorem pow_agree_of_odd {x : ℤ} (hx : x % 2 = 1) {m n : ℕ} (h : Agree t m n) :
    Agree t (x ^ m) (x ^ n) := by
  have hcop : IsCoprime ((2 ^ t.bits : ℕ) : ℤ) x := by
    push_cast
    refine IsCoprime.pow_left ?_
    exact Int.isCoprime_two_left.mpr (Int.odd_iff.mpr hx)
  obtain ⟨u, hu⟩ := (ZMod.coe_int_isUnit_iff_isCoprime x (2 ^ t.bits)).mpr hcop
  rw [agree_iff_cast, Int.cast_pow, Int.cast_pow, ← hu, ← Units.val_pow_eq_pow_val,
    ← Units.val_pow_eq_pow_val]
  have horder : orderOf u ∣ 2 ^ t.bits := by
    refine (orderOf_dvd_of_pow_eq_one (ZMod.pow_totient u)).trans ?_
    rw [Nat.totient_prime_pow Nat.prime_two t.pos, show 2 - 1 = 1 from rfl, mul_one]
    exact pow_dvd_pow 2 (Nat.sub_le _ _)
  have hmod : m ≡ n [MOD 2 ^ t.bits] := by
    refine Int.natCast_modEq_iff.mp ?_
    rw [Nat.cast_pow, Nat.cast_ofNat]
    exact h
  exact congrArg Units.val (pow_eq_pow_iff_modEq.mpr (hmod.of_dvd horder))

theorem pow_agree_iff {x : ℤ} {ns : List ℕ} (hpos : ∀ n ∈ ns, 0 < n)
    (hc : ∀ c ∈ castExtents t ns, 0 ≤ c) :
    Agree t (x ^ castExponent t ns) (x ^ ns.prod) ↔
      (∀ n ∈ ns, t.Contains n) ∨ x % 2 = 1 ∨ 2 ^ t.bits ∣ x ^ castExponent t ns := by
  constructor
  · intro h
    by_contra hnot
    simp only [not_or, not_forall] at hnot
    obtain ⟨⟨n, hn, hout⟩, hodd, hdvd⟩ := hnot
    refine hdvd ?_
    -- an extent beyond the type is at least its size, and so is the product
    have hlarge : 2 ^ t.bits ≤ n := by
      have hnonneg : 0 ≤ t.wrap n := hc _ (List.mem_map.mpr ⟨n, hn, rfl⟩)
      have hne : t.wrap n ≠ n := fun heq => hout (heq ▸ t.wrap_contains n)
      have hle := wrap_le_natCast (t := t) n
      have hsize := Int.le_of_dvd (by omega) (IntType.dvd_sub_wrap (t := t) n)
      exact_mod_cast (by omega : (2 ^ t.bits : ℤ) ≤ n)
    have hprod : n ≤ ns.prod :=
      Nat.le_of_dvd (List.prod_pos hpos) (List.dvd_prod hn)
    have hbits : t.bits ≤ ns.prod := (Nat.lt_two_pow_self.le.trans hlarge).trans hprod
    have heven : (2 : ℤ) ∣ x := by omega
    have hzero : Agree t (x ^ ns.prod) 0 := Int.modEq_zero_iff_dvd.mpr
      ((pow_dvd_pow 2 hbits).trans (pow_dvd_pow_of_dvd heven _))
    exact Int.modEq_zero_iff_dvd.mp (h.trans hzero)
  · rintro (hin | hodd | hdvd)
    · rw [castExponent_of_contains hin]
      exact Agree.refl _
    · exact pow_agree_of_odd hodd (castExponent_agree hc)
    · have hzero (m : ℕ) (h : castExponent t ns ≤ m) : Agree t (x ^ m) 0 :=
        Int.modEq_zero_iff_dvd.mpr (hdvd.trans (pow_dvd_pow x h))
      exact (hzero _ le_rfl).trans (hzero _ (castExponent_le ns)).symm

/-! ## Folds of repeated contributions -/

theorem fold_mul (xs : List ℤ) : Agree t (ReduceOp.mul.fold t xs) xs.prod := by
  have hgen : ∀ acc, Agree t (xs.foldl (ReduceOp.mul.step t) acc) (acc * xs.prod) := by
    induction xs with
    | nil => intro acc; simp [Agree.refl]
    | cons x xs ih =>
      intro acc
      rw [List.foldl_cons, List.prod_cons, ← mul_assoc]
      exact (ih _).trans ((wrap_agree _).mul (Agree.refl _))
  have h := hgen 1
  rwa [one_mul] at h

/-- The result of a reduction of values of the type is of the type. -/
theorem fold_contains (op : ReduceOp) (h1 : t.Contains 1) {xs : List ℤ}
    (hxs : ∀ x ∈ xs, t.Contains x) : t.Contains (op.fold t xs) := by
  have hid : t.Contains (op.identity t) := by
    cases op with
    | add => exact t.contains_zero
    | mul => exact h1
    | max => exact TypedInt.least.contains
    | min => exact TypedInt.greatest.contains
  unfold ReduceOp.fold
  generalize op.identity t = acc at hid
  induction xs generalizing acc with
  | nil => exact hid
  | cons x xs ih =>
    refine ih (fun y hy => hxs y (List.mem_cons_of_mem _ hy)) _ ?_
    have hx := hxs x (List.mem_cons_self ..)
    cases op with
    | add | mul => exact t.wrap_contains _
    | max =>
      show t.Contains (Max.max acc x)
      rcases max_choice acc x with h | h
      · rwa [h]
      · rwa [h]
    | min =>
      show t.Contains (Min.min acc x)
      rcases min_choice acc x with h | h
      · rwa [h]
      · rwa [h]

section

variable {xs ys : List ℤ} {n : ℕ} (h : (xs : Multiset ℤ) = n • (ys : Multiset ℤ))

include h

theorem fold_add_nsmul : Agree t (ReduceOp.add.fold t xs) (ReduceOp.add.fold t ys * n) := by
  have hsum : xs.sum = ys.sum * n := by
    rw [← Multiset.sum_coe, h, Multiset.sum_nsmul, Multiset.sum_coe, nsmul_eq_mul, mul_comm]
  refine (fold_add xs).trans ?_
  rw [hsum]
  exact (Int.ModEq.symm (fold_add ys)).mul (Agree.refl _)

theorem fold_mul_nsmul : Agree t (ReduceOp.mul.fold t xs) (ReduceOp.mul.fold t ys ^ n) := by
  have hprod : xs.prod = ys.prod ^ n := by
    rw [← Multiset.prod_coe, h, Multiset.prod_nsmul, Multiset.prod_coe]
  refine (fold_mul xs).trans ?_
  rw [hprod]
  exact (Int.ModEq.symm (fold_mul ys)).pow n

theorem fold_max_nsmul (hn : 0 < n) : ReduceOp.max.fold t xs = ReduceOp.max.fold t ys := by
  have hmem (x : ℤ) : x ∈ xs ↔ x ∈ ys := by
    rw [← Multiset.mem_coe, h, Multiset.mem_nsmul, Multiset.mem_coe]
    exact and_iff_right hn.ne'
  refine eq_of_forall_ge_iff fun c => ?_
  rw [fold_max, fold_max, foldl_max_le_iff, foldl_max_le_iff]
  simp only [hmem]

end

/-! ## Scaled nodes -/

section

variable {node : Node} {s : List ℕ} {x : ℤ}

theorem tryMul_extent (hs : node.shape = some s) (id : ℕ) :
    node.tryMul (.extent id) = some (.mul node (.extent id)) ∧
      (Node.mul node (.extent id)).shape = some s := by
  have hshape : node.shape * (Node.extent id).shape = some s := by
    rw [hs]
    exact mul_one (M := Extent) (some s)
  refine ⟨?_, hshape⟩
  unfold Node.tryMul
  rw [hshape]

theorem tryPow_extent (hs : node.shape = some s) (id : ℕ) :
    node.tryPow (.extent id) = some (.pow node (.extent id)) ∧
      (Node.pow node (.extent id)).shape = some s := by
  have hshape : node.shape * (Node.extent id).shape = some s := by
    rw [hs]
    exact mul_one (M := Extent) (some s)
  refine ⟨?_, hshape⟩
  unfold Node.tryPow
  rw [hshape]

/-- A node times extents. -/
theorem foldlM_tryMul (ids : List ℕ) (hs : node.shape = some s) (hv : node.eval t E k l = some x)
    (hx : t.Contains x) :
    ∃ scaled, ids.foldlM (fun acc id => acc.tryMul (.extent id)) node = some scaled ∧
      scaled.shape = some s ∧ ∃ y, scaled.eval t E k l = some y ∧ t.Contains y ∧
        Agree t y (x * (ids.map fun id => E.trips id []).prod) := by
  induction ids generalizing node x with
  | nil => exact ⟨node, rfl, hs, x, hv, hx, by simp [Agree.refl]⟩
  | cons id ids ih =>
    obtain ⟨htry, hshape⟩ := tryMul_extent hs id
    have heval : (Node.mul node (.extent id)).eval t E k l =
        some (t.wrap (x * t.wrap (E.trips id []))) := by
      simp only [Node.eval, hv]
      rfl
    obtain ⟨scaled, hfold, hshape', y, hy, hcontains, hagree⟩ :=
      ih hshape heval (t.wrap_contains _)
    refine ⟨scaled, ?_, hshape', y, hy, hcontains, hagree.trans ?_⟩
    · rw [List.foldlM_cons, htry]
      exact hfold
    · rw [List.map_cons, List.prod_cons, Nat.cast_mul, ← mul_assoc]
      exact ((wrap_agree _).trans ((Agree.refl x).mul (wrap_agree _))).mul (Agree.refl _)

/-- A node raised to extents: without a value once an extent becomes negative. -/
theorem foldlM_tryPow (ids : List ℕ) (hs : node.shape = some s) :
    ∃ scaled, ids.foldlM (fun acc id => acc.tryPow (.extent id)) node = some scaled ∧
      scaled.shape = some s ∧
      (node.eval t E k l = none → scaled.eval t E k l = none) ∧
      ∀ x, node.eval t E k l = some x → t.Contains x →
        (¬ (∀ c ∈ castExtents t (ids.map fun id => E.trips id []), 0 ≤ c) →
          scaled.eval t E k l = none) ∧
        ((∀ c ∈ castExtents t (ids.map fun id => E.trips id []), 0 ≤ c) →
          ∃ y, scaled.eval t E k l = some y ∧ t.Contains y ∧
            Agree t y (x ^ castExponent t (ids.map fun id => E.trips id []))) := by
  induction ids generalizing node with
  | nil =>
    refine ⟨node, rfl, hs, id, fun x hv hx => ⟨fun h => ?_, fun _ => ⟨x, hv, hx, ?_⟩⟩⟩
    · exact absurd (fun c hc => by cases hc) h
    · rw [List.map_nil, show castExponent t [] = 1 from rfl, pow_one]
      exact Agree.refl x
  | cons id ids ih =>
    obtain ⟨htry, hshape⟩ := tryPow_extent hs id
    obtain ⟨scaled, hfold, hshape', hnone, hsome⟩ := ih hshape
    refine ⟨scaled, ?_, hshape', fun hv => hnone ?_, fun x hv hx => ?_⟩
    · rw [List.foldlM_cons, htry]
      exact hfold
    · simp only [Node.eval, hv]
      rfl
    have heval : (Node.pow node (.extent id)).eval t E k l =
        if 0 ≤ t.wrap (E.trips id []) then
          some (t.wrap (x ^ (t.wrap (E.trips id [])).toNat)) else none := by
      simp only [Node.eval, hv]
      rfl
    have hcast : castExtents t ((id :: ids).map fun id => E.trips id []) =
        t.wrap (E.trips id []) :: castExtents t (ids.map fun id => E.trips id []) := rfl
    rw [hcast, List.forall_mem_cons, List.map_cons, castExponent_cons]
    by_cases hneg : 0 ≤ t.wrap (E.trips id [])
    · rw [if_pos hneg] at heval
      obtain ⟨hbad, hgood⟩ := hsome _ heval (t.wrap_contains _)
      refine ⟨fun h => hbad fun hall => h ⟨hneg, hall⟩, fun h => ?_⟩
      obtain ⟨y, hy, hcontains, hagree⟩ := hgood h.2
      refine ⟨y, hy, hcontains, hagree.trans ?_⟩
      rw [pow_mul]
      exact (wrap_agree _).pow _
    · rw [if_neg hneg] at heval
      exact ⟨fun _ => hnone heval, fun h => absurd h.1 hneg⟩

end

/-! ## The rules -/

/-- The factors that stay inside, and those that go outside. -/
def Reduce.insideFactors (t : IntType) (r : Reduce) : List Body :=
  r.src.splitUop.filter (!goesOutside t r ·)

def Reduce.outsideFactors (t : IntType) (r : Reduce) : List Body :=
  r.src.splitUop.filter (goesOutside t r)

/-- When a rule keeps the shape and the value.  Dropping ranges: one of them stays, or there are no
    leading axes, and the extents that a product is raised to survive the cast.  Moving factors: as
    in `Factoring.keeps_iff`. -/
def Rule.Keeps (t : IntType) (E : Env) (r : Reduce) (k : Counters) (l : Lane) : Rule → Prop
  | .unparented => ((partitionReduceRanges r).1 ≠ [] ∨ r.numAxes = 0) ∧
      (r.reduceOp = .mul → PowKeeps t (r.stays.eval t E k l) (r.droppedExtents E))
  | .mulChain => FitsBelow (r.outsideFactors t) r.nest ∧
      (r.reduceOp = .max → Scales t (productOf t E (r.outsideFactors t) k l)
        ((r.nest.points E k l).map fun p => productOf t E (r.insideFactors t) p.1 p.2))

/-- The outcome is built, has the shape of the reduction, and its value. -/
def Preserved (t : IntType) (E : Env) (r : Reduce) (k : Counters) (l : Lane)
    (out : Except Panic (Option Node)) : Prop :=
  ∃ node, out = .ok (some node) ∧ node.shape = r.shape ∧
    node.eval t E k l = some (r.eval t E k l)

/-- The reduction over the ranges that stay, or the body where none does. -/
def Reduce.base (r : Reduce) : Node :=
  if (partitionReduceRanges r).1 ≠ [] then .reduce r.stays else .body r.src

section

variable {s : List ℕ} (hs : r.src.shape = some s) (hn : r.numAxes ≤ s.length)

include hs hn

theorem shape_eq_take : r.shape = some (s.take (s.length - r.numAxes)) := by
  show reduceShape r.numAxes r.src.shape = _
  unfold reduceShape
  rw [hs]
  exact if_pos hn

theorem base_shape : ∃ s', r.base.shape = some s' ∧
    (r.base.shape = r.shape ↔ (partitionReduceRanges r).1 ≠ [] ∨ r.numAxes = 0) := by
  unfold Reduce.base
  by_cases hp : (partitionReduceRanges r).1 ≠ []
  · rw [if_pos hp]
    exact ⟨_, shape_eq_take hs hn, iff_of_true rfl (Or.inl hp)⟩
  · rw [if_neg hp]
    refine ⟨s, hs, ?_⟩
    show r.src.shape = r.shape ↔ _
    rw [hs, shape_eq_take hs hn, or_iff_right hp]
    constructor
    · intro h
      have hlen := congrArg List.length (Option.some.inj h)
      rw [List.length_take] at hlen
      omega
    · intro h
      rw [h, Nat.sub_zero, List.take_length]

end

theorem contribution_contains (hsrc : r.src.Typed t) (hE : E.Typed t) :
    ∀ x ∈ r.nest.contributions t E k l, t.Contains x := by
  intro x hx
  rw [contributions_eq] at hx
  obtain ⟨p, -, rfl⟩ := List.mem_map.mp hx
  exact hsrc.eval_contains hE

/-- A body without ranges and leading axes is its own reduction. -/
theorem fold_singleton (op : ReduceOp) {x : ℤ} (hx : t.Contains x) : op.fold t [x] = x := by
  cases op with
  | add => exact (congrArg t.wrap (zero_add x)).trans (IntType.wrap_of_contains hx)
  | mul => exact (congrArg t.wrap (one_mul x)).trans (IntType.wrap_of_contains hx)
  | max => exact max_eq_right hx.1
  | min => exact min_eq_right hx.2

theorem base_eval (hsrc : r.src.Typed t) (hE : E.Typed t)
    (h : (partitionReduceRanges r).1 ≠ [] ∨ r.numAxes = 0) :
    r.base.eval t E k l = some (r.stays.eval t E k l) := by
  unfold Reduce.base
  by_cases hp : (partitionReduceRanges r).1 ≠ []
  · rw [if_pos hp]
    rfl
  · rw [if_neg hp]
    rw [not_not] at hp
    have hnum : r.numAxes = 0 := h.resolve_left (not_not_intro hp)
    have hcontributions : r.stays.nest.contributions t E k l = [r.src.eval t E k l] := by
      unfold Svod.Symbolic.ReduceFactor.Reduce.contributions
      have hranges : r.stays.nest.ranges = [] := congrArg (List.filterMap Entry.loop) hp
      rw [hranges]
      simp only [iterations, List.flatMap_singleton]
      show (leadingLanes r.numAxes _ l).map _ = _
      rw [hnum]
      rfl
    show some _ = some (r.reduceOp.fold t (r.stays.nest.contributions t E k l))
    rw [hcontributions, fold_singleton _ (hsrc.eval_contains hE)]

theorem eval_contains (h1 : t.Contains 1) (hsrc : r.src.Typed t) (hE : E.Typed t) :
    t.Contains (r.eval t E k l) :=
  fold_contains r.reduceOp h1 (contribution_contains hsrc hE)

theorem base_eval_contains (h1 : t.Contains 1) (hsrc : r.src.Typed t) (hE : E.Typed t) :
    ∃ x, r.base.eval t E k l = some x ∧ t.Contains x := by
  unfold Reduce.base
  split
  · exact ⟨_, rfl, eval_contains (r := r.stays) h1 hsrc hE⟩
  · exact ⟨_, rfl, hsrc.eval_contains hE⟩

/-- A node of the shape of the base has the shape of the reduction when the base does. -/
theorem preserved_iff_of_base {s : List ℕ} (hs : r.src.shape = some s) (hn : r.numAxes ≤ s.length)
    {node : Node} {P : Prop} (hshape : node.shape = r.base.shape)
    (heval : (partitionReduceRanges r).1 ≠ [] ∨ r.numAxes = 0 →
      (node.eval t E k l = some (r.eval t E k l) ↔ P)) :
    Preserved t E r k l (.ok (some node)) ↔
      ((partitionReduceRanges r).1 ≠ [] ∨ r.numAxes = 0) ∧ P := by
  obtain ⟨-, -, hbase⟩ := base_shape hs hn
  constructor
  · rintro ⟨node', hnode, hshape', heval'⟩
    obtain rfl := Option.some.inj (Except.ok.inj hnode)
    have hkept := hbase.mp (hshape.symm.trans hshape')
    exact ⟨hkept, (heval hkept).mp heval'⟩
  · rintro ⟨hkept, hP⟩
    exact ⟨node, rfl, hshape.trans (hbase.mpr hkept), (heval hkept).mpr hP⟩

theorem reduceUnparented_eq (hne : (partitionReduceRanges r).2 ≠ []) : reduceUnparented r =
    match r.reduceOp with
    | .add => ((partitionReduceRanges r).2.filterMap Entry.size).foldlM
        (fun acc id => acc.tryMul (.extent id)) r.base
    | .mul => ((partitionReduceRanges r).2.filterMap Entry.size).foldlM
        (fun acc id => acc.tryPow (.extent id)) r.base
    | .max => some r.base
    | .min => none := if_neg hne

/-- A rule that drops ranges keeps the shape and the value under its condition only. -/
theorem reduceUnparented_iff {s : List ℕ} (hs : r.src.shape = some s) (hn : r.numAxes ≤ s.length)
    (h1 : t.Contains 1) (hsrc : r.src.Typed t) (hE : E.Typed t) (hpos : ∀ id, 0 < E.trips id [])
    (hfires : reduceUnparented r ≠ none) :
    Preserved t E r k l (.ok (reduceUnparented r)) ↔ Rule.unparented.Keeps t E r k l := by
  have hne : (partitionReduceRanges r).2 ≠ [] := fun hnil => hfires (if_pos hnil)
  have hrepeat := contributions_nsmul (E := E) (t := t) (k := k) (l := l) hs
  have hextents : ∀ n ∈ r.droppedExtents E, 0 < n := fun n hmem => by
    obtain ⟨id, -, rfl⟩ := List.mem_map.mp hmem
    exact hpos id
  have hreval := eval_contains (k := k) (l := l) h1 hsrc hE
  obtain ⟨s', hs', -⟩ := base_shape hs hn
  obtain ⟨x, hx, hxc⟩ := base_eval_contains (k := k) (l := l) h1 hsrc hE
  -- where the shape is kept, the base is the reduction over the ranges that stay
  have hstays : (partitionReduceRanges r).1 ≠ [] ∨ r.numAxes = 0 → x = r.stays.eval t E k l :=
    fun h => Option.some.inj (hx.symm.trans (base_eval hsrc hE h))
  unfold Rule.Keeps
  cases hop : r.reduceOp with
  | add =>
    obtain ⟨scaled, hfold, hshape, y, hy, hyc, hagree⟩ := foldlM_tryMul (E := E)
      ((partitionReduceRanges r).2.filterMap Entry.size) hs' hx hxc
    have hout : reduceUnparented r = some scaled := by
      rw [reduceUnparented_eq hne, hop]
      exact hfold
    rw [hout]
    refine preserved_iff_of_base hs hn (hshape.trans hs'.symm) fun hkept => ?_
    refine iff_of_true ?_ fun h => by cases h
    have hsum : Agree t (r.eval t E k l) (r.stays.eval t E k l * (r.droppedExtents E).prod) := by
      show Agree t (r.reduceOp.fold t _) (r.reduceOp.fold t _ * _)
      rw [hop]
      exact fold_add_nsmul hrepeat
    rw [hy]
    rw [hstays hkept] at hagree
    exact congrArg some ((hagree.trans hsum.symm).eq hyc hreval)
  | mul =>
    obtain ⟨scaled, hfold, hshape, -, hvalue⟩ := foldlM_tryPow (E := E) (t := t) (k := k) (l := l)
      ((partitionReduceRanges r).2.filterMap Entry.size) hs'
    obtain ⟨hbad, hgood⟩ := hvalue x hx hxc
    have hout : reduceUnparented r = some scaled := by
      rw [reduceUnparented_eq hne, hop]
      exact hfold
    rw [hout]
    refine preserved_iff_of_base hs hn (hshape.trans hs'.symm) fun hkept => ?_
    have hprod : Agree t (r.eval t E k l) (x ^ (r.droppedExtents E).prod) := by
      rw [hstays hkept]
      show Agree t (r.reduceOp.fold t _) (r.reduceOp.fold t _ ^ _)
      rw [hop]
      exact fold_mul_nsmul hrepeat
    refine Iff.trans ?_ (forall_prop_of_true rfl).symm
    rw [← hstays hkept]
    by_cases hcasts : ∀ c ∈ castExtents t (r.droppedExtents E), 0 ≤ c
    · obtain ⟨y, hy, hyc, hagree⟩ := hgood hcasts
      rw [PowKeeps, and_iff_right hcasts, ← pow_agree_iff hextents hcasts, hy]
      constructor
      · intro h
        rw [Option.some.inj h] at hagree
        exact hagree.symm.trans hprod
      · intro h
        exact congrArg some ((hagree.trans (h.trans hprod.symm)).eq hyc hreval)
    · rw [hbad hcasts]
      exact iff_of_false (fun h => by cases h) fun h => hcasts h.1
  | max =>
    have hout : reduceUnparented r = some r.base := by rw [reduceUnparented_eq hne, hop]
    rw [hout]
    refine preserved_iff_of_base hs hn rfl fun hkept => ?_
    refine iff_of_true ?_ fun h => by cases h
    rw [hx, hstays hkept]
    show some (r.reduceOp.fold t _) = some (r.reduceOp.fold t _)
    rw [hop]
    exact congrArg some (fold_max_nsmul hrepeat (List.prod_pos hextents)).symm
  | min =>
    rw [reduceUnparented_eq hne, hop] at hfires
    exact absurd rfl hfires

/-! ## Factors outside -/

/-- A node times bodies. -/
theorem foldlM_expectMul_node {bs : List Body} {node result : Node} {x : ℤ}
    (hv : node.eval t E k l = some x) (hx : t.Contains x)
    (h : bs.foldlM Node.expectMul node = .ok result) :
    result.shape = node.shape * (bs.map Body.shape).prod ∧
      ∃ y, result.eval t E k l = some y ∧ t.Contains y ∧
        Agree t y (x * (bs.map (·.eval t E k l)).prod) := by
  induction bs generalizing node x with
  | nil =>
    cases h
    exact ⟨(mul_one (M := Extent) _).symm, x, hv, hx, by simp [Agree.refl]⟩
  | cons b bs ih =>
    rw [List.foldlM_cons] at h
    unfold Node.expectMul Node.tryMul at h
    cases hshape : node.shape * (Node.body b).shape with
    | none =>
      rw [hshape] at h
      cases h
    | some s =>
      rw [hshape] at h
      have heval : (Node.mul node (.body b)).eval t E k l =
          some (t.wrap (x * b.eval t E k l)) := by
        simp only [Node.eval, hv]
        rfl
      obtain ⟨hs, y, hy, hyc, hagree⟩ := ih heval (t.wrap_contains _) h
      refine ⟨?_, y, hy, hyc, hagree.trans ?_⟩
      · rw [hs, List.map_cons, List.prod_cons, ← mul_assoc]
        rfl
      · rw [List.map_cons, List.prod_cons, ← mul_assoc]
        exact (wrap_agree _).mul (Agree.refl _)

/-- Bodies whose shapes join with that of a node have a product with it. -/
theorem foldlM_expectMul_node_ok {bs : List Body} {node : Node} {s : List ℕ}
    (h : node.shape * (bs.map Body.shape).prod = some s) :
    ∃ result, bs.foldlM Node.expectMul node = .ok result := by
  induction bs generalizing node with
  | nil => exact ⟨node, rfl⟩
  | cons b bs ih =>
    rw [List.map_cons, List.prod_cons, ← mul_assoc] at h
    obtain ⟨s₁, -, hs₁, -, -⟩ := Extent.mul_eq_some.mp h
    have htry : node.expectMul b = .ok (.mul node (.body b)) := by
      unfold Node.expectMul Node.tryMul
      rw [show node.shape * (Node.body b).shape = some s₁ from hs₁]
    rw [List.foldlM_cons, htry]
    exact ih h

/-- Moving factors outside keeps the shape and the value under its condition only. -/
theorem reduceMulChain_iff {s : List ℕ} (hs : r.src.shape = some s) (hn : r.numAxes ≤ s.length)
    (h1 : t.Contains 1) (hsrc : r.src.Typed t) (hE : E.Typed t)
    (hop : r.reduceOp = .add ∨ r.reduceOp = .max) (hfires : reduceMulChain t r ≠ .ok none) :
    Preserved t E r k l (reduceMulChain t r) ↔ Rule.mulChain.Keeps t E r k l := by
  have hne : r.outsideFactors t ≠ [] := fun hnil => hfires (by
    unfold Reduce.outsideFactors at hnil
    simp only [reduceMulChain, hnil]
    split <;> rfl)
  have hlen : ¬ r.src.splitUop.length < 2 := fun hlt => hfires (if_pos hlt)
  obtain ⟨inside, outside, hout, hin, hfac⟩ := factoring_of_filter (t := t) (r := r.nest)
    (goesOutside t r) (fun b hb => by
      simp only [goesOutside, referencesAnyReduceRange, Bool.and_eq_true, Bool.not_eq_true'] at hb
      exact hb.1) hs hne
  -- the reduction of the factors inside, times those outside
  have hchain : reduceMulChain t r = (r.outsideFactors t).foldlM Node.expectMul
      (.reduce { r with src := inside }) >>= fun result => .ok (some result) := by
    unfold Reduce.outsideFactors at hne ⊢
    rcases hin with hin | ⟨hin, rfl⟩
    · have hin' : mulAll (r.src.splitUop.filter (!goesOutside t r ·)) = .ok (some inside) := hin
      simp only [reduceMulChain, if_neg hlen, if_neg hne, hin']
      rfl
    · have hin' : mulAll (r.src.splitUop.filter (!goesOutside t r ·)) = .ok none := hin
      simp only [reduceMulChain, if_neg hlen, if_neg hne, hin', hs]
      rfl
  have hkeeps := hfac.keeps_iff (E := E) (k := k) (l := l) hs hn h1 hsrc hE hop
  refine Iff.trans ?_ hkeeps
  have htyped : inside.Typed t := hfac.insideTyped h1 hsrc
  have hstart : t.Contains (({ r with src := inside } : Reduce).eval t E k l) :=
    eval_contains (r := { r with src := inside }) h1 htyped hE
  rw [hchain]
  cases hfold : (r.outsideFactors t).foldlM Node.expectMul (.reduce { r with src := inside }) with
  | error e =>
    refine iff_of_false (by rintro ⟨node, hnode, -⟩; cases hnode) fun hkept => ?_
    have hjoin : (Node.reduce { r with src := inside }).shape *
        ((r.outsideFactors t).map Body.shape).prod = some (s.take (s.length - r.numAxes)) := by
      rw [← shape_eq_take hs hn]
      refine Eq.trans ?_ hkept.1
      exact congrArg (_ * ·) hfac.outsideShape.symm
    obtain ⟨result, hok⟩ := foldlM_expectMul_node_ok hjoin
    rw [hok] at hfold
    cases hfold
  | ok result =>
    obtain ⟨hshape, y, hy, hyc, hagree⟩ := foldlM_expectMul_node (E := E) (t := t) (k := k)
      (l := l) rfl hstart hfold
    have hshape' : result.shape =
        (⟨{ r.nest with src := inside }, outside⟩ : Factored).shape :=
      hshape.trans (congrArg (_ * ·) hfac.outsideShape.symm)
    have heval' : y = (⟨{ r.nest with src := inside }, outside⟩ : Factored).eval t E k l := by
      refine Agree.eq (hagree.trans ?_) hyc (t.wrap_contains _)
      refine ((Agree.refl _).mul (hfac.outsideEval E k l).symm).trans (wrap_agree _).symm
    constructor
    · rintro ⟨node, hnode, hnshape, hneval⟩
      obtain rfl : result = node := Option.some.inj (Except.ok.inj hnode)
      rw [hy] at hneval
      exact ⟨hshape'.symm.trans hnshape, heval'.symm.trans (Option.some.inj hneval)⟩
    · rintro ⟨hnshape, hneval⟩
      exact ⟨result, rfl, hshape'.trans hnshape, hy.trans (congrArg some (heval'.trans hneval))⟩

/-- A rule that fires keeps the shape and the value of the reduction exactly under its condition. -/
theorem reduceSimplify_iff {d : ScalarDType} {rule : Rule} {s : List ℕ} (ht : intType d = some t)
    (hs : r.src.shape = some s) (hn : r.numAxes ≤ s.length) (hsrc : r.src.Typed t)
    (hE : E.Typed t) (hpos : ∀ id, 0 < E.trips id []) (hfires : rule.outcome t r ≠ .ok none) :
    Preserved t E r k l (rule.outcome t r) ↔ rule.Keeps t E r k l := by
  have h1 : t.Contains 1 := by
    cases d <;> simp only [intType, reduceCtorEq, Option.some.injEq] at ht <;> subst ht <;> decide
  cases rule with
  | unparented =>
    exact reduceUnparented_iff hs hn h1 hsrc hE hpos fun hnone => hfires (congrArg Except.ok hnone)
  | mulChain =>
    simp only [Rule.outcome] at hfires ⊢
    by_cases hcond : (r.reduceOp = .add ∨ r.reduceOp = .max) ∧ r.src.isMul = true
    · rw [if_pos hcond] at hfires ⊢
      exact reduceMulChain_iff hs hn h1 hsrc hE hcond.1 hfires
    · rw [if_neg hcond] at hfires
      exact absurd rfl hfires

/-- A value that depends on one range, summed over two. -/
def sumOverTwo : Reduce := ⟨plainFactor 0 [7] [], [.range 7, .range 8], .add, 0⟩

theorem reduceSimplify_iff_sumOverTwo :
    Preserved ⟨true, 8, by decide⟩ ones sumOverTwo (fun _ => 0) (fun _ => 0)
      (Rule.unparented.outcome ⟨true, 8, by decide⟩ sumOverTwo) := by
  have hkeeps : Rule.unparented.Keeps ⟨true, 8, by decide⟩ ones sumOverTwo (fun _ => 0)
      (fun _ => 0) := ⟨Or.inr rfl, fun h => by cases h⟩
  have hsrc : sumOverTwo.src.Typed ⟨true, 8, by decide⟩ := trivial
  exact (reduceSimplify_iff (d := .int8) rfl rfl (Nat.zero_le _) hsrc ones_typed
    (fun _ => Nat.succ_pos 2) (by decide)).mpr hkeeps

/-- An array of two elements, summed over its only axis and over a range that it does not
    mention. -/
def sumOverAxisAndRange : Reduce := ⟨plainFactor 0 [] [2], [.range 7], .add, 1⟩

/-- The range is dropped with the reduction of the axis. -/
theorem reduceSimplify_fails :
    ¬ ∀ (d : ScalarDType) (t : IntType) (E : Env) (r : Reduce) (rule : Rule) (s : List ℕ)
        (k : Counters) (l : Lane), intType d = some t → r.src.shape = some s →
      r.numAxes ≤ s.length → r.src.Typed t → E.Typed t → (∀ id, 0 < E.trips id []) →
        rule.outcome t r ≠ .ok none → Preserved t E r k l (rule.outcome t r) := by
  intro h
  obtain ⟨node, hnode, hshape, -⟩ := h .int8 _ ones sumOverAxisAndRange .unparented [2]
    (fun _ => 0) (fun _ => 0) rfl rfl (by decide) trivial ones_typed (fun _ => Nat.succ_pos 2)
    (by decide)
  obtain rfl : Node.mul (.body (plainFactor 0 [] [2])) (.extent 7) = node :=
    Option.some.inj (Except.ok.inj hnode)
  have hlen : (some [2] : Option (List ℕ)) = some [] := hshape
  cases hlen

end Svod.Rangeify.ReduceSimplify
