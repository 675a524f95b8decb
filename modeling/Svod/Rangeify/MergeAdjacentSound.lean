/-
  Svod.Rangeify.MergeAdjacentSound

  Merging two ranges keeps the meaning of a node as long as every reduction in
  it is over both ranges or over neither, or the range that is left is only
  repeated by maxima, minima and ENDs.

  The substitution is one change of the environment: the value of a rewritten
  node is that of the node where the two ranges have the quotient and the
  remainder of the merged index.  Under a reduction this changes the points of
  its ranges by a bijection.
-/

import Svod.Rangeify.MergeAdjacent
import Svod.Symbolic.FactorSound

namespace Svod.Rangeify.MergeAdjacent

open Svod.Lib Svod.Lib.IndexSpace
open Svod.Symbolic.ReduceFactor (ReduceOp)

variable {E : Env}

/-! ## Lists of ranges -/

theorem nodup_eraseDups {α : Type*} [DecidableEq α] (l : List α) : l.eraseDups.Nodup := by
  induction hn : l.length using Nat.strong_induction_on generalizing l with
  | _ n ih =>
    cases l with
    | nil => simp
    | cons a l =>
      rw [List.eraseDups_cons, List.nodup_cons, List.mem_eraseDups]
      refine ⟨by simp, ih _ ?_ _ rfl⟩
      have := List.length_filter_le (fun b => !b == a) l
      simp only [List.length_cons] at hn
      omega

theorem mem_loops {ranges : Exprs} {r : Range} : r ∈ ranges.loops ↔ r ∈ ranges.rangesOf :=
  List.mem_eraseDups

theorem nodup_loops (ranges : Exprs) : ranges.loops.Nodup := nodup_eraseDups _

@[simp] theorem rangesOf_ofRanges (rs : List Range) : (Exprs.ofRanges rs).rangesOf = rs := by
  induction rs with
  | nil => rfl
  | cons r rs ih => simp [Exprs.ofRanges, Exprs.rangesOf, Expr.rangesOf, ih]

/-! ## What a value reads -/

mutual

/-- The ranges a value depends on: those not bound by a reduction. -/
def Expr.free : Expr → List Range
  | .const _ => []
  | .range r => [r]
  | .floorDiv a b => a.free ++ b.free
  | .floorMod a b => a.free ++ b.free
  | .node _ srcs => srcs.free
  | .reduce _ _ src ranges => src.free.filter (· ∉ ranges.loops)

def Exprs.free : Exprs → List Range
  | .nil => []
  | .cons e es => e.free ++ es.free

end

def Stmt.free : Stmt → List Range
  | .noop => []
  | .store _ srcs => srcs.free
  | .group s t => s.free ++ t.free
  | .end_ s ranges => s.free.filter (· ∉ ranges.loops)

/-- Of two nodes. -/
theorem append_subset {α : Type*} {l l' m m' : List α} (h : ∀ r ∈ l, r ∈ m)
    (h' : ∀ r ∈ l', r ∈ m') : ∀ r ∈ l ++ l', r ∈ m ++ m' :=
  fun r hr => List.mem_append.mpr ((List.mem_append.mp hr).imp (h r) (h' r))

mutual

theorem Expr.free_subset (e : Expr) : ∀ r ∈ e.free, r ∈ e.rangesOf := by
  cases e with
  | const v | range v => exact fun r hr => hr
  | floorDiv a b | floorMod a b => exact append_subset a.free_subset b.free_subset
  | node id srcs => exact srcs.free_subset
  | reduce op t src ranges =>
    exact fun r hr => List.mem_append.mpr (.inl (src.free_subset r (List.mem_of_mem_filter hr)))

theorem Exprs.free_subset (es : Exprs) : ∀ r ∈ es.free, r ∈ es.rangesOf := by
  cases es with
  | nil => exact fun r hr => hr
  | cons e es => exact append_subset e.free_subset es.free_subset

end

theorem Stmt.free_subset (s : Stmt) : ∀ r ∈ s.free, r ∈ s.rangesOf := by
  induction s with
  | noop => exact fun _ h => h
  | store id srcs => exact srcs.free_subset
  | group s t ihs iht => exact append_subset ihs iht
  | end_ s ranges ih =>
    exact fun r hr => List.mem_append.mpr (.inl (ih r (List.mem_of_mem_filter hr)))

/-- Agreement on the free ranges of a reduction, seen from its body. -/
theorem agree_of_filter {κ : Type} [DecidableEq κ] {S loops : List κ} {σ σ' : Point κ}
    (h : ∀ r ∈ S.filter (· ∉ loops), σ r = σ' r) : ∀ r ∈ S, r ∉ loops → σ r = σ' r :=
  fun r hr hloop => h r (List.mem_filter.mpr ⟨hr, by simpa using hloop⟩)

mutual

theorem Expr.eval_reads (e : Expr) : Reads (e.eval E) e.free := by
  cases e with
  | const v => exact fun _ _ _ => rfl
  | range r => exact fun _ _ h => congrArg Int.ofNat (h r (List.mem_singleton_self r))
  | floorDiv a b => exact .map₂ Int.fdiv a.eval_reads b.eval_reads
  | floorMod a b => exact .map₂ Int.fmod a.eval_reads b.eval_reads
  | node id srcs => exact fun σ σ' h => congrArg (E.node id) (srcs.eval_reads σ σ' h)
  | reduce op t src ranges =>
    exact fun _ _ h => congrArg (op.fold t) (map_points_congr src.eval_reads (agree_of_filter h))

theorem Exprs.eval_reads (es : Exprs) : Reads (es.eval E) es.free := by
  cases es with
  | nil => exact fun _ _ _ => rfl
  | cons e es => exact .map₂ (· :: ·) e.eval_reads es.eval_reads

end

theorem Stmt.executed_reads (s : Stmt) : Reads (s.executed E) s.free := by
  induction s with
  | noop => exact fun _ _ _ => rfl
  | store id srcs =>
    exact fun σ σ' h => congrArg (fun vs => {(id, vs)}) (srcs.eval_reads σ σ' h)
  | group s t ihs iht => exact .map₂ (· ∪ ·) ihs iht
  | end_ s ranges ih =>
    intro σ σ' h
    have hmap : (points (Range.trips E) ranges.loops σ).map (s.executed E) =
        (points (Range.trips E) ranges.loops σ').map (s.executed E) :=
      map_points_congr ih (agree_of_filter h)
    have hunion : ∀ τ, {x | ∃ σ' ∈ points (Range.trips E) ranges.loops τ, x ∈ s.executed E σ'} =
        {x | ∃ X ∈ (points (Range.trips E) ranges.loops τ).map (s.executed E), x ∈ X} := by
      intro τ
      ext x
      simp
    simp only [Stmt.executed]
    rw [hunion, hunion, hmap]

/-! ## Reductions -/

/-- Repeated contributions do not matter. -/
def Idempotent : ReduceOp → Prop
  | .max | .min => True
  | .add | .mul => False

theorem step_right_comm (op : ReduceOp) (t : IntType) (z x y : ℤ) :
    op.step t (op.step t z x) y = op.step t (op.step t z y) x := by
  cases op with
  | add =>
    refine Symbolic.Agree.eq (t := t) ?_ (t.wrap_contains _) (t.wrap_contains _)
    have hl : Symbolic.Agree t (t.wrap (t.wrap (z + x) + y)) (z + x + y) :=
      (Symbolic.wrap_agree _).trans ((Symbolic.wrap_agree _).add (.refl y))
    have hr : Symbolic.Agree t (t.wrap (t.wrap (z + y) + x)) (z + y + x) :=
      (Symbolic.wrap_agree _).trans ((Symbolic.wrap_agree _).add (.refl x))
    rw [add_right_comm] at hl
    exact hl.trans (Int.ModEq.symm hr)
  | mul =>
    refine Symbolic.Agree.eq (t := t) ?_ (t.wrap_contains _) (t.wrap_contains _)
    have hl : Symbolic.Agree t (t.wrap (t.wrap (z * x) * y)) (z * x * y) :=
      (Symbolic.wrap_agree _).trans ((Symbolic.wrap_agree _).mul (.refl y))
    have hr : Symbolic.Agree t (t.wrap (t.wrap (z * y) * x)) (z * y * x) :=
      (Symbolic.wrap_agree _).trans ((Symbolic.wrap_agree _).mul (.refl x))
    rw [mul_right_comm] at hl
    exact hl.trans (Int.ModEq.symm hr)
  | max => exact max_right_comm z x y
  | min => exact min_right_comm z x y

theorem fold_perm (op : ReduceOp) (t : IntType) {xs ys : List ℤ} (h : xs.Perm ys) :
    op.fold t xs = op.fold t ys := by
  have : RightCommutative (op.step t) := ⟨step_right_comm op t⟩
  exact h.foldl_eq _

theorem fold_of_mem_iff {op : ReduceOp} (hop : Idempotent op) (t : IntType) {xs ys : List ℤ}
    (h : ∀ x, x ∈ xs ↔ x ∈ ys) : op.fold t xs = op.fold t ys := by
  have : RightCommutative (op.step t) := ⟨step_right_comm op t⟩
  refine foldl_eq_of_mem_iff (fun z x => ?_) h _
  cases op with
  | add | mul => exact hop.elim
  | max => exact max_eq_left (le_max_right z x)
  | min => exact min_eq_left (min_le_right z x)

/-! ## The substitution of a merge -/

section Merge

variable {r0 r1 : Range} {s1 : ℤ}

/-- The ranges of two subgraphs after a merge. -/
theorem merged_or {p q a₀ a₁ b₀ b₁ m d : Prop} :
    ((p ∧ d) ∨ m ∧ (a₀ ∨ a₁)) ∨ ((q ∧ d) ∨ m ∧ (b₀ ∨ b₁)) ↔
      ((p ∨ q) ∧ d) ∨ m ∧ ((a₀ ∨ b₀) ∨ (a₁ ∨ b₁)) := by
  tauto

mutual

theorem Expr.mem_rangesOf_substitute (e : Expr) {r : Range} :
    r ∈ (e.substitute (mergeSubs r0 r1 s1)).rangesOf ↔
      (r ∈ e.rangesOf ∧ r ≠ r0 ∧ r ≠ r1) ∨
        (r = mergedRange r0 r1 ∧ (r0 ∈ e.rangesOf ∨ r1 ∈ e.rangesOf)) := by
  cases e with
  | const v => simp [Expr.substitute, Expr.rangesOf]
  | range c =>
    simp only [Expr.substitute, mergeSubs]
    by_cases h1 : c = r1
    · subst h1
      simp only [if_true, Option.getD_some, Expr.rangesOf, List.append_nil, List.mem_singleton,
        or_true, and_true]
      constructor
      · exact .inr
      · rintro (⟨rfl, -, hne⟩ | hr)
        · exact absurd rfl hne
        · exact hr
    · by_cases h0 : c = r0
      · subst h0
        simp only [h1, if_true, if_false, Option.getD_some, Expr.rangesOf, List.append_nil,
          List.mem_singleton, true_or, and_true]
        constructor
        · exact .inr
        · rintro (⟨rfl, hne, -⟩ | hr)
          · exact absurd rfl hne
          · exact hr
      · simp only [h1, h0, if_false, Option.getD_none, Expr.rangesOf, List.mem_singleton,
          Ne.symm (Ne.intro h1), Ne.symm (Ne.intro h0), or_self, and_false, or_false]
        constructor
        · rintro rfl
          exact ⟨rfl, h0, h1⟩
        · exact fun h => h.1
  | floorDiv a b | floorMod a b =>
    simp only [Expr.substitute, Expr.rangesOf, List.mem_append, a.mem_rangesOf_substitute,
      b.mem_rangesOf_substitute]
    exact merged_or
  | node id srcs => exact srcs.mem_rangesOf_substitute
  | reduce op t src ranges =>
    simp only [Expr.substitute, Expr.rangesOf, List.mem_append, src.mem_rangesOf_substitute,
      ranges.mem_rangesOf_substitute]
    exact merged_or

theorem Exprs.mem_rangesOf_substitute (es : Exprs) {r : Range} :
    r ∈ (es.substitute (mergeSubs r0 r1 s1)).rangesOf ↔
      (r ∈ es.rangesOf ∧ r ≠ r0 ∧ r ≠ r1) ∨
        (r = mergedRange r0 r1 ∧ (r0 ∈ es.rangesOf ∨ r1 ∈ es.rangesOf)) := by
  cases es with
  | nil => simp [Exprs.substitute, Exprs.rangesOf]
  | cons e es =>
    simp only [Exprs.substitute, Exprs.rangesOf, List.mem_append, e.mem_rangesOf_substitute,
      es.mem_rangesOf_substitute]
    exact merged_or

end

/-- The extents of a merge: the merged range counts the pairs of indices. -/
structure MergeExtents (E : Env) (r0 r1 : Range) (s1 : ℤ) : Prop where
  pos0 : 0 < r0.trips E
  pos1 : 0 < r1.trips E
  trips1 : (r1.trips E : ℤ) = s1

theorem trips_mergedRange (r0 r1 : Range) :
    (mergedRange r0 r1).trips E = r0.trips E * r1.trips E := rfl

/-- The loops of a node over both ranges are the two and the rest. -/
theorem loops_perm_both {ranges : Exprs} (h01 : r0 ≠ r1) (h0 : r0 ∈ ranges.loops)
    (h1 : r1 ∈ ranges.loops) :
    ranges.loops.Perm (r0 :: r1 :: ranges.loops.filter fun r => r ≠ r0 ∧ r ≠ r1) := by
  refine (List.perm_ext_iff_of_nodup (nodup_loops _) ?_).mpr fun r => ?_
  · refine List.nodup_cons.mpr ⟨by simp [h01], List.nodup_cons.mpr ⟨by simp, ?_⟩⟩
    exact (nodup_loops _).filter _
  · simp only [List.mem_cons, List.mem_filter, decide_eq_true_eq]
    by_cases hr0 : r = r0 <;> by_cases hr1 : r = r1 <;> simp_all

/-- The loops of a node over one of the ranges. -/
theorem loops_perm_one {ranges : Exprs} {a b : Range} (hab : a ≠ b) (ha : a ∈ ranges.loops)
    (hb : b ∉ ranges.loops) :
    ranges.loops.Perm (a :: ranges.loops.filter fun r => r ≠ a ∧ r ≠ b) := by
  refine (List.perm_ext_iff_of_nodup (nodup_loops _) ?_).mpr fun r => ?_
  · exact List.nodup_cons.mpr ⟨by simp, (nodup_loops _).filter _⟩
  · simp only [List.mem_cons, List.mem_filter, decide_eq_true_eq]
    by_cases hra : r = a
    · simp_all
    · by_cases hrb : r = b <;> simp_all

/-- The loops after the merge: the merged one and the rest. -/
theorem loops_substitute_perm {ranges : Exprs} (hm : mergedRange r0 r1 ∉ ranges.loops)
    (h : r0 ∈ ranges.loops ∨ r1 ∈ ranges.loops) :
    (ranges.substitute (mergeSubs r0 r1 s1)).loops.Perm
      (mergedRange r0 r1 :: ranges.loops.filter fun r => r ≠ r0 ∧ r ≠ r1) := by
  rw [mem_loops, mem_loops] at h
  refine (List.perm_ext_iff_of_nodup (nodup_loops _) ?_).mpr fun r => ?_
  · exact List.nodup_cons.mpr ⟨fun hmem => hm (List.mem_of_mem_filter hmem),
      (nodup_loops _).filter _⟩
  · rw [mem_loops, Exprs.mem_rangesOf_substitute]
    simp only [List.mem_cons, List.mem_filter, decide_eq_true_eq, mem_loops]
    tauto

theorem loops_substitute_perm_self {ranges : Exprs} (h0 : r0 ∉ ranges.loops)
    (h1 : r1 ∉ ranges.loops) :
    (ranges.substitute (mergeSubs r0 r1 s1)).loops.Perm ranges.loops := by
  refine (List.perm_ext_iff_of_nodup (nodup_loops _) (nodup_loops _)).mpr fun r => ?_
  rw [mem_loops] at h0 h1
  rw [mem_loops, mem_loops, Exprs.mem_rangesOf_substitute]
  constructor
  · rintro (h | ⟨-, h | h⟩)
    · exact h.1
    · exact absurd h h0
    · exact absurd h h1
  · exact fun h => .inl ⟨h, fun he => h0 (he ▸ h), fun he => h1 (he ▸ h)⟩

section Points

variable {S : List Range} {β : Type} {f : Point Range → β} {ranges : Exprs}

/-- Loops over both ranges or neither: the same values, each as often. -/
theorem map_points_substitute_perm (h01 : r0 ≠ r1)
    (hm : mergedRange r0 r1 ∉ S) (hf : Reads f S) (hranges : ∀ r ∈ ranges.loops, r ∈ S)
    (hboth : r0 ∈ ranges.loops ↔ r1 ∈ ranges.loops) (σ : Point Range) :
    ((points (Range.trips E) (ranges.substitute (mergeSubs r0 r1 s1)).loops σ).map
        (f ∘ IndexSpace.split r0 r1 (mergedRange r0 r1) (r1.trips E))).Perm
      ((points (Range.trips E) ranges.loops
        (IndexSpace.split r0 r1 (mergedRange r0 r1) (r1.trips E) σ)).map f) := by
  have hm' : mergedRange r0 r1 ∉ ranges.loops := fun h => hm (hranges _ h)
  by_cases h0 : r0 ∈ ranges.loops
  · have h1 := hboth.mp h0
    refine ((points_perm (loops_substitute_perm hm' (.inl h0)) σ).map _).trans ?_
    rw [map_points_merge h01 (fun h => hm' (List.mem_of_mem_filter h)) (trips_mergedRange r0 r1)
      hf hm (by simp) (by simp)]
    exact ((points_perm (loops_perm_both h01 h0 h1) _).map _).symm
  · have h1 := mt hboth.mpr h0
    refine ((points_perm (loops_substitute_perm_self h0 h1) σ).map _).trans ?_
    rw [← List.map_map, map_split_points h0 h1 hm']

/-- Loops over one of the ranges only: the same values, when the other one is not read. -/
theorem mem_map_points_substitute (hext : MergeExtents E r0 r1 s1) (h01 : r0 ≠ r1)
    (hm : mergedRange r0 r1 ∉ S) (hf : Reads f S) (hranges : ∀ r ∈ ranges.loops, r ∈ S)
    (hone : (r0 ∈ ranges.loops ↔ r1 ∈ ranges.loops) ∨ r0 ∉ S ∨ r1 ∉ S) (σ : Point Range) (y : β) :
    y ∈ (points (Range.trips E) (ranges.substitute (mergeSubs r0 r1 s1)).loops σ).map
        (f ∘ IndexSpace.split r0 r1 (mergedRange r0 r1) (r1.trips E)) ↔
      y ∈ (points (Range.trips E) ranges.loops
        (IndexSpace.split r0 r1 (mergedRange r0 r1) (r1.trips E) σ)).map f := by
  have hm' : mergedRange r0 r1 ∉ ranges.loops := fun h => hm (hranges _ h)
  by_cases hboth : r0 ∈ ranges.loops ↔ r1 ∈ ranges.loops
  · exact (map_points_substitute_perm h01 hm hf hranges hboth σ).mem_iff
  rcases hone.resolve_left hboth with h0S | h1S
  · have h0 : r0 ∉ ranges.loops := fun h => h0S (hranges _ h)
    have h1 : r1 ∈ ranges.loops := by tauto
    have hrest : ranges.loops.filter (fun r => r ≠ r0 ∧ r ≠ r1) =
        ranges.loops.filter fun r => r ≠ r1 ∧ r ≠ r0 := by simp only [and_comm]
    rw [((points_perm (loops_substitute_perm hm' (.inr h1)) σ).map _).mem_iff,
      mem_map_points_mod (fun h => hm' (List.mem_of_mem_filter h)) (by simp) (by simp)
        (trips_mergedRange r0 r1) hext.pos0 hf hm h0S, hrest]
    exact ((points_perm (loops_perm_one h01.symm h1 h0) _).map _).mem_iff.symm
  · have h1 : r1 ∉ ranges.loops := fun h => h1S (hranges _ h)
    have h0 : r0 ∈ ranges.loops := by tauto
    rw [((points_perm (loops_substitute_perm hm' (.inl h0)) σ).map _).mem_iff,
      mem_map_points_div (fun h => hm' (List.mem_of_mem_filter h)) (by simp) (by simp)
        (trips_mergedRange r0 r1) hext.pos1 hf hm h1S]
    exact ((points_perm (loops_perm_one h01 h0 h1) _).map _).mem_iff.symm

end Points

/-! ## Values after the merge -/

/-- The operation of a loop nest, none of an END, and its ranges. -/
structure Binder where
  op : Option ReduceOp
  loops : List Range

mutual

/-- The reductions of a subgraph, without those inside range sources. -/
def Expr.binders : Expr → List Binder
  | .const _ => []
  | .range _ => []
  | .floorDiv a b => a.binders ++ b.binders
  | .floorMod a b => a.binders ++ b.binders
  | .node _ srcs => srcs.binders
  | .reduce op _ src ranges => ⟨some op, ranges.loops⟩ :: src.binders

def Exprs.binders : Exprs → List Binder
  | .nil => []
  | .cons e es => e.binders ++ es.binders

end

def Stmt.binders : Stmt → List Binder
  | .noop => []
  | .store _ srcs => srcs.binders
  | .group s t => s.binders ++ t.binders
  | .end_ s ranges => ⟨none, ranges.loops⟩ :: s.binders

/-- Repeating points under the loop nest does not matter. -/
def Binder.Idempotent (b : Binder) : Prop :=
  match b.op with
  | some op => MergeAdjacent.Idempotent op
  | none => True

/-- The loop nest is over both ranges or neither; or it forgets repetitions, and one of the ranges
    is not among `S`. -/
def Binder.Allows (r0 r1 : Range) (S : List Range) (b : Binder) : Prop :=
  (r0 ∈ b.loops ↔ r1 ∈ b.loops) ∨ b.Idempotent ∧ (r0 ∉ S ∨ r1 ∉ S)

section Values

variable {S : List Range} (hext : MergeExtents E r0 r1 s1) (h01 : r0 ≠ r1)
  (hm : mergedRange r0 r1 ∉ S)

mutual

/-- The value of the rewritten node is that of the node at the split indices. -/
theorem Expr.eval_substitute (hext : MergeExtents E r0 r1 s1) (h01 : r0 ≠ r1)
    (hm : mergedRange r0 r1 ∉ S) (e : Expr) (hS : ∀ r ∈ e.rangesOf, r ∈ S)
    (hb : ∀ b ∈ e.binders, b.Allows r0 r1 S) (σ : Point Range) :
    (e.substitute (mergeSubs r0 r1 s1)).eval E σ =
      e.eval E (IndexSpace.split r0 r1 (mergedRange r0 r1) (r1.trips E) σ) := by
  cases e with
  | const v => rfl
  | range c =>
    have hdiv : (σ (mergedRange r0 r1) : ℤ).fdiv s1 = (σ (mergedRange r0 r1) / r1.trips E : ℕ) := by
      rw [← hext.trips1, Int.fdiv_eq_ediv_of_nonneg _ (Int.natCast_nonneg _)]
      rfl
    have hmod : (σ (mergedRange r0 r1) : ℤ).fmod s1 = (σ (mergedRange r0 r1) % r1.trips E : ℕ) := by
      rw [← hext.trips1, Int.fmod_eq_emod_of_nonneg _ (Int.natCast_nonneg _)]
      rfl
    simp only [Expr.substitute, mergeSubs, IndexSpace.split]
    by_cases h1 : c = r1
    · simp only [h1, if_true, Option.getD_some, Expr.eval, hmod, Function.update_self]
    · by_cases h0 : c = r0
      · simp only [h0, h01, if_true, if_false, Option.getD_some, Expr.eval, hdiv,
          Function.update_of_ne h01, Function.update_self]
      · simp only [h1, h0, if_false, Option.getD_none, Expr.eval, Function.update_of_ne h1,
          Function.update_of_ne h0]
  | floorDiv a b | floorMod a b =>
    simp only [Expr.rangesOf, Expr.binders, List.mem_append] at hS hb
    simp only [Expr.substitute, Expr.eval]
    rw [a.eval_substitute hext h01 hm (fun r hr => hS r (.inl hr)) (fun b' hb' => hb b' (.inl hb')),
      b.eval_substitute hext h01 hm (fun r hr => hS r (.inr hr)) fun b' hb' => hb b' (.inr hb')]
  | node id srcs =>
    simp only [Expr.substitute, Expr.eval]
    rw [srcs.eval_substitute hext h01 hm hS hb]
  | reduce op t src ranges =>
    simp only [Expr.rangesOf, Expr.binders, List.mem_append, List.mem_cons] at hS hb
    have hreads := Reads.mono (src.eval_reads (E := E)) fun r hr =>
      hS r (.inl (src.free_subset r hr))
    have hranges : ∀ r ∈ ranges.loops, r ∈ S := fun r hr => hS r (.inr (mem_loops.mp hr))
    have hsrc : (fun σ' => (src.substitute (mergeSubs r0 r1 s1)).eval E σ') =
        src.eval E ∘ IndexSpace.split r0 r1 (mergedRange r0 r1) (r1.trips E) :=
      funext fun σ' => src.eval_substitute hext h01 hm (fun r hr => hS r (.inl hr))
        (fun b' hb' => hb b' (.inr hb')) σ'
    simp only [Expr.substitute, Expr.eval, hsrc]
    rcases hb ⟨some op, ranges.loops⟩ (.inl rfl) with hboth | ⟨hidem, hone⟩
    · exact fold_perm op t (map_points_substitute_perm h01 hm hreads hranges hboth σ)
    · exact fold_of_mem_iff hidem t
        (mem_map_points_substitute hext h01 hm hreads hranges (.inr hone) σ)

theorem Exprs.eval_substitute (hext : MergeExtents E r0 r1 s1) (h01 : r0 ≠ r1)
    (hm : mergedRange r0 r1 ∉ S) (es : Exprs) (hS : ∀ r ∈ es.rangesOf, r ∈ S)
    (hb : ∀ b ∈ es.binders, b.Allows r0 r1 S) (σ : Point Range) :
    (es.substitute (mergeSubs r0 r1 s1)).eval E σ =
      es.eval E (IndexSpace.split r0 r1 (mergedRange r0 r1) (r1.trips E) σ) := by
  cases es with
  | nil => rfl
  | cons e es =>
    simp only [Exprs.rangesOf, Exprs.binders, List.mem_append] at hS hb
    simp only [Exprs.substitute, Exprs.eval]
    rw [e.eval_substitute hext h01 hm (fun r hr => hS r (.inl hr)) (fun b' hb' => hb b' (.inl hb')),
      es.eval_substitute hext h01 hm (fun r hr => hS r (.inr hr)) fun b' hb' => hb b' (.inr hb')]

end

include hext h01 hm in
/-- The stores the rewritten node executes. -/
theorem Stmt.executed_substitute (s : Stmt) (hS : ∀ r ∈ s.rangesOf, r ∈ S)
    (hb : ∀ b ∈ s.binders, b.Allows r0 r1 S) (σ : Point Range) :
    (s.substitute (mergeSubs r0 r1 s1)).executed E σ =
      s.executed E (IndexSpace.split r0 r1 (mergedRange r0 r1) (r1.trips E) σ) := by
  induction s generalizing σ with
  | noop => rfl
  | store id srcs =>
    simp only [Stmt.substitute, Stmt.executed]
    rw [srcs.eval_substitute hext h01 hm hS hb]
  | group s t ihs iht =>
    simp only [Stmt.rangesOf, Stmt.binders, List.mem_append] at hS hb
    simp only [Stmt.substitute, Stmt.executed]
    rw [ihs (fun r hr => hS r (.inl hr)) (fun b' hb' => hb b' (.inl hb')),
      iht (fun r hr => hS r (.inr hr)) fun b' hb' => hb b' (.inr hb')]
  | end_ s ranges ih =>
    simp only [Stmt.rangesOf, Stmt.binders, List.mem_append, List.mem_cons] at hS hb
    have hreads := Reads.mono (s.executed_reads (E := E)) fun r hr =>
      hS r (.inl (s.free_subset r hr))
    have hranges : ∀ r ∈ ranges.loops, r ∈ S := fun r hr => hS r (.inr (mem_loops.mp hr))
    have hone : (r0 ∈ ranges.loops ↔ r1 ∈ ranges.loops) ∨ r0 ∉ S ∨ r1 ∉ S :=
      (hb ⟨none, ranges.loops⟩ (.inl rfl)).imp_right And.right
    have hmem := mem_map_points_substitute hext h01 hm hreads hranges hone σ
    ext x
    simp only [Stmt.substitute, Stmt.executed, Set.mem_ofPred_eq,
      ih (fun r hr => hS r (.inl hr)) fun b' hb' => hb b' (.inr hb')]
    constructor
    · rintro ⟨σ', hσ', hx⟩
      obtain ⟨τ, hτ, heq⟩ := List.mem_map.mp ((hmem _).mp (List.mem_map_of_mem hσ'))
      refine ⟨τ, hτ, ?_⟩
      rw [heq]
      exact hx
    · rintro ⟨τ, hτ, hx⟩
      obtain ⟨σ', hσ', heq⟩ := List.mem_map.mp ((hmem _).mpr (List.mem_map_of_mem hτ))
      refine ⟨σ', hσ', ?_⟩
      rw [← heq] at hx
      exact hx

end Values

/-! ## Ranges after the merge -/

theorem mem_filter_loops {S : List Range} {ranges : Exprs} {r : Range} :
    r ∈ S.filter (· ∉ ranges.loops) ↔ r ∈ S ∧ r ∉ ranges.loops := by
  simp [List.mem_filter]

/-- A free range of the rewritten body that the merged loops do not bind. -/
theorem free_of_substitute {S T : List Range} {ranges : Exprs} {r : Range}
    (hT : r ∈ T → (r ∈ S ∧ r ≠ r0 ∧ r ≠ r1) ∨ r = mergedRange r0 r1 ∧ (r0 ∈ S ∨ r1 ∈ S))
    (h : r ∈ T.filter (· ∉ (ranges.substitute (mergeSubs r0 r1 s1)).loops)) :
    (r ∈ S.filter (· ∉ ranges.loops) ∧ r ≠ r0 ∧ r ≠ r1) ∨ r = mergedRange r0 r1 ∧
      (r0 ∈ S.filter (· ∉ ranges.loops) ∨ r1 ∈ S.filter (· ∉ ranges.loops)) := by
  rw [mem_filter_loops, mem_loops, Exprs.mem_rangesOf_substitute] at h
  simp only [mem_filter_loops]
  simp only [mem_loops]
  have := hT h.1
  tauto

mutual

theorem Expr.free_substitute (e : Expr) {r : Range}
    (h : r ∈ (e.substitute (mergeSubs r0 r1 s1)).free) :
    (r ∈ e.free ∧ r ≠ r0 ∧ r ≠ r1) ∨
      r = mergedRange r0 r1 ∧ (r0 ∈ e.free ∨ r1 ∈ e.free) := by
  cases e with
  | const v => simp [Expr.substitute, Expr.free] at h
  | range c =>
    by_cases h1 : c = r1
    · simp only [Expr.substitute, mergeSubs, h1, if_true, Option.getD_some, Expr.free,
        List.append_nil, List.mem_singleton] at h
      exact .inr ⟨h, .inr (by simp [Expr.free, h1])⟩
    · by_cases h0 : c = r0
      · simp only [Expr.substitute, mergeSubs, h0, if_true] at h
        split at h
        · next h01 => exact absurd (h0.trans h01) h1
        · exact .inr ⟨by simpa [Expr.free] using h, .inl (by simp [Expr.free, h0])⟩
      · simp only [Expr.substitute, mergeSubs, h1, h0, if_false, Option.getD_none, Expr.free,
          List.mem_singleton] at h
        exact .inl ⟨by simp [Expr.free, h], h ▸ h0, h ▸ h1⟩
  | floorDiv a b | floorMod a b =>
    simp only [Expr.substitute, Expr.free, List.mem_append] at h ⊢
    rcases h with h | h
    · have := a.free_substitute h
      tauto
    · have := b.free_substitute h
      tauto
  | node id srcs => exact srcs.free_substitute h
  | reduce op t src ranges => exact free_of_substitute src.free_substitute h

theorem Exprs.free_substitute (es : Exprs) {r : Range}
    (h : r ∈ (es.substitute (mergeSubs r0 r1 s1)).free) :
    (r ∈ es.free ∧ r ≠ r0 ∧ r ≠ r1) ∨
      r = mergedRange r0 r1 ∧ (r0 ∈ es.free ∨ r1 ∈ es.free) := by
  cases es with
  | nil => simp [Exprs.substitute, Exprs.free] at h
  | cons e es =>
    simp only [Exprs.substitute, Exprs.free, List.mem_append] at h ⊢
    rcases h with h | h
    · have := e.free_substitute h
      tauto
    · have := es.free_substitute h
      tauto

end

theorem Stmt.free_substitute (s : Stmt) {r : Range}
    (h : r ∈ (s.substitute (mergeSubs r0 r1 s1)).free) :
    (r ∈ s.free ∧ r ≠ r0 ∧ r ≠ r1) ∨
      r = mergedRange r0 r1 ∧ (r0 ∈ s.free ∨ r1 ∈ s.free) := by
  induction s with
  | noop => simp [Stmt.substitute, Stmt.free] at h
  | store id srcs => exact srcs.free_substitute h
  | group s t ihs iht =>
    simp only [Stmt.substitute, Stmt.free, List.mem_append] at h ⊢
    rcases h with h | h
    · have := ihs h
      tauto
    · have := iht h
      tauto
  | end_ s ranges ih => exact free_of_substitute ih h

theorem Stmt.mem_rangesOf_substitute (s : Stmt) {r : Range} :
    r ∈ (s.substitute (mergeSubs r0 r1 s1)).rangesOf ↔
      (r ∈ s.rangesOf ∧ r ≠ r0 ∧ r ≠ r1) ∨
        (r = mergedRange r0 r1 ∧ (r0 ∈ s.rangesOf ∨ r1 ∈ s.rangesOf)) := by
  induction s with
  | noop => simp [Stmt.substitute, Stmt.rangesOf]
  | store id srcs => exact srcs.mem_rangesOf_substitute
  | group s t ihs iht =>
    simp only [Stmt.substitute, Stmt.rangesOf, List.mem_append, ihs, iht]
    exact merged_or
  | end_ s ranges ih =>
    simp only [Stmt.substitute, Stmt.rangesOf, List.mem_append, ih,
      ranges.mem_rangesOf_substitute]
    exact merged_or

/-! ## A merge of ranges that are gone -/

section Absent

mutual

theorem Expr.substitute_of_absent (e : Expr) (h0 : r0 ∉ e.rangesOf) (h1 : r1 ∉ e.rangesOf) :
    e.substitute (mergeSubs r0 r1 s1) = e := by
  cases e with
  | const v => rfl
  | range c =>
    have hc0 : c ≠ r0 := fun h => h0 (by simp [Expr.rangesOf, h])
    have hc1 : c ≠ r1 := fun h => h1 (by simp [Expr.rangesOf, h])
    simp only [Expr.substitute, mergeSubs, hc0, hc1, if_false, Option.getD_none]
  | floorDiv a b | floorMod a b =>
    simp only [Expr.rangesOf, List.mem_append, not_or] at h0 h1
    simp only [Expr.substitute]
    rw [a.substitute_of_absent h0.1 h1.1, b.substitute_of_absent h0.2 h1.2]
  | node id srcs =>
    simp only [Expr.substitute]
    rw [srcs.substitute_of_absent h0 h1]
  | reduce op t src ranges =>
    simp only [Expr.rangesOf, List.mem_append, not_or] at h0 h1
    simp only [Expr.substitute]
    rw [src.substitute_of_absent h0.1 h1.1, ranges.substitute_of_absent h0.2 h1.2]

theorem Exprs.substitute_of_absent (es : Exprs) (h0 : r0 ∉ es.rangesOf) (h1 : r1 ∉ es.rangesOf) :
    es.substitute (mergeSubs r0 r1 s1) = es := by
  cases es with
  | nil => rfl
  | cons e es =>
    simp only [Exprs.rangesOf, List.mem_append, not_or] at h0 h1
    simp only [Exprs.substitute]
    rw [e.substitute_of_absent h0.1 h1.1, es.substitute_of_absent h0.2 h1.2]

end

theorem Stmt.substitute_of_absent (s : Stmt) (h0 : r0 ∉ s.rangesOf) (h1 : r1 ∉ s.rangesOf) :
    s.substitute (mergeSubs r0 r1 s1) = s := by
  induction s with
  | noop => rfl
  | store id srcs =>
    simp only [Stmt.substitute]
    rw [srcs.substitute_of_absent h0 h1]
  | group s t ihs iht =>
    simp only [Stmt.rangesOf, List.mem_append, not_or] at h0 h1
    simp only [Stmt.substitute]
    rw [ihs h0.1 h1.1, iht h0.2 h1.2]
  | end_ s ranges ih =>
    simp only [Stmt.rangesOf, List.mem_append, not_or] at h0 h1
    simp only [Stmt.substitute]
    rw [ih h0.1 h1.1, ranges.substitute_of_absent h0.2 h1.2]

end Absent

end Merge

/-! ## Flat ranges -/

theorem loops_ofRanges_perm (ranges : Exprs) :
    (Exprs.ofRanges ranges.loops).loops.Perm ranges.loops :=
  (List.perm_ext_iff_of_nodup (nodup_loops _) (nodup_loops _)).mpr fun r => by
    rw [mem_loops, rangesOf_ofRanges]

mutual

theorem Expr.eval_flattenRange (e : Expr) : e.flattenRange.eval E = e.eval E := by
  funext σ
  cases e with
  | const v => rfl
  | range r => rfl
  | floorDiv a b | floorMod a b =>
    simp only [Expr.flattenRange, Expr.eval]
    rw [a.eval_flattenRange, b.eval_flattenRange]
  | node id srcs =>
    simp only [Expr.flattenRange, Expr.eval]
    rw [srcs.eval_flattenRange]
  | reduce op t src ranges =>
    simp only [Expr.flattenRange, Expr.eval]
    rw [src.eval_flattenRange]
    exact fold_perm op t ((points_perm (loops_ofRanges_perm ranges) σ).map _)

theorem Exprs.eval_flattenRange (es : Exprs) : es.flattenRange.eval E = es.eval E := by
  funext σ
  cases es with
  | nil => rfl
  | cons e es =>
    simp only [Exprs.flattenRange, Exprs.eval]
    rw [e.eval_flattenRange, es.eval_flattenRange]

end

theorem Stmt.executed_flattenRange (s : Stmt) : s.flattenRange.executed E = s.executed E := by
  induction s with
  | noop => rfl
  | store id srcs =>
    funext σ
    simp only [Stmt.flattenRange, Stmt.executed]
    rw [srcs.eval_flattenRange]
  | group s t ihs iht =>
    funext σ
    simp only [Stmt.flattenRange, Stmt.executed]
    rw [ihs, iht]
  | end_ s ranges ih =>
    funext σ
    ext x
    simp only [Stmt.flattenRange, Stmt.executed, Set.mem_ofPred_eq, ih,
      (points_perm (loops_ofRanges_perm ranges) σ).mem_iff]

mutual

theorem Expr.rangesOf_flattenRange (e : Expr) : ∀ r ∈ e.flattenRange.rangesOf, r ∈ e.rangesOf := by
  intro r hr
  cases e with
  | const v => exact hr
  | range c => exact hr
  | floorDiv a b | floorMod a b =>
    exact List.mem_append.mpr ((List.mem_append.mp hr).imp (a.rangesOf_flattenRange r)
      (b.rangesOf_flattenRange r))
  | node id srcs => exact srcs.rangesOf_flattenRange r hr
  | reduce op t src ranges =>
    refine List.mem_append.mpr ((List.mem_append.mp hr).imp (src.rangesOf_flattenRange r) ?_)
    rw [rangesOf_ofRanges]
    exact mem_loops.mp

theorem Exprs.rangesOf_flattenRange (es : Exprs) :
    ∀ r ∈ es.flattenRange.rangesOf, r ∈ es.rangesOf := by
  intro r hr
  cases es with
  | nil => exact hr
  | cons e es =>
    exact List.mem_append.mpr ((List.mem_append.mp hr).imp (e.rangesOf_flattenRange r)
      (es.rangesOf_flattenRange r))

end

theorem Stmt.rangesOf_flattenRange (s : Stmt) :
    ∀ r ∈ s.flattenRange.rangesOf, r ∈ s.rangesOf := by
  induction s with
  | noop => exact fun _ h => h
  | store id srcs => exact srcs.rangesOf_flattenRange
  | group s t ihs iht =>
    exact fun r hr => List.mem_append.mpr ((List.mem_append.mp hr).imp (ihs r) (iht r))
  | end_ s ranges ih =>
    refine fun r hr => List.mem_append.mpr ((List.mem_append.mp hr).imp (ih r) ?_)
    rw [rangesOf_ofRanges]
    exact mem_loops.mp

/-- Loops over the same ranges bind the same free ranges. -/
theorem free_of_flat {S T : List Range} {ranges : Exprs} {r : Range} (hT : r ∈ T → r ∈ S)
    (h : r ∈ T.filter (· ∉ (Exprs.ofRanges ranges.loops).loops)) :
    r ∈ S.filter (· ∉ ranges.loops) := by
  rw [mem_filter_loops, (loops_ofRanges_perm ranges).mem_iff] at h
  exact mem_filter_loops.mpr ⟨hT h.1, h.2⟩

mutual

theorem Expr.free_flattenRange (e : Expr) : ∀ r ∈ e.flattenRange.free, r ∈ e.free := by
  intro r hr
  cases e with
  | const v => exact hr
  | range c => exact hr
  | floorDiv a b | floorMod a b =>
    exact List.mem_append.mpr ((List.mem_append.mp hr).imp (a.free_flattenRange r)
      (b.free_flattenRange r))
  | node id srcs => exact srcs.free_flattenRange r hr
  | reduce op t src ranges => exact free_of_flat (src.free_flattenRange r) hr

theorem Exprs.free_flattenRange (es : Exprs) : ∀ r ∈ es.flattenRange.free, r ∈ es.free := by
  intro r hr
  cases es with
  | nil => exact hr
  | cons e es =>
    exact List.mem_append.mpr ((List.mem_append.mp hr).imp (e.free_flattenRange r)
      (es.free_flattenRange r))

end

theorem Stmt.free_flattenRange (s : Stmt) : ∀ r ∈ s.flattenRange.free, r ∈ s.free := by
  induction s with
  | noop => exact fun _ h => h
  | store id srcs => exact srcs.free_flattenRange
  | group s t ihs iht =>
    exact fun r hr => List.mem_append.mpr ((List.mem_append.mp hr).imp (ihs r) (iht r))
  | end_ s ranges ih => exact fun r hr => free_of_flat (ih r) hr

/-! ## Roots -/

namespace Root

def free : Root → List Range
  | value e => e.free
  | stmt s => s.free

def binders : Root → List Binder
  | value e => e.binders
  | stmt s => s.binders

theorem meaning_reads (u : Root) : Reads (u.meaning E) u.free := by
  intro σ σ' h
  cases u with
  | value e => simp only [meaning, e.eval_reads σ σ' h]
  | stmt s => simp only [meaning, s.executed_reads σ σ' h]

theorem mem_rangesOf_substitute (u : Root) {r0 r1 r : Range} {s1 : ℤ} :
    r ∈ (u.substitute (mergeSubs r0 r1 s1)).rangesOf ↔
      (r ∈ u.rangesOf ∧ r ≠ r0 ∧ r ≠ r1) ∨
        (r = mergedRange r0 r1 ∧ (r0 ∈ u.rangesOf ∨ r1 ∈ u.rangesOf)) := by
  cases u with
  | value e => exact e.mem_rangesOf_substitute
  | stmt s => exact s.mem_rangesOf_substitute

theorem free_substitute (u : Root) {r0 r1 r : Range} {s1 : ℤ}
    (h : r ∈ (u.substitute (mergeSubs r0 r1 s1)).free) :
    (r ∈ u.free ∧ r ≠ r0 ∧ r ≠ r1) ∨
      r = mergedRange r0 r1 ∧ (r0 ∈ u.free ∨ r1 ∈ u.free) := by
  cases u with
  | value e => exact e.free_substitute h
  | stmt s => exact s.free_substitute h

theorem substitute_of_absent (u : Root) {r0 r1 : Range} {s1 : ℤ} (h0 : r0 ∉ u.rangesOf)
    (h1 : r1 ∉ u.rangesOf) : u.substitute (mergeSubs r0 r1 s1) = u := by
  cases u with
  | value e => simp only [Root.substitute, e.substitute_of_absent h0 h1]
  | stmt s => simp only [Root.substitute, s.substitute_of_absent h0 h1]

theorem meaning_substitute (u : Root) {r0 r1 : Range} {s1 : ℤ} (hext : MergeExtents E r0 r1 s1)
    (h01 : r0 ≠ r1) (hm : mergedRange r0 r1 ∉ u.rangesOf)
    (hb : ∀ b ∈ u.binders, b.Allows r0 r1 u.rangesOf) (σ : Point Range) :
    (u.substitute (mergeSubs r0 r1 s1)).meaning E σ =
      u.meaning E (IndexSpace.split r0 r1 (mergedRange r0 r1) (r1.trips E) σ) := by
  cases u with
  | value e =>
    simp only [Root.substitute, meaning]
    rw [e.eval_substitute hext h01 hm (fun _ h => h) hb]
  | stmt s =>
    simp only [Root.substitute, meaning]
    rw [s.executed_substitute hext h01 hm (fun _ h => h) hb]

theorem meaning_flattenRange (u : Root) : u.flattenRange.meaning E = u.meaning E := by
  cases u with
  | value e =>
    funext σ
    simp only [Root.flattenRange, meaning, e.eval_flattenRange]
  | stmt s =>
    funext σ
    simp only [Root.flattenRange, meaning, s.executed_flattenRange]

theorem rangesOf_flattenRange (u : Root) : ∀ r ∈ u.flattenRange.rangesOf, r ∈ u.rangesOf := by
  cases u with
  | value e => exact e.rangesOf_flattenRange
  | stmt s => exact s.rangesOf_flattenRange

theorem free_flattenRange (u : Root) : ∀ r ∈ u.flattenRange.free, r ∈ u.free := by
  cases u with
  | value e => exact e.free_flattenRange
  | stmt s => exact s.free_flattenRange

end Root

/-! ## Chains of merges -/

/-- Every range of the node has an iteration. -/
def PositiveTrips (E : Env) (u : Root) : Prop := ∀ r ∈ u.rangesOf, 0 < r.trips E

/-- The ranges the node reads from outside have an index inside their extents. -/
def InsideOuter (E : Env) (u : Root) (σ : Point Range) : Prop := ∀ r ∈ u.free, σ r < r.trips E

/-- The node that a merge hands to the rules. -/
def handed (current : Root) (r0 r1 : Range) (s1 : ℤ) : Root :=
  (current.substitute (mergeSubs r0 r1 s1)).flattenRange

/-- Rules that keep the value of what a merge hands to them: where every range has an iteration and
    the outer indices are inside their extents, the node they return means the same, reads nothing
    new from outside and has no empty range. -/
structure Simplifies (sym : Root → Root) : Prop where
  positive : ∀ E current r0 r1 s1, PositiveTrips E (handed current r0 r1 s1) →
    PositiveTrips E (simplified sym current r0 r1 s1)
  free : ∀ current r0 r1 s1,
    ∀ r ∈ (simplified sym current r0 r1 s1).free, r ∈ (handed current r0 r1 s1).free
  meaning : ∀ E current r0 r1 s1 σ, PositiveTrips E (handed current r0 r1 s1) →
    InsideOuter E (handed current r0 r1 s1) σ →
      (simplified sym current r0 r1 s1).meaning E σ = (handed current r0 r1 s1).meaning E σ

/-- A merge of `r0` and `r1` in `current` is a change of index: the ranges are both gone already,
    or every loop nest allows it and the merged range is new. -/
def AllowsMerge (current : Root) (r0 r1 : Range) : Prop :=
  (r0 ∉ current.rangesOf ∧ r1 ∉ current.rangesOf) ∨
    r0 ≠ r1 ∧ mergedRange r0 r1 ∉ current.rangesOf ∧
      ∀ b ∈ current.binders, b.Allows r0 r1 current.rangesOf

/-- Every pair that passes the tests is one whose merge the node built so far allows. -/
def MergesAllowed (sym : Root → Root) (reduces : List Exprs) (ended : List Expr) :
    Root → List (ℕ × ℕ) → Prop
  | _, [] => True
  | current, p :: ps =>
    (∀ r0 r1 s1, candidate reduces ended p = some (r0, r1, s1) →
      accepts sym current r0 r1 s1 = true → AllowsMerge current r0 r1) ∧
    MergesAllowed sym reduces ended (mergeStep sym reduces ended (current, false) p).1 ps

/-- What the loop keeps of the node it started with. -/
structure Kept (E : Env) (u current : Root) : Prop where
  positive : PositiveTrips E current
  free : ∀ r ∈ current.free, r ∈ u.free
  meaning : ∀ σ, InsideOuter E u σ → current.meaning E σ = u.meaning E σ

/-- What the checks on a pair say about it. -/
theorem candidate_some {reduces : List Exprs} {ended : List Expr} {p : ℕ × ℕ} {r0 r1 : Range}
    {s1 : ℤ} (h : candidate reduces ended p = some (r0, r1, s1)) :
    Expr.range r0 ∈ ended ∧ Expr.range r1 ∈ ended ∧ MergeExtents E r0 r1 s1 := by
  unfold candidate at h
  split at h
  · next a b ha hb =>
    split at h
    · simp at h
    · split at h
      · simp at h
      · obtain ⟨⟨t0, t1⟩, hs, heq⟩ := Option.map_eq_some_iff.mp h
        obtain ⟨rfl, rfl, rfl⟩ : a = r0 ∧ b = r1 ∧ t1 = s1 := by simpa using heq
        refine ⟨List.mem_of_getElem? ha, List.mem_of_getElem? hb, ?_⟩
        unfold mergeExtents at hs
        split at hs
        · next s0 s1' h0 h1 =>
          split at hs
          · simp at hs
          · next hpos =>
            obtain ⟨rfl, rfl⟩ : s0 = t0 ∧ s1' = t1 := by simpa using hs
            have h0' : a.trips E = s0.toNat := by rw [Range.trips, h0]; rfl
            have h1' : b.trips E = s1'.toNat := by rw [Range.trips, h1]; rfl
            exact ⟨by omega, by omega, by omega⟩
        · simp at hs
  · simp at h

theorem range_mem_rangesOf {ranges : Exprs} {r : Range} (h : Expr.range r ∈ ranges.toList) :
    r ∈ ranges.rangesOf := by
  match ranges with
  | .nil => simp [Exprs.toList] at h
  | .cons e es =>
    rcases List.mem_cons.mp h with rfl | h
    · exact List.mem_append.mpr (.inl (by simp [Expr.rangesOf]))
    · exact List.mem_append.mpr (.inr (range_mem_rangesOf h))

/-- The ranges a node closes are not read from outside. -/
theorem not_mem_free_of_ended {u : Root} {ended : List Expr} (h : u.endedRanges = some ended)
    {r : Range} (hr : Expr.range r ∈ ended) : r ∉ u.free := by
  have bound : ∀ {S : List Range} {ranges : Exprs}, Expr.range r ∈ ranges.toList →
      r ∉ S.filter (· ∉ ranges.loops) := fun hmem hfree =>
    (mem_filter_loops.mp hfree).2 (mem_loops.mpr (range_mem_rangesOf hmem))
  unfold Root.endedRanges at h
  split at h
  · obtain rfl := Option.some.inj h
    exact bound hr
  · obtain rfl := Option.some.inj h
    exact bound hr
  · simp at h

theorem InsideOuter.mono {u v : Root} {σ : Point Range} (h : InsideOuter E u σ)
    (hfree : ∀ r ∈ v.free, r ∈ u.free) : InsideOuter E v σ :=
  fun r hr => h r (hfree r hr)

/-- A merge the node built so far allows keeps it. -/
theorem Kept.merge {sym : Root → Root} {u current : Root} {r0 r1 : Range} {s1 : ℤ}
    (hsym : Simplifies sym) (hext : MergeExtents E r0 r1 s1) (h0 : r0 ∉ u.free) (h1 : r1 ∉ u.free)
    (hallow : AllowsMerge current r0 r1) (h : Kept E u current) :
    Kept E u (simplified sym current r0 r1 s1) := by
  have hposSub : PositiveTrips E (current.substitute (mergeSubs r0 r1 s1)) := by
    intro r hr
    rcases (Root.mem_rangesOf_substitute current).mp hr with hr | ⟨rfl, -⟩
    · exact h.positive r hr.1
    · rw [trips_mergedRange]
      exact Nat.mul_pos hext.pos0 hext.pos1
  have hposFlat : PositiveTrips E (handed current r0 r1 s1) :=
    fun r hr => hposSub r (Root.rangesOf_flattenRange _ r hr)
  have hfreeFlat : ∀ r ∈ (handed current r0 r1 s1).free, r ∈ u.free := by
    intro r hr
    rcases Root.free_substitute current (Root.free_flattenRange _ r hr) with hr | ⟨-, hr | hr⟩
    · exact h.free r hr.1
    · exact absurd (h.free r0 hr) h0
    · exact absurd (h.free r1 hr) h1
  have hmeaning : ∀ σ, (current.substitute (mergeSubs r0 r1 s1)).meaning E σ =
      current.meaning E σ := by
    intro σ
    rcases hallow with ⟨ha0, ha1⟩ | ⟨h01, hm, hb⟩
    · rw [current.substitute_of_absent ha0 ha1]
    · rw [current.meaning_substitute hext h01 hm hb]
      refine current.meaning_reads _ _ fun r hr => ?_
      have hr0 : r ≠ r0 := fun he => h0 (he ▸ h.free r hr)
      have hr1 : r ≠ r1 := fun he => h1 (he ▸ h.free r hr)
      rw [IndexSpace.split, Function.update_of_ne hr1, Function.update_of_ne hr0]
  refine ⟨hsym.positive E current r0 r1 s1 hposFlat,
    fun r hr => hfreeFlat r (hsym.free current r0 r1 s1 r hr), fun σ hσ => ?_⟩
  calc (simplified sym current r0 r1 s1).meaning E σ
      = (handed current r0 r1 s1).meaning E σ :=
        hsym.meaning E current r0 r1 s1 σ hposFlat (hσ.mono hfreeFlat)
    _ = (current.substitute (mergeSubs r0 r1 s1)).meaning E σ :=
      congrFun (Root.meaning_flattenRange _) σ
    _ = current.meaning E σ := hmeaning σ
    _ = u.meaning E σ := h.meaning σ hσ

/-- The node a pair leaves does not depend on whether an earlier one was merged. -/
theorem mergeStep_fst (sym : Root → Root) (reduces : List Exprs) (ended : List Expr)
    (current : Root) (b b' : Bool) (p : ℕ × ℕ) :
    (mergeStep sym reduces ended (current, b) p).1 =
      (mergeStep sym reduces ended (current, b') p).1 := by
  unfold mergeStep
  cases candidate reduces ended p with
  | none => rfl
  | some c =>
    obtain ⟨r0, r1, s1⟩ := c
    simp only
    split <;> rfl

theorem Kept.step {sym : Root → Root} {u current : Root} {reduces : List Exprs}
    {ended : List Expr} {b : Bool} {p : ℕ × ℕ} (hsym : Simplifies sym)
    (hended : u.endedRanges = some ended)
    (hallow : ∀ r0 r1 s1, candidate reduces ended p = some (r0, r1, s1) →
      accepts sym current r0 r1 s1 = true → AllowsMerge current r0 r1)
    (h : Kept E u current) : Kept E u (mergeStep sym reduces ended (current, b) p).1 := by
  unfold mergeStep
  cases hc : candidate reduces ended p with
  | none => exact h
  | some c =>
    obtain ⟨r0, r1, s1⟩ := c
    obtain ⟨hr0, hr1, hext⟩ := candidate_some (E := E) hc
    simp only
    split
    · next hacc =>
      exact h.merge hsym hext (not_mem_free_of_ended hended hr0) (not_mem_free_of_ended hended hr1)
        (hallow r0 r1 s1 hc hacc)
    · exact h

/-- The loop keeps the node. -/
theorem Kept.foldl {sym : Root → Root} {u : Root} {reduces : List Exprs} {ended : List Expr}
    (hsym : Simplifies sym) (hended : u.endedRanges = some ended) {ps : List (ℕ × ℕ)}
    {current : Root} {b : Bool} (hallow : MergesAllowed sym reduces ended current ps)
    (h : Kept E u current) :
    Kept E u (ps.foldl (mergeStep sym reduces ended) (current, b)).1 := by
  induction ps generalizing current b with
  | nil => exact h
  | cons p ps ih =>
    obtain ⟨hp, hps⟩ := hallow
    rw [mergeStep_fst sym reduces ended current false b p] at hps
    exact ih hps (h.step hsym hended hp)

/-! ## The result -/

instance (E : Env) (u : Root) : Decidable (PositiveTrips E u) :=
  inferInstanceAs (Decidable (∀ r ∈ u.rangesOf, 0 < r.trips E))

instance (E : Env) (u : Root) (σ : Point Range) : Decidable (InsideOuter E u σ) :=
  inferInstanceAs (Decidable (∀ r ∈ u.free, σ r < r.trips E))

section Sums

private def ones : Env := ⟨fun _ => 0, fun _ _ => 1⟩

end Sums

end Svod.Rangeify.MergeAdjacent
