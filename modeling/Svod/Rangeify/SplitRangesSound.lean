/-
  Svod.Rangeify.SplitRangesSound

  Splitting ranges keeps what a sink executes, over any run of the rewriting in
  which the recorded moduli are positive.

  One split is one regrouping of the axes: the ranges of every END and REDUCE are
  replaced by their parts, and a value at the indices of the parts is the value at
  the joined indices.  That the new ranges are new comes from the axis ids, which
  are kept apart: no range of a sink descends from the children that a split of
  another would make.  Flattening changes no value, and neither do the rules that
  simplify the result.
-/

import Svod.Rangeify.MergeAdjacentSound
import Svod.Rangeify.SplitRanges

namespace Svod.Rangeify.SplitRanges

open Svod.Lib Svod.Lib.IndexSpace
open Svod.Rangeify.MergeAdjacent (nodup_eraseDups append_subset fold_perm agree_of_filter)
open Svod.Ir.Graph (AxisId)

variable {E : Env}

/-! ## Lists of ranges -/

theorem mem_loops {ranges : Exprs} {r : Range} : r ∈ ranges.loops ↔ r ∈ ranges.rangesOf :=
  List.mem_eraseDups

theorem nodup_loops (ranges : Exprs) : ranges.loops.Nodup := nodup_eraseDups _

@[simp] theorem rangesOf_ofRanges (rs : List Range) : (Exprs.ofRanges rs).rangesOf = rs := by
  induction rs with
  | nil => rfl
  | cons r rs ih => simp [Exprs.ofRanges, Exprs.rangesOf, Expr.rangesOf, ih]

theorem loops_ofRanges_perm (ranges : Exprs) :
    (Exprs.ofRanges ranges.loops).loops.Perm ranges.loops := by
  refine (List.perm_ext_iff_of_nodup (nodup_loops _) (nodup_loops _)).mpr fun r => ?_
  rw [mem_loops, rangesOf_ofRanges]

/-! ## What a value reads -/

mutual

/-- The ranges a value depends on: those not bound by a reduction. -/
def Expr.free : Expr → List Range
  | .const _ => []
  | .range r => [r]
  | .add a b => a.free ++ b.free
  | .mul a b => a.free ++ b.free
  | .floorDiv a b => a.free ++ b.free
  | .floorMod a b => a.free ++ b.free
  | .node _ srcs => srcs.free
  | .reduce _ _ src ranges => src.free.filter (· ∉ ranges.loops)

def Exprs.free : Exprs → List Range
  | .nil => []
  | .cons e es => e.free ++ es.free

end

def Stmt.free : Stmt → List Range
  | .noop => []
  | .store _ _ indices srcs => indices.free ++ srcs.free
  | .group s t => s.free ++ t.free
  | .end_ s ranges => s.free.filter (· ∉ ranges.loops)

mutual

theorem Expr.free_subset (e : Expr) : ∀ r ∈ e.free, r ∈ e.rangesOf := by
  cases e with
  | const v => exact fun r hr => hr
  | range c => exact fun r hr => hr
  | add a b | mul a b | floorDiv a b | floorMod a b =>
    exact append_subset a.free_subset b.free_subset
  | node id srcs => exact srcs.free_subset
  | reduce op t src ranges =>
    exact fun r hr => List.mem_append.mpr (.inl (src.free_subset r (List.mem_of_mem_filter hr)))

theorem Exprs.free_subset (es : Exprs) : ∀ r ∈ es.free, r ∈ es.rangesOf := by
  cases es with
  | nil => exact fun r hr => hr
  | cons e es => exact append_subset e.free_subset es.free_subset

end

theorem Stmt.free_subset (s : Stmt) : ∀ r ∈ s.free, r ∈ s.rangesOf := by
  induction s with
  | noop => exact fun _ h => h
  | store id isImage indices srcs => exact append_subset indices.free_subset srcs.free_subset
  | group s t ihs iht => exact append_subset ihs iht
  | end_ s ranges ih =>
    exact fun r hr => List.mem_append.mpr (.inl (ih r (List.mem_of_mem_filter hr)))

mutual

theorem Expr.eval_reads (e : Expr) : Reads (e.eval E) e.free := by
  cases e with
  | const v => exact fun _ _ _ => rfl
  | range r => exact fun _ _ h => congrArg Int.ofNat (h r (List.mem_singleton_self r))
  | add a b => exact .map₂ (· + ·) a.eval_reads b.eval_reads
  | mul a b => exact .map₂ (· * ·) a.eval_reads b.eval_reads
  | floorDiv a b => exact .map₂ Int.fdiv a.eval_reads b.eval_reads
  | floorMod a b => exact .map₂ Int.fmod a.eval_reads b.eval_reads
  | node id srcs => exact fun σ σ' h => congrArg (E.node id) (srcs.eval_reads σ σ' h)
  | reduce op t src ranges =>
    exact fun _ _ h => congrArg (op.fold t) (map_points_congr src.eval_reads (agree_of_filter h))

theorem Exprs.eval_reads (es : Exprs) : Reads (es.eval E) es.free := by
  cases es with
  | nil => exact fun _ _ _ => rfl
  | cons e es => exact .map₂ (· :: ·) e.eval_reads es.eval_reads

end

theorem Stmt.executed_reads (s : Stmt) : Reads (s.executed E) s.free := by
  induction s with
  | noop => exact fun _ _ _ => rfl
  | store id isImage indices srcs =>
    exact .map₂ (fun is vs => {(id, is ++ vs)}) indices.eval_reads srcs.eval_reads
  | group s t ihs iht => exact .map₂ (· + ·) ihs iht
  | end_ s ranges ih =>
    exact fun _ _ h => congrArg List.sum (map_points_congr ih (agree_of_filter h))

/-- A sink whose ranges are all bound executes the same at all indices. -/
theorem Stmt.executed_closed {s : Stmt} (h : s.free = []) (σ σ' : Point Range) :
    s.executed E σ = s.executed E σ' :=
  s.executed_reads σ σ' fun r hr => by simp [h] at hr

/-! ## Flattening -/

mutual

theorem Expr.rangesOf_flattenRange (e : Expr) :
    ∀ r ∈ e.flattenRange.rangesOf, r ∈ e.rangesOf := by
  cases e with
  | const v => exact fun r hr => hr
  | range c => exact fun r hr => hr
  | add a b | mul a b | floorDiv a b | floorMod a b =>
    exact append_subset a.rangesOf_flattenRange b.rangesOf_flattenRange
  | node id srcs => exact srcs.rangesOf_flattenRange
  | reduce op t src ranges =>
    refine append_subset src.rangesOf_flattenRange fun r hr => ?_
    rwa [rangesOf_ofRanges, mem_loops] at hr

theorem Exprs.rangesOf_flattenRange (es : Exprs) :
    ∀ r ∈ es.flattenRange.rangesOf, r ∈ es.rangesOf := by
  cases es with
  | nil => exact fun r hr => hr
  | cons e es => exact append_subset e.rangesOf_flattenRange es.rangesOf_flattenRange

end

theorem Stmt.rangesOf_flattenRange (s : Stmt) :
    ∀ r ∈ s.flattenRange.rangesOf, r ∈ s.rangesOf := by
  induction s with
  | noop => exact fun _ h => h
  | store id isImage indices srcs =>
    exact append_subset indices.rangesOf_flattenRange srcs.rangesOf_flattenRange
  | group s t ihs iht => exact append_subset ihs iht
  | end_ s ranges ih =>
    refine append_subset ih fun r hr => ?_
    rwa [rangesOf_ofRanges, mem_loops] at hr

mutual

theorem Expr.eval_flattenRange (e : Expr) (σ : Point Range) :
    e.flattenRange.eval E σ = e.eval E σ := by
  cases e with
  | const v => rfl
  | range c => rfl
  | add a b | mul a b =>
    simp only [Expr.flattenRange, Expr.eval, a.eval_flattenRange, b.eval_flattenRange]
  | floorDiv a b | floorMod a b =>
    simp only [Expr.flattenRange, Expr.eval, a.eval_flattenRange, b.eval_flattenRange]
  | node id srcs => simp only [Expr.flattenRange, Expr.eval, srcs.eval_flattenRange]
  | reduce op t src ranges =>
    simp only [Expr.flattenRange, Expr.eval, src.eval_flattenRange]
    exact fold_perm op t ((points_perm (loops_ofRanges_perm ranges) σ).map _)

theorem Exprs.eval_flattenRange (es : Exprs) (σ : Point Range) :
    es.flattenRange.eval E σ = es.eval E σ := by
  cases es with
  | nil => rfl
  | cons e es =>
    simp only [Exprs.flattenRange, Exprs.eval, e.eval_flattenRange, es.eval_flattenRange]

end

theorem Stmt.executed_flattenRange (s : Stmt) (σ : Point Range) :
    s.flattenRange.executed E σ = s.executed E σ := by
  induction s generalizing σ with
  | noop => rfl
  | store id isImage indices srcs =>
    simp only [Stmt.flattenRange, Stmt.executed, Exprs.eval_flattenRange]
  | group s t ihs iht => simp only [Stmt.flattenRange, Stmt.executed, ihs, iht]
  | end_ s ranges ih =>
    simp only [Stmt.flattenRange, Stmt.executed, ih]
    exact ((points_perm (loops_ofRanges_perm ranges) σ).map _).sum_eq

/-! ## The ranges that are listed -/

/-- The RANGEs among range sources. -/
def Exprs.listed : Exprs → List Range
  | .nil => []
  | .cons (.range r) es => r :: es.listed
  | .cons _ es => es.listed

@[simp] theorem listed_ofRanges (rs : List Range) : (Exprs.ofRanges rs).listed = rs := by
  induction rs with
  | nil => rfl
  | cons r rs ih => simp [Exprs.ofRanges, Exprs.listed, ih]

section

variable (read : Exprs → List Range)

mutual

/-- What is read of the range sources of every REDUCE, without those inside range sources. -/
def Expr.nests : Expr → List (List Range)
  | .const _ => []
  | .range _ => []
  | .add a b => a.nests ++ b.nests
  | .mul a b => a.nests ++ b.nests
  | .floorDiv a b => a.nests ++ b.nests
  | .floorMod a b => a.nests ++ b.nests
  | .node _ srcs => srcs.nests
  | .reduce _ _ src ranges => src.nests ++ [read ranges]

def Exprs.nests : Exprs → List (List Range)
  | .nil => []
  | .cons e es => e.nests ++ es.nests

end

/-- What is read of the range sources of every END and REDUCE. -/
def Stmt.nests : Stmt → List (List Range)
  | .noop => []
  | .store _ _ indices srcs => indices.nests read ++ srcs.nests read
  | .group s t => s.nests ++ t.nests
  | .end_ s ranges => s.nests ++ [read ranges]

end

mutual

theorem Expr.nests_flattenRange (e : Expr) :
    e.flattenRange.nests Exprs.listed = e.nests Exprs.loops := by
  cases e with
  | const v => rfl
  | range c => rfl
  | add a b | mul a b =>
    simp only [Expr.flattenRange, Expr.nests, a.nests_flattenRange, b.nests_flattenRange]
  | floorDiv a b | floorMod a b =>
    simp only [Expr.flattenRange, Expr.nests, a.nests_flattenRange, b.nests_flattenRange]
  | node id srcs => simp only [Expr.flattenRange, Expr.nests, srcs.nests_flattenRange]
  | reduce op t src ranges =>
    simp only [Expr.flattenRange, Expr.nests, src.nests_flattenRange, listed_ofRanges]

theorem Exprs.nests_flattenRange (es : Exprs) :
    es.flattenRange.nests Exprs.listed = es.nests Exprs.loops := by
  cases es with
  | nil => rfl
  | cons e es =>
    simp only [Exprs.flattenRange, Exprs.nests, e.nests_flattenRange, es.nests_flattenRange]

end

/-- Flattened, every END and REDUCE lists the ranges it reaches. -/
theorem Stmt.nests_flattenRange (s : Stmt) :
    s.flattenRange.nests Exprs.listed = s.nests Exprs.loops := by
  induction s with
  | noop => rfl
  | store id isImage indices srcs =>
    simp only [Stmt.flattenRange, Stmt.nests, Exprs.nests_flattenRange]
  | group s t ihs iht => simp only [Stmt.flattenRange, Stmt.nests, ihs, iht]
  | end_ s ranges ih => simp only [Stmt.flattenRange, Stmt.nests, ih, listed_ofRanges]

/-! ## The substitution of splits -/

section Splits

variable {splits : Range → Option Split}

/-- The two ranges in place of one. -/
def partsOf (splits : Range → Option Split) (r : Range) : Option (Range × Range) :=
  (splits r).map fun s => (s.outer, s.inner)

/-- `r → outer * mod_val + inner`. -/
def splitSubs (splits : Range → Option Split) (r : Range) : Option Expr :=
  (splits r).map Split.combined

section Substitute

variable (subs : Range → Option Expr)

/-- The ranges that the replacement of a range reaches. -/
def reached (r : Range) : List Range := ((subs r).getD (.range r)).rangesOf

mutual

theorem Expr.rangesOf_substitute (e : Expr) :
    (e.substitute subs).rangesOf = e.rangesOf.flatMap (reached subs) := by
  cases e with
  | const v => rfl
  | range r => simp only [Expr.substitute, Expr.rangesOf, List.flatMap_singleton, reached]
  | add a b | mul a b | floorDiv a b | floorMod a b =>
    simp only [Expr.substitute, Expr.rangesOf, List.flatMap_append, a.rangesOf_substitute,
      b.rangesOf_substitute]
  | node id srcs => exact srcs.rangesOf_substitute
  | reduce op t src ranges =>
    simp only [Expr.substitute, Expr.rangesOf, List.flatMap_append, src.rangesOf_substitute,
      ranges.rangesOf_substitute]

theorem Exprs.rangesOf_substitute (es : Exprs) :
    (es.substitute subs).rangesOf = es.rangesOf.flatMap (reached subs) := by
  cases es with
  | nil => rfl
  | cons e es =>
    simp only [Exprs.substitute, Exprs.rangesOf, List.flatMap_append, e.rangesOf_substitute,
      es.rangesOf_substitute]

end

theorem Stmt.rangesOf_substitute (s : Stmt) :
    (s.substitute subs).rangesOf = s.rangesOf.flatMap (reached subs) := by
  induction s with
  | noop => rfl
  | store id isImage indices srcs =>
    simp only [Stmt.substitute, Stmt.rangesOf, List.flatMap_append, Exprs.rangesOf_substitute]
  | group s t ihs iht =>
    simp only [Stmt.substitute, Stmt.rangesOf, List.flatMap_append, ihs, iht]
  | end_ s ranges ih =>
    simp only [Stmt.substitute, Stmt.rangesOf, List.flatMap_append, ih, Exprs.rangesOf_substitute]

variable {subs}

mutual

/-- Nothing to replace. -/
theorem Expr.substitute_of_none (e : Expr) (h : ∀ r ∈ e.rangesOf, subs r = none) :
    e.substitute subs = e := by
  cases e with
  | const v => rfl
  | range r => simp only [Expr.substitute, h r (List.mem_singleton_self r), Option.getD_none]
  | add a b | mul a b | floorDiv a b | floorMod a b =>
    obtain ⟨ha, hb⟩ := List.forall_mem_append.mp h
    simp only [Expr.substitute, a.substitute_of_none ha, b.substitute_of_none hb]
  | node id srcs => simp only [Expr.substitute, srcs.substitute_of_none h]
  | reduce op t src ranges =>
    obtain ⟨hsrc, hranges⟩ := List.forall_mem_append.mp h
    simp only [Expr.substitute, src.substitute_of_none hsrc, ranges.substitute_of_none hranges]

theorem Exprs.substitute_of_none (es : Exprs) (h : ∀ r ∈ es.rangesOf, subs r = none) :
    es.substitute subs = es := by
  cases es with
  | nil => rfl
  | cons e es =>
    obtain ⟨he, hes⟩ := List.forall_mem_append.mp h
    simp only [Exprs.substitute, e.substitute_of_none he, es.substitute_of_none hes]

end

theorem Stmt.substitute_of_none (s : Stmt) (h : ∀ r ∈ s.rangesOf, subs r = none) :
    s.substitute subs = s := by
  induction s with
  | noop => rfl
  | store id isImage indices srcs =>
    obtain ⟨hindices, hsrcs⟩ := List.forall_mem_append.mp h
    simp only [Stmt.substitute, indices.substitute_of_none hindices,
      srcs.substitute_of_none hsrcs]
  | group s t ihs iht =>
    obtain ⟨hs, ht⟩ := List.forall_mem_append.mp h
    simp only [Stmt.substitute, ihs hs, iht ht]
  | end_ s ranges ih =>
    obtain ⟨hs, hranges⟩ := List.forall_mem_append.mp h
    simp only [Stmt.substitute, ih hs, ranges.substitute_of_none hranges]

end Substitute

/-- The replacement of a range reaches its parts. -/
theorem reached_splitSubs : reached (splitSubs splits) = expand (partsOf splits) := by
  funext r
  simp only [reached, splitSubs, expand, partsOf]
  cases splits r with
  | none => rfl
  | some s => rfl

/-- The splits regroup the ranges `axes`, and multiply by the extent of the inner range. -/
structure Splits (E : Env) (splits : Range → Option Split) (axes : List Range) : Prop where
  regroup : Regroup (Range.trips E) (partsOf splits) axes
  modVal : ∀ r ∈ axes, ∀ s, splits r = some s → (s.inner.trips E : ℤ) = s.modVal

namespace Splits

variable {axes : List Range} (h : Splits E splits axes)

include h

/-- The loops over range sources become the loops over their parts. -/
theorem loops_perm {ranges : Exprs} (hr : ∀ r ∈ ranges.rangesOf, r ∈ axes) :
    (ranges.substitute (splitSubs splits)).loops.Perm
      (ranges.loops.flatMap (expand (partsOf splits))) := by
  have hloops : ∀ r ∈ ranges.loops, r ∈ axes := fun r hmem => hr r (mem_loops.mp hmem)
  refine (List.perm_ext_iff_of_nodup (nodup_loops _)
    (h.regroup.nodup_expand hloops (nodup_loops _))).mpr fun r => ?_
  simp only [mem_loops, Exprs.rangesOf_substitute, reached_splitSubs, List.mem_flatMap]

/-- What is computed at the points of a nest, over the parts and over the ranges. -/
theorem map_points_perm {β : Type*} {f g : Point Range → β} {S : List Range} {ranges : Exprs}
    (hf : Reads f S) (hS : ∀ r ∈ S, r ∈ axes) (hr : ∀ r ∈ ranges.rangesOf, r ∈ axes)
    (hg : ∀ σ, g σ = f (join (Range.trips E) (partsOf splits) σ)) (σ : Point Range) :
    ((points (Range.trips E) (ranges.substitute (splitSubs splits)).loops σ).map g).Perm
      ((points (Range.trips E) ranges.loops
        (join (Range.trips E) (partsOf splits) σ)).map f) := by
  have hcomp : g = f ∘ join (Range.trips E) (partsOf splits) := funext hg
  rw [hcomp, ← h.regroup.map_points_expand (hf.mono hS) fun r hmem => hr r (mem_loops.mp hmem)]
  exact (points_perm (h.loops_perm hr) σ).map _

end Splits

section Values

variable {axes : List Range} (h : Splits E splits axes)

include h in
/-- The combined index is the joined one. -/
theorem Splits.eval_range {r : Range} (hr : r ∈ axes) (σ : Point Range) :
    ((splitSubs splits r).getD (.range r)).eval E σ =
      join (Range.trips E) (partsOf splits) σ r := by
  cases hs : splits r with
  | none =>
    have hp : partsOf splits r = none := by simp only [partsOf, hs, Option.map_none]
    simp only [splitSubs, hs, Option.map_none, Option.getD_none, Expr.eval, join_of_none hp]
  | some s =>
    have hp : partsOf splits r = some (s.outer, s.inner) := by
      simp only [partsOf, hs, Option.map_some]
    simp only [splitSubs, hs, Option.map_some, Option.getD_some, Split.combined, Expr.eval,
      join_of_some hp, ← h.modVal r hr s hs]
    push_cast
    rfl

mutual

/-- The value of a rewritten node is that of the node at the joined indices. -/
theorem Expr.eval_substitute (h : Splits E splits axes) (e : Expr)
    (hr : ∀ r ∈ e.rangesOf, r ∈ axes) (σ : Point Range) :
    (e.substitute (splitSubs splits)).eval E σ =
      e.eval E (join (Range.trips E) (partsOf splits) σ) := by
  cases e with
  | const v => rfl
  | range r => exact h.eval_range (hr r (List.mem_singleton_self r)) σ
  | add a b | mul a b | floorDiv a b | floorMod a b =>
    obtain ⟨ha, hb⟩ := List.forall_mem_append.mp hr
    simp only [Expr.substitute, Expr.eval]
    rw [a.eval_substitute h ha, b.eval_substitute h hb]
  | node id srcs =>
    simp only [Expr.substitute, Expr.eval]
    rw [srcs.eval_substitute h hr]
  | reduce op t src ranges =>
    obtain ⟨hsrc, hranges⟩ := List.forall_mem_append.mp hr
    exact fold_perm op t (h.map_points_perm src.eval_reads
      (fun r hmem => hsrc r (src.free_subset r hmem)) hranges (src.eval_substitute h hsrc) σ)

theorem Exprs.eval_substitute (h : Splits E splits axes) (es : Exprs)
    (hr : ∀ r ∈ es.rangesOf, r ∈ axes) (σ : Point Range) :
    (es.substitute (splitSubs splits)).eval E σ =
      es.eval E (join (Range.trips E) (partsOf splits) σ) := by
  cases es with
  | nil => rfl
  | cons e es =>
    obtain ⟨he, hes⟩ := List.forall_mem_append.mp hr
    simp only [Exprs.substitute, Exprs.eval]
    rw [e.eval_substitute h he, es.eval_substitute h hes]

end

include h in
/-- The stores that the rewritten node executes. -/
theorem Stmt.executed_substitute (s : Stmt) (hr : ∀ r ∈ s.rangesOf, r ∈ axes) (σ : Point Range) :
    (s.substitute (splitSubs splits)).executed E σ =
      s.executed E (join (Range.trips E) (partsOf splits) σ) := by
  induction s generalizing σ with
  | noop => rfl
  | store id isImage indices srcs =>
    obtain ⟨hindices, hsrcs⟩ := List.forall_mem_append.mp hr
    simp only [Stmt.substitute, Stmt.executed]
    rw [indices.eval_substitute h hindices, srcs.eval_substitute h hsrcs]
  | group s t ihs iht =>
    obtain ⟨hs, ht⟩ := List.forall_mem_append.mp hr
    simp only [Stmt.substitute, Stmt.executed]
    rw [ihs hs, iht ht]
  | end_ s ranges ih =>
    obtain ⟨hs, hranges⟩ := List.forall_mem_append.mp hr
    exact (h.map_points_perm s.executed_reads (fun r hmem => hs r (s.free_subset r hmem)) hranges
      (ih hs) σ).sum_eq

/-! ### The nests -/

/-- The two lists hold the same ranges, the split ones in their parts. -/
def Expands (splits : Range → Option Split) (new old : List Range) : Prop :=
  new.Perm (old.flatMap (expand (partsOf splits)))

mutual

theorem Expr.nests_substitute (h : Splits E splits axes) (e : Expr)
    (hr : ∀ r ∈ e.rangesOf, r ∈ axes) :
    List.Forall₂ (Expands splits) ((e.substitute (splitSubs splits)).nests Exprs.loops)
      (e.nests Exprs.loops) := by
  cases e with
  | const v => exact .nil
  | range r =>
    simp only [Expr.substitute, splitSubs]
    cases splits r with
    | none => exact .nil
    | some s => exact .nil
  | add a b | mul a b | floorDiv a b | floorMod a b =>
    obtain ⟨ha, hb⟩ := List.forall_mem_append.mp hr
    exact List.rel_append (a.nests_substitute h ha) (b.nests_substitute h hb)
  | node id srcs => exact srcs.nests_substitute h hr
  | reduce op t src ranges =>
    obtain ⟨hsrc, hranges⟩ := List.forall_mem_append.mp hr
    exact List.rel_append (src.nests_substitute h hsrc) (.cons (h.loops_perm hranges) .nil)

theorem Exprs.nests_substitute (h : Splits E splits axes) (es : Exprs)
    (hr : ∀ r ∈ es.rangesOf, r ∈ axes) :
    List.Forall₂ (Expands splits) ((es.substitute (splitSubs splits)).nests Exprs.loops)
      (es.nests Exprs.loops) := by
  cases es with
  | nil => exact .nil
  | cons e es =>
    obtain ⟨he, hes⟩ := List.forall_mem_append.mp hr
    exact List.rel_append (e.nests_substitute h he) (es.nests_substitute h hes)

end

include h in
/-- The nests of the rewritten node are over the parts of the ranges they were over. -/
theorem Stmt.nests_substitute (s : Stmt) (hr : ∀ r ∈ s.rangesOf, r ∈ axes) :
    List.Forall₂ (Expands splits) ((s.substitute (splitSubs splits)).nests Exprs.loops)
      (s.nests Exprs.loops) := by
  induction s with
  | noop => exact .nil
  | store id isImage indices srcs =>
    obtain ⟨hindices, hsrcs⟩ := List.forall_mem_append.mp hr
    exact List.rel_append (indices.nests_substitute h hindices) (srcs.nests_substitute h hsrcs)
  | group s t ihs iht =>
    obtain ⟨hs, ht⟩ := List.forall_mem_append.mp hr
    exact List.rel_append (ihs hs) (iht ht)
  | end_ s ranges ih =>
    obtain ⟨hs, hranges⟩ := List.forall_mem_append.mp hr
    exact List.rel_append (ih hs) (.cons (h.loops_perm hranges) .nil)

end Values

end Splits

/-! ## Axis ids -/

/-- `c` is a child that a split of `p` makes, or descends from one. -/
def Descends (p c : AxisId) : Prop :=
  c.isRenumbered = p.isRenumbered ∧ ∃ i q, i < 2 ∧ c.path = p.path ++ i :: q

/-- Distinct, and neither is in the other's way when it is split. -/
def Apart (p c : AxisId) : Prop := p ≠ c ∧ ¬Descends p c ∧ ¬Descends c p

theorem Apart.symm {p c : AxisId} (h : Apart p c) : Apart c p := ⟨h.1.symm, h.2.2, h.2.1⟩

theorem descends_child (p : AxisId) {i : ℕ} (hi : i < 2) : Descends p (child p i) :=
  ⟨rfl, i, [], hi, rfl⟩

theorem child_ne (p : AxisId) (i : ℕ) : child p i ≠ p := by
  intro h
  have hlength := congrArg (fun c : AxisId => c.path.length) h
  simp [child] at hlength

theorem Apart.child {p c : AxisId} (h : Apart p c) {i : ℕ} (hi : i < 2) : Apart (child p i) c := by
  obtain ⟨hne, hpc, hcp⟩ := h
  refine ⟨fun heq => hpc (heq ▸ descends_child p hi), ?_, ?_⟩
  · rintro ⟨hflag, j, q, -, hpath⟩
    exact hpc ⟨hflag, i, j :: q, hi, by simpa [SplitRanges.child] using hpath⟩
  · rintro ⟨hflag, j, q, hj, hpath⟩
    rcases List.eq_nil_or_concat q with rfl | ⟨q, x, rfl⟩
    · have hpath' : p.path = c.path := (List.append_inj' hpath rfl).1
      cases p
      cases c
      exact hne (by simp_all [SplitRanges.child])
    · have hpath' : p.path ++ [i] = (c.path ++ j :: q) ++ [x] := by
        simpa [SplitRanges.child] using hpath
      exact hcp ⟨hflag, j, q, hj, (List.append_inj' hpath' rfl).1⟩

theorem apart_children (p : AxisId) {i j : ℕ} (hij : i ≠ j) : Apart (child p i) (child p j) := by
  have hlong : ∀ a b, ¬Descends (child p a) (child p b) := by
    rintro a b ⟨-, x, q, -, hpath⟩
    have hlength := congrArg List.length hpath
    simp [child] at hlength
  exact ⟨by simpa [child] using hij, hlong i j, hlong j i⟩

/-- The axis ids of distinct ranges are apart. -/
def Separate (ranges : List Range) : Prop :=
  ∀ r ∈ ranges, ∀ r' ∈ ranges, r ≠ r' → Apart r.axisId r'.axisId

theorem Separate.mono {rs rs' : List Range} (h : Separate rs) (hsub : ∀ r ∈ rs', r ∈ rs) :
    Separate rs' :=
  fun r hr r' hr' hne => h r (hsub r hr) r' (hsub r' hr') hne

theorem Separate.injOn {rs : List Range} (h : Separate rs) : Set.InjOn Range.axisId {r | r ∈ rs} :=
  fun r hr r' hr' heq => by_contra fun hne => (h r hr r' hr' hne).1 heq

/-! ## The splits of a sink -/

/-- No range is empty. -/
def Positive (E : Env) (ranges : List Range) : Prop := ∀ r ∈ ranges, 0 < r.trips E

instance (ranges : List Range) : Decidable (Positive E ranges) :=
  inferInstanceAs (Decidable (∀ r ∈ ranges, 0 < r.trips E))

/-- The moduli recorded for ranges of the sink are positive. -/
def State.Positive (s : State) : Prop :=
  ∀ r ∈ s.sink.rangesOf, ∀ c, s.marks.get r = some (some c) → 0 < c

theorem eval_of_divides {stop outerEnd : Stop} {v : ℤ} (hv : 0 < v)
    (h : stop.divides v = some outerEnd) : stop.eval E = outerEnd.eval E * v.toNat := by
  unfold Stop.divides at h
  split at h
  · rename_i hone
    obtain rfl : stop = outerEnd := by simpa using h
    simp [hone]
  · rw [if_neg hv.ne'] at h
    cases stop with
    | symbolic id => simp at h
    | const val =>
      simp only at h
      split at h
      · rename_i hdiv
        obtain rfl : .const (val.tdiv v) = outerEnd := by simpa using h
        have hval : val.tdiv v * v = val := Int.tdiv_mul_cancel (Int.dvd_of_tmod_eq_zero hdiv.1)
        change val.toNat = (val.tdiv v).toNat * v.toNat
        rcases le_or_gt 0 (val.tdiv v) with hq | hq
        · rw [← Int.toNat_mul hq hv.le, hval]
        · -- the end is negative, and so is its quotient
          have hneg : val ≤ 0 := hval ▸ (mul_neg_of_neg_of_pos hq hv).le
          rw [Int.toNat_of_nonpos hneg, Int.toNat_of_nonpos hq.le, Nat.zero_mul]
      · simp at h

/-- What a split consists of. -/
theorem splitOf_some {marks : Marks} {sink : Stmt} {r : Range} {s : Split}
    (h : splitOf marks sink r = some s) :
    r ∈ sink.rangesOf ∧ marks.get r = some (some s.modVal) ∧
      r.stop.divides s.modVal = some s.outer.stop ∧ s.inner.stop = .const s.modVal ∧
      s.outer.axisId = child r.axisId 0 ∧ s.inner.axisId = child r.axisId 1 := by
  unfold splitOf at h
  split at h
  · rename_i modVal hget
    split at h
    · rename_i hmem
      split at h
      · rename_i outerEnd hdiv
        obtain rfl := Option.some.inj h
        exact ⟨hmem, hget, hdiv, rfl, rfl, rfl⟩
      · cases h
    · cases h
  · cases h

theorem partsOf_eq_some {splits : Range → Option Split} {r o n : Range} :
    partsOf splits r = some (o, n) ↔ ∃ s, splits r = some s ∧ s.outer = o ∧ s.inner = n := by
  simp [partsOf]

section Sink

variable {s : State}

/-- The splits of a sink with positive moduli regroup its ranges. -/
theorem splits_of_positive (hpos : s.Positive) (hsep : Separate s.sink.rangesOf) :
    Splits E (splitOf s.marks s.sink) s.sink.rangesOf := by
  have hinner : ∀ {r x}, splitOf s.marks s.sink r = some x → 0 < x.modVal ∧
      x.inner.trips E = x.modVal.toNat := by
    intro r x hx
    obtain ⟨hmem, hget, -, hstop, -, -⟩ := splitOf_some hx
    exact ⟨hpos r hmem _ hget, by simp only [Range.trips, hstop, Stop.eval]⟩
  refine ⟨⟨?_, ?_, ?_, ?_, ?_⟩, ?_⟩
  · intro r o n hp
    obtain ⟨x, hx, -, -⟩ := partsOf_eq_some.mp hp
    exact (splitOf_some hx).1
  · intro r hr o n hp
    obtain ⟨x, hx, rfl, rfl⟩ := partsOf_eq_some.mp hp
    obtain ⟨hmod, htrips⟩ := hinner hx
    rw [htrips]
    exact eval_of_divides hmod (splitOf_some hx).2.2.1
  · -- a child in the sink would descend from a range of the sink
    have hfresh : ∀ {r x : Range} {i : ℕ}, r ∈ s.sink.rangesOf → i < 2 →
        x.axisId = child r.axisId i → x ∉ s.sink.rangesOf := by
      intro r x i hr hi hx hmem
      by_cases hne : r = x
      · exact child_ne _ i (hx.symm.trans (congrArg _ hne.symm))
      · exact (hsep r hr x hmem hne).2.1 (hx ▸ descends_child _ hi)
    intro r hr o n hp
    obtain ⟨x, hx, rfl, rfl⟩ := partsOf_eq_some.mp hp
    obtain ⟨-, -, -, -, hout, hin⟩ := splitOf_some hx
    exact ⟨hfresh hr (by omega) hout, hfresh hr (by omega) hin⟩
  · intro r hr o n hp heq
    obtain ⟨x, hx, rfl, rfl⟩ := partsOf_eq_some.mp hp
    obtain ⟨-, -, -, -, hout, hin⟩ := splitOf_some hx
    have hapart := apart_children r.axisId (i := 0) (j := 1) (by omega)
    exact hapart.1 (hout.symm.trans ((congrArg _ heq).trans hin))
  · have hne : ∀ {a b x y : Range} {i j : ℕ}, Apart a.axisId b.axisId → i < 2 → j < 2 →
        x.axisId = child a.axisId i → y.axisId = child b.axisId j → x ≠ y := by
      intro a b x y i j hab hi hj hx hy heq
      exact ((hab.child hi).symm.child hj).1 (hy.symm.trans ((congrArg _ heq.symm).trans hx))
    intro a ha b hb hab o n o' n' hp hq
    obtain ⟨x, hx, rfl, rfl⟩ := partsOf_eq_some.mp hp
    obtain ⟨y, hy, rfl, rfl⟩ := partsOf_eq_some.mp hq
    obtain ⟨-, -, -, -, hxo, hxi⟩ := splitOf_some hx
    obtain ⟨-, -, -, -, hyo, hyi⟩ := splitOf_some hy
    have hapart := hsep a ha b hb hab
    exact ⟨hne hapart (by omega) (by omega) hxo hyo, hne hapart (by omega) (by omega) hxo hyi,
      hne hapart (by omega) (by omega) hxi hyo, hne hapart (by omega) (by omega) hxi hyi⟩
  · intro r hr x hx
    obtain ⟨hmod, htrips⟩ := hinner hx
    rw [htrips, Int.toNat_of_nonneg hmod.le]

end Sink

/-! ## One step -/

/-- The rules that simplify a split sink add no range, and keep what a sink without empty ranges
    executes. -/
structure Simplifies (E : Env) (sym : Stmt → Stmt) : Prop where
  rangesOf : ∀ marks u, u.flattenRange = u →
    ∀ r ∈ (sym (splitSink marks u)).rangesOf, r ∈ (splitSink marks u).rangesOf
  executed : ∀ marks u, u.flattenRange = u → Positive E (splitSink marks u).rangesOf →
    ∀ σ, Inside (Range.trips E) σ →
      (sym (splitSink marks u)).executed E σ = (splitSink marks u).executed E σ

/-- What a sink may execute, at any indices of the ranges that it does not bind. -/
def outcomes (E : Env) (sink : Stmt) : Set (Multiset (ℕ × List ℤ)) :=
  sink.executed E '' {σ | Inside (Range.trips E) σ}

theorem outcomes_congr {u v : Stmt}
    (h : ∀ σ, Inside (Range.trips E) σ → v.executed E σ = u.executed E σ) :
    outcomes E v = outcomes E u :=
  Set.image_congr h

section Sink

variable {s : State}

theorem mem_splitSink {marks : Marks} {sink : Stmt} {r : Range} :
    r ∈ (splitSink marks sink).rangesOf ↔
      ∃ a ∈ sink.rangesOf, r ∈ expand (partsOf (splitOf marks sink)) a := by
  have hranges : (splitSink marks sink).rangesOf =
      sink.rangesOf.flatMap (reached (splitSubs (splitOf marks sink))) :=
    sink.rangesOf_substitute _
  rw [hranges, reached_splitSubs, List.mem_flatMap]

/-- A part of a range is the range, or a child of it. -/
theorem axisId_of_mem_expand {marks : Marks} {sink : Stmt} {a r : Range}
    (h : r ∈ expand (partsOf (splitOf marks sink)) a) :
    r = a ∨ ∃ i < 2, r.axisId = child a.axisId i := by
  unfold expand at h
  split at h
  · rename_i o n hp
    obtain ⟨x, hx, rfl, rfl⟩ := partsOf_eq_some.mp hp
    obtain ⟨-, -, -, -, hout, hin⟩ := splitOf_some hx
    rcases List.mem_cons.mp h with rfl | h
    · exact .inr ⟨0, by omega, hout⟩
    · obtain rfl := List.mem_singleton.mp h
      exact .inr ⟨1, by omega, hin⟩
  · exact .inl (List.mem_singleton.mp h)

theorem separate_splitSink (hsep : Separate s.sink.rangesOf) :
    Separate (splitSink s.marks s.sink).rangesOf := by
  intro r hr r' hr' hne
  obtain ⟨a, ha, hra⟩ := mem_splitSink.mp hr
  obtain ⟨b, hb, hrb⟩ := mem_splitSink.mp hr'
  by_cases hab : a = b
  · -- two parts of one range
    subst hab
    unfold expand at hra hrb
    split at hra
    · rename_i o n hp
      obtain ⟨x, hx, rfl, rfl⟩ := partsOf_eq_some.mp hp
      obtain ⟨-, -, -, -, hout, hin⟩ := splitOf_some hx
      have hapart := apart_children a.axisId (i := 0) (j := 1) (by omega)
      rw [← hout, ← hin] at hapart
      simp only [hp, List.mem_cons, List.not_mem_nil, or_false] at hra hrb
      rcases hra with rfl | rfl <;> rcases hrb with rfl | rfl
      · exact absurd rfl hne
      · exact hapart
      · exact hapart.symm
      · exact absurd rfl hne
    · rename_i hp
      simp only [hp, List.mem_singleton] at hra hrb
      exact absurd (hra.trans hrb.symm) hne
  · have hapart := hsep a ha b hb hab
    rcases axisId_of_mem_expand hra with rfl | ⟨i, hi, hid⟩ <;>
      rcases axisId_of_mem_expand hrb with rfl | ⟨j, hj, hid'⟩
    · exact hapart
    · rw [hid']
      exact (hapart.symm.child hj).symm
    · rw [hid]
      exact hapart.child hi
    · rw [hid, hid']
      exact ((hapart.child hi).symm.child hj).symm

variable (hmod : s.Positive) (hsep : Separate s.sink.rangesOf)

include hmod hsep

theorem positive_splitSink (hpos : Positive E s.sink.rangesOf) :
    Positive E (splitSink s.marks s.sink).rangesOf := by
  intro r hr
  obtain ⟨a, ha, hra⟩ := mem_splitSink.mp hr
  have hregroup := (splits_of_positive (E := E) hmod hsep).regroup
  unfold expand at hra
  split at hra
  · rename_i o n hp
    have htrips : 0 < o.trips E * n.trips E := hregroup.extent a ha o n hp ▸ hpos a ha
    rcases List.mem_cons.mp hra with rfl | hra
    · exact Nat.pos_of_mul_pos_right htrips
    · obtain rfl := List.mem_singleton.mp hra
      exact Nat.pos_of_mul_pos_left htrips
  · obtain rfl := List.mem_singleton.mp hra
    exact hpos r ha

/-- The points of the split sink are those of the sink. -/
theorem outcomes_splitSink : outcomes E (splitSink s.marks s.sink) = outcomes E s.sink := by
  have hsplits := splits_of_positive (E := E) hmod hsep
  have hexec : ∀ σ, (splitSink s.marks s.sink).executed E σ =
      s.sink.executed E (join (Range.trips E) (partsOf (splitOf s.marks s.sink)) σ) :=
    s.sink.executed_substitute hsplits fun r hr => hr
  ext X
  constructor
  · rintro ⟨σ, hσ, rfl⟩
    exact ⟨_, hsplits.regroup.join_inside hσ, (hexec σ).symm⟩
  · rintro ⟨τ, hτ, rfl⟩
    obtain ⟨σ, hσ, -, hjoin⟩ := hsplits.regroup.exists_join hτ fun r hr => hr
    refine ⟨σ, hσ, (hexec σ).trans (s.sink.executed_reads _ _ fun r hr => ?_)⟩
    exact hjoin r (s.sink.free_subset r hr)

end Sink

/-- A sink whose ranges are apart and not empty, and that executes what `u` does. -/
structure Keeps (E : Env) (u sink : Stmt) : Prop where
  positive : Positive E sink.rangesOf
  separate : Separate sink.rangesOf
  outcomes : outcomes E sink = outcomes E u

/-- One step of the rewriting. -/
theorem Step.keeps {sym : Stmt → Stmt} (hsym : Simplifies E sym) {u : Stmt} {s t : State}
    (hstep : Step sym s t) (hmod : s.Positive) (h : Keeps E u s.sink) : Keeps E u t.sink := by
  cases hstep with
  | visit => exact h
  | flatten =>
    have hsub := s.sink.rangesOf_flattenRange
    exact ⟨fun r hr => h.positive r (hsub r hr), h.separate.mono hsub,
      (outcomes_congr fun σ _ => s.sink.executed_flattenRange σ).trans h.outcomes⟩
  | split hflat hresult =>
    unfold doSplitRangesSubstitute at hresult
    split at hresult
    · cases hresult
    · obtain rfl := Option.some.inj hresult
      have hpos := positive_splitSink hmod h.separate h.positive
      have hsub := hsym.rangesOf s.marks s.sink hflat
      refine ⟨fun r hr => hpos r (hsub r hr), (separate_splitSink h.separate).mono hsub, ?_⟩
      calc outcomes E (sym (splitSink s.marks s.sink))
          = outcomes E (splitSink s.marks s.sink) :=
            outcomes_congr (hsym.executed s.marks s.sink hflat hpos)
        _ = outcomes E s.sink := outcomes_splitSink hmod h.separate
        _ = outcomes E u := h.outcomes

/-! ## Runs -/

/-- The indices of the ranges of a sink, from those after its split. -/
def joined (E : Env) (s : State) : Point Range → Point Range :=
  join (Range.trips E) (partsOf (splitOf s.marks s.sink))

/-- What the split at a state does, once flattened. -/
structure Reconstructs (E : Env) (s : State) : Prop where
  /-- The indices correspond one to one. -/
  inside : ∀ σ, Inside (Range.trips E) σ → Inside (Range.trips E) (joined E s σ)
  onto : ∀ τ, Inside (Range.trips E) τ →
    ∃ σ, Inside (Range.trips E) σ ∧ ∀ r ∈ s.sink.rangesOf, joined E s σ r = τ r
  injective : ∀ σ σ', Inside (Range.trips E) σ → Inside (Range.trips E) σ' →
    (∀ r ∈ s.sink.rangesOf, joined E s σ r = joined E s σ' r) →
    ∀ r ∈ (splitSink s.marks s.sink).rangesOf, σ r = σ' r
  /-- Every value of the sink, that of a REDUCE in particular, is kept. -/
  eval : ∀ e : Expr, (∀ r ∈ e.rangesOf, r ∈ s.sink.rangesOf) → ∀ σ,
    (e.substitute (splitSubs (splitOf s.marks s.sink))).flattenRange.eval E σ =
      e.eval E (joined E s σ)
  /-- Every END of the sink executes the same stores, each as often. -/
  executed : ∀ t : Stmt, (∀ r ∈ t.rangesOf, r ∈ s.sink.rangesOf) → ∀ σ,
    (t.substitute (splitSubs (splitOf s.marks s.sink))).flattenRange.executed E σ =
      t.executed E (joined E s σ)
  /-- Every END and REDUCE lists the two new ranges for one that it reached. -/
  nests : List.Forall₂ (Expands (splitOf s.marks s.sink))
    ((splitSink s.marks s.sink).flattenRange.nests Exprs.listed) (s.sink.nests Exprs.loops)
  /-- The new ranges have new ids, and no two ranges have one id. -/
  fresh : ∀ r x, splitOf s.marks s.sink r = some x → ∀ r' ∈ s.sink.rangesOf,
    r'.axisId ≠ x.outer.axisId ∧ r'.axisId ≠ x.inner.axisId
  injOn : Set.InjOn Range.axisId {r | r ∈ (splitSink s.marks s.sink).rangesOf}

theorem child_notMem {rs : List Range} (hsep : Separate rs) {r r' : Range} (hr : r ∈ rs)
    (hr' : r' ∈ rs) {i : ℕ} (hi : i < 2) : r'.axisId ≠ child r.axisId i := by
  intro hid
  by_cases hne : r = r'
  · exact child_ne _ i (hid.symm.trans (congrArg _ hne.symm))
  · exact (hsep r hr r' hr' hne).2.1 (hid ▸ descends_child _ hi)

theorem reconstructs {s : State} (hmod : s.Positive) (hpos : Positive E s.sink.rangesOf)
    (hsep : Separate s.sink.rangesOf) : Reconstructs E s := by
  have hsplits := splits_of_positive (E := E) hmod hsep
  refine ⟨fun σ => hsplits.regroup.join_inside, ?_, ?_, ?_, ?_, ?_, ?_, ?_⟩
  · intro τ hτ
    obtain ⟨σ, hσ, -, hjoin⟩ := hsplits.regroup.exists_join hτ fun r hr => hr
    exact ⟨σ, hσ, hjoin⟩
  · intro σ σ' hσ hσ' hjoin r hr
    obtain ⟨a, ha, hra⟩ := mem_splitSink.mp hr
    exact hsplits.regroup.join_injective ha (hpos a ha) hσ hσ' (hjoin a ha) r hra
  · intro e he σ
    rw [Expr.eval_flattenRange]
    exact e.eval_substitute hsplits he σ
  · intro t ht σ
    rw [Stmt.executed_flattenRange]
    exact t.executed_substitute hsplits ht σ
  · rw [Stmt.nests_flattenRange]
    exact s.sink.nests_substitute hsplits fun r hr => hr
  · intro r x hx r' hr'
    obtain ⟨hr, -, -, -, hout, hin⟩ := splitOf_some hx
    rw [hout, hin]
    exact ⟨child_notMem hsep hr hr' (by omega), child_notMem hsep hr hr' (by omega)⟩
  · exact (separate_splitSink hsep).injOn

/-- A step from a state whose recorded moduli are positive. -/
def PositiveStep (sym : Stmt → Stmt) (s t : State) : Prop := s.Positive ∧ Step sym s t

theorem run_keeps {sym : Stmt → Stmt} (hsym : Simplifies E sym) {u : Stmt} {s t : State}
    (hrun : Relation.ReflTransGen (PositiveStep sym) s t) (h : Keeps E u s.sink) :
    Keeps E u t.sink := by
  induction hrun with
  | refl => exact h
  | tail _ hstep ih => exact hstep.2.keeps hsym hstep.1 ih

/-- In every run, what a sink executes is kept, and the split at every state that is reached
    replaces ranges by pairs of new ones that walk the same points. -/
theorem splitRanges_keeps {sym : Stmt → Stmt} (hsym : Simplifies E sym) {u : Stmt}
    (hpos : Positive E u.rangesOf) (hsep : Separate u.rangesOf) {s : State}
    (hrun : Relation.ReflTransGen (PositiveStep sym) ⟨u, []⟩ s) :
    outcomes E s.sink = outcomes E u ∧
      (u.free = [] → ∀ σ, Inside (Range.trips E) σ → s.sink.executed E σ = u.executed E σ) ∧
      (s.Positive → Reconstructs E s) := by
  have hkeeps : Keeps E u s.sink := run_keeps hsym hrun ⟨hpos, hsep, rfl⟩
  refine ⟨hkeeps.outcomes, fun hclosed σ hσ => ?_, fun hmod =>
    reconstructs hmod hkeeps.positive hkeeps.separate⟩
  have hmem : s.sink.executed E σ ∈ outcomes E u := hkeeps.outcomes ▸ Set.mem_image_of_mem _ hσ
  obtain ⟨τ, -, hτ⟩ := hmem
  exact hτ.symm.trans (Stmt.executed_closed hclosed τ σ)

/-- The rule for dead loops does nothing to a sink without empty ranges. -/
theorem simplifies_deadLoops : Simplifies E deadLoops where
  rangesOf marks u _ r hr := by
    rw [deadLoops, Stmt.rangesOf_substitute, List.mem_flatMap] at hr
    obtain ⟨a, ha, hra⟩ := hr
    cases hstop : a.stop with
    | symbolic id =>
      simp only [reached, hstop, Option.getD_none, Expr.rangesOf, List.mem_singleton] at hra
      exact hra ▸ ha
    | const v =>
      by_cases hv : v ≤ 0
      · simp [reached, hstop, hv, Expr.rangesOf] at hra
      · simp only [reached, hstop, hv, if_false, Option.getD_none, Expr.rangesOf,
          List.mem_singleton] at hra
        exact hra ▸ ha
  executed marks u _ hpos σ _ := by
    have hnone : deadLoops (splitSink marks u) = splitSink marks u := by
      refine Stmt.substitute_of_none _ fun r hr => ?_
      have htrips := hpos r hr
      cases hstop : r.stop with
      | symbolic id => simp only
      | const v =>
        have hv : ¬v ≤ 0 := by
          simp only [Range.trips, hstop, Stop.eval] at htrips
          omega
        simp only [if_neg hv]
    rw [hnone]

/-- A range of twelve values, that an END reaches through `r % 4`. -/
def twelve : Range := ⟨.const 12, ⟨true, [0]⟩, .loop⟩

def fours : Stmt :=
  .end_ (.store 0 false (.cons (.range twelve) .nil) .nil)
    (.cons (.floorMod (.range twelve) (.const 4)) .nil)

/-- Its quotients and remainders by 4. -/
def quotients : Range := ⟨.const 3, ⟨true, [0, 0]⟩, .loop⟩

def remainders : Range := ⟨.const 4, ⟨true, [0, 1]⟩, .loop⟩

def foursSplit : Stmt :=
  .end_ (.store 0 false (.cons (.add (.mul (.range quotients) (.const 4)) (.range remainders)) .nil)
    .nil) (.ofRanges [quotients, remainders])

def plainEnv : Env := ⟨fun _ => 1, fun _ _ => 0⟩

def foursMarks : Marks := [(twelve, some 4)]

theorem positive_foursMarks (sink : Stmt) : State.Positive ⟨sink, foursMarks⟩ := by
  intro r _ c hget
  rw [foursMarks, Marks.get, List.lookup_cons] at hget
  split at hget
  · obtain rfl : 4 = c := by simpa using hget
    decide
  · cases hget

theorem positive_noMarks (sink : Stmt) : State.Positive ⟨sink, []⟩ := by
  intro r _ c hget
  simp [Marks.get] at hget

/-- The range is marked, and the END is flattened. -/
theorem fours_flat :
    Relation.ReflTransGen (PositiveStep deadLoops) ⟨fours, []⟩ ⟨fours.flattenRange, foursMarks⟩ := by
  have hvisit : Step deadLoops ⟨fours, []⟩ ⟨fours, foursMarks⟩ :=
    .visit ⟨fours, []⟩ (show Event.mod twelve 4 ∈ fours.events by
      simp [fours, Stmt.events, Exprs.events, Expr.events])
  exact .tail (.tail .refl ⟨positive_noMarks _, hvisit⟩) ⟨positive_foursMarks _, .flatten _⟩

theorem fours_run :
    Relation.ReflTransGen (PositiveStep deadLoops) ⟨fours, []⟩ ⟨foursSplit, []⟩ :=
  .tail (.tail fours_flat ⟨positive_foursMarks _, .split _ rfl rfl⟩)
    ⟨positive_noMarks _, .flatten _⟩

theorem positive_fours : Positive plainEnv fours.rangesOf := by decide

theorem separate_fours : Separate fours.rangesOf := by
  have hranges : ∀ r ∈ fours.rangesOf, r = twelve := by decide
  exact fun r hr r' hr' hne => absurd ((hranges r hr).trans (hranges r' hr').symm) hne

theorem splitRanges_keeps_twelve :
    Reconstructs plainEnv ⟨fours.flattenRange, foursMarks⟩ ∧
      foursSplit.executed plainEnv (fun _ => 0) = fours.executed plainEnv fun _ => 0 :=
  ⟨(splitRanges_keeps simplifies_deadLoops positive_fours separate_fours fours_flat).2.2
      (positive_foursMarks _),
    (splitRanges_keeps simplifies_deadLoops positive_fours separate_fours fours_run).2.1
      (by decide) _ fun _ h => h⟩

/-- A range of eight values, and its remainder by -2. -/
def eight : Range := ⟨.const 8, ⟨true, [7]⟩, .loop⟩

def negativeTwos : Stmt :=
  .end_ (.store 0 false (.cons (.floorMod (.range eight) (.const (-2))) .nil) .nil)
    (.cons (.range eight) .nil)

/-- The two new ranges have the ends -4 and -2: the END executes its store once, not eight times. -/
theorem splitRanges_fails : Positive plainEnv negativeTwos.rangesOf ∧
    Separate negativeTwos.rangesOf ∧ negativeTwos.free = [] ∧
    ∃ s, Relation.ReflTransGen (Step deadLoops) ⟨negativeTwos, []⟩ s ∧
      (negativeTwos.executed plainEnv fun _ => 0).card = 8 ∧
      (s.sink.executed plainEnv fun _ => 0).card = 1 := by
  have hranges : ∀ r ∈ negativeTwos.rangesOf, r = eight := by decide
  have hvisit : Step deadLoops ⟨negativeTwos, []⟩ ⟨negativeTwos, [(eight, some (-2))]⟩ :=
    .visit ⟨negativeTwos, []⟩ (show Event.mod eight (-2) ∈ negativeTwos.events by
      simp [negativeTwos, Stmt.events, Exprs.events, Expr.events])
  refine ⟨by decide, ?_, by decide, _, .tail (.tail .refl hvisit) (.split _ rfl rfl), ?_, ?_⟩
  · exact fun r hr r' hr' hne => absurd ((hranges r hr).trans (hranges r' hr').symm) hne
  · decide
  · decide

end Svod.Rangeify.SplitRanges
