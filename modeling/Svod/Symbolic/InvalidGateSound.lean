/-
  Svod.Symbolic.InvalidGateSound

  Each rule of `propagate_invalid` keeps the value, or the poison, of the node.
  The three rules that join the condition of an inner gate to an outer condition
  do so with a strict operation, and give poison where the inner condition is
  poison on the branch that is not taken.
-/

import Svod.Symbolic.InvalidGate
import Svod.Lib.Fallible

namespace Svod.Symbolic.InvalidGate

open Svod Svod.Lib

variable {α : Type} {p : Promotion} {S : Semantics α} {E : Env α} {k k' : Counters} {l : Lane}
  {e e' c x : Expr}

/-! ## Gates -/

@[simp] theorem dtype_gate (c x : Expr) : (Expr.gate c x).dtype p = x.dtype p := by
  cases x <;> rfl

@[simp] theorem dtype_where_invalid (c x : Expr) : (Expr.where_ c x .invalid).dtype p = x.dtype p :=
  dtype_gate c x

theorem eval_where (c a b : Expr) : (Expr.where_ c a b).eval p S E k l =
    (c.eval p S E k l).bind fun v =>
      if S.truth v then a.eval p S E k l else b.eval p S E k l := rfl

@[simp] theorem eval_invalid : Expr.invalid.eval p S E k l = none := rfl

theorem eval_gate (c x : Expr) : (Expr.gate c x).eval p S E k l =
    (c.eval p S E k l).bind fun v => if S.truth v then x.eval p S E k l else none := rfl

theorem eval_binary (op : BinaryOp) (a b : Expr) : (Expr.binary op a b).eval p S E k l =
    (a.eval p S E k l).bind fun v => (b.eval p S E k l).bind fun w =>
      some (S.binary op (a.dtype p) (b.dtype p) v w) := rfl

theorem eval_reduce (op : ReduceOp) (src : Expr) (ranges : List Loop) (n : ℕ) :
    (Expr.reduce op src ranges n).eval p S E k l =
      ((iterations E.trips ranges k).mapM fun k' =>
        (E.lanes n src l).mapM fun l' => src.eval p S E k' l').bind fun vs =>
          some (S.reduce op (src.dtype p) vs.flatten) := rfl

/-- A strict operation moves into a gate. -/
theorem map_gate (f : α → α) (o : Option α) (c : Expr) :
    ((c.eval p S E k l).bind fun v => if S.truth v then o else none).map f =
      (c.eval p S E k l).bind fun v => if S.truth v then o.map f else none := by
  cases c.eval p S E k l with
  | none => rfl
  | some v =>
    by_cases h : S.truth v = true
    · simp [h]
    · simp [h]

/-! ## Independence of the ranges -/

theorem mapM_eq_of_forall₂ {β γ : Type} {R : β → β → Prop} {f g : β → Option γ} {xs ys : List β}
    (h : List.Forall₂ R xs ys) (hfg : ∀ a b, R a b → f a = g b) : xs.mapM f = ys.mapM g := by
  induction h with
  | nil => rfl
  | cons hab _ ih => simp only [List.mapM_cons, hfg _ _ hab, ih]

/-- A node with none of the ranges in its subtree has one value in all their iterations. -/
theorem eval_agree {ids : List ℕ} (he : e.anyInSubtree ids = false) (h : AgreeOff ids k k') :
    e.eval p S E k l = e.eval p S E k' l := by
  induction e generalizing k k' l with
  | leaf id reads d =>
    simp only [Expr.eval]
    rw [h.reads he]
  | invalid => rfl
  | unary op x ih => simp only [Expr.eval, ih he h]
  | cast src d ih | bitcast src d ih => simp only [Expr.eval, ih he h]
  | binary op a b iha ihb =>
    simp only [Expr.anyInSubtree, Bool.or_eq_false_iff] at he
    simp only [Expr.eval, iha he.1 h, ihb he.2 h]
  | where_ c a b ihc iha ihb =>
    simp only [Expr.anyInSubtree, Bool.or_eq_false_iff] at he
    simp only [Expr.eval, ihc he.1.1 h, iha he.1.2 h, ihb he.2 h]
  | reduce op src ranges n ih =>
    simp only [Expr.anyInSubtree, Bool.or_eq_false_iff] at he
    simp only [Expr.eval]
    rw [mapM_eq_of_forall₂ (iterations_agree he.2 h) fun a b hab => ?_]
    simp only [ih he.1 hab]

/-! ## Reductions -/

/-- Every range runs at least once. -/
def Env.Runs (E : Env α) : Prop := ∀ r reads, 0 < E.trips r reads

/-- A gate that is the same for every element lifts out of a traversal. -/
theorem mapM_gate {β γ : Type} (o : Option α) (f : β → Option γ) {xs : List β} (hne : xs ≠ []) :
    (xs.mapM fun a => o.bind fun v => if S.truth v then f a else none) =
      o.bind fun v => if S.truth v then xs.mapM f else none := by
  cases o with
  | none => exact mapM_eq_none hne fun _ _ => rfl
  | some v =>
    by_cases ht : S.truth v = true
    · simp only [Option.bind_some, ht, if_true]
    · simp only [Option.bind_some, ht]
      exact mapM_eq_none hne fun _ _ => rfl

/-- A gate that no range of the reduction moves lifts out of it. -/
theorem eval_reduce_gate (hE : E.Runs) {op : ReduceOp} {ranges : List Loop}
    (hc : c.movedByRanges ranges = false) :
    (Expr.gate c (Expr.reduce op x ranges 0)).eval p S E k l =
      (Expr.reduce op (Expr.gate c x) ranges 0).eval p S E k l := by
  have hinner (k') (hk : k' ∈ iterations E.trips ranges k) :
      ([l].mapM fun l' => (Expr.gate c x).eval p S E k' l') =
        (c.eval p S E k l).bind fun v =>
          if S.truth v then [l].mapM fun l' => x.eval p S E k' l' else none := by
    have hcond : c.eval p S E k' l = c.eval p S E k l :=
      eval_agree hc (agreeOff_of_mem_iterations hk)
    rw [← mapM_gate _ _ (List.cons_ne_nil l [])]
    refine mapM_congr_mem fun l' hl => ?_
    obtain rfl := List.mem_singleton.mp hl
    rw [eval_gate, hcond]
  rw [eval_gate, eval_reduce, eval_reduce, E.lanes_zero, E.lanes_zero, dtype_gate,
    mapM_congr_mem hinner, mapM_gate _ _ (iterations_ne_nil hE ranges k)]
  cases c.eval p S E k l with
  | none => rfl
  | some v => cases ht : S.truth v <;> simp [ht]

/-! ## Selections -/

theorem truth_not_eval (hc : c.dtype p = .bool) :
    c.not.eval p S E k l = (c.eval p S E k l).map (S.unary .not .bool) := by
  simp only [Expr.not, Expr.eval, hc]

/-- Where a rule joins the condition of an inner gate to an outer condition, and the inner one
    is poison while the outer one selects the other branch, which has a value. -/
def Rule.Hides (p : Promotion) (S : Semantics α) (E : Env α) (k : Counters) (l : Lane) :
    Rule → Expr → Prop
  | .mergeNested, .where_ c1 (.where_ c2 _ _) d =>
    (c1.eval p S E k l).any (! S.truth ·) ∧ c2.eval p S E k l = none ∧ (d.eval p S E k l).isSome
  | .liftTrueBranch, .where_ a (.where_ cond _ _) c =>
    (a.eval p S E k l).any (! S.truth ·) ∧ cond.eval p S E k l = none ∧ (c.eval p S E k l).isSome
  | .liftFalseBranch, .where_ a b (.where_ cond _ _) =>
    (a.eval p S E k l).any (S.truth ·) ∧ cond.eval p S E k l = none ∧ (b.eval p S E k l).isSome
  | _, _ => False

theorem mergeNested_iff {c1 c2 d : Expr} (h1 : c1.dtype p = .bool) (h2 : c2.dtype p = .bool) :
    (Expr.where_ (.binary .and c1 c2) x d).eval p S E k l =
        (Expr.where_ c1 (.where_ c2 x d) d).eval p S E k l ↔
      ¬ Rule.mergeNested.Hides p S E k l (.where_ c1 (.where_ c2 x d) d) := by
  simp only [Rule.Hides, eval_where, eval_binary, h1, h2]
  cases hv : c1.eval p S E k l with
  | none => simp
  | some v =>
    cases hw : c2.eval p S E k l with
    | none =>
      cases hd : d.eval p S E k l <;> cases ht : S.truth v <;> simp [ht]
    | some w =>
      cases ht : S.truth v <;> cases hu : S.truth w <;> simp [S.truth_and, ht, hu]

theorem liftTrueBranch_iff {a cond c : Expr} (ha : a.dtype p = .bool)
    (hc : cond.dtype p = .bool) :
    (Expr.gate (.binary .or a.not cond) (.where_ a x c)).eval p S E k l =
        (Expr.where_ a (.where_ cond x .invalid) c).eval p S E k l ↔
      ¬ Rule.liftTrueBranch.Hides p S E k l (.where_ a (.where_ cond x .invalid) c) := by
  have hn : a.not.dtype p = .bool := ha
  simp only [Rule.Hides, eval_gate, eval_where, eval_binary, truth_not_eval ha, hn, hc,
    eval_invalid]
  cases hv : a.eval p S E k l with
  | none => simp
  | some v =>
    cases hw : cond.eval p S E k l with
    | none =>
      cases hd : c.eval p S E k l <;> cases ht : S.truth v <;> simp [ht]
    | some w =>
      cases ht : S.truth v <;> cases hu : S.truth w <;> simp [S.truth_or, S.truth_not, ht, hu]

theorem liftFalseBranch_iff {a b cond : Expr} (ha : a.dtype p = .bool)
    (hc : cond.dtype p = .bool) :
    (Expr.gate (.binary .or a cond) (.where_ a b x)).eval p S E k l =
        (Expr.where_ a b (.where_ cond x .invalid)).eval p S E k l ↔
      ¬ Rule.liftFalseBranch.Hides p S E k l (.where_ a b (.where_ cond x .invalid)) := by
  simp only [Rule.Hides, eval_gate, eval_where, eval_binary, ha, hc, eval_invalid]
  cases hv : a.eval p S E k l with
  | none => simp
  | some v =>
    cases hw : cond.eval p S E k l with
    | none =>
      cases hd : b.eval p S E k l <;> cases ht : S.truth v <;> simp [ht]
    | some w =>
      cases ht : S.truth v <;> cases hu : S.truth w <;> simp [S.truth_or, ht, hu]

/-! ## All rules -/

theorem eval_of_isInvalidMarker (h : e.isInvalidMarker = true) : e.eval p S E k l = none := by
  cases e with
  | invalid => rfl
  | _ => cases h

/-- A selection between poison and `x`, with the condition turned around. -/
theorem eval_flipped (hc : c.dtype p = .bool) :
    (Expr.gate c.not x).eval p S E k l = (Expr.where_ c .invalid x).eval p S E k l := by
  rw [eval_gate, eval_where, truth_not_eval hc]
  cases c.eval p S E k l with
  | none => rfl
  | some v => cases ht : S.truth v <;> simp [S.truth_not, ht]

theorem eval_unary (op : UnaryOp) (x : Expr) : (Expr.unary op x).eval p S E k l =
    (x.eval p S E k l).map (S.unary op (x.dtype p)) := rfl

theorem eval_cast (x : Expr) (d : ScalarDType) : (Expr.cast x d).eval p S E k l =
    (x.eval p S E k l).map (S.cast (x.dtype p) d) := rfl

theorem eval_bitcast (x : Expr) (d : ScalarDType) : (Expr.bitcast x d).eval p S E k l =
    (x.eval p S E k l).map (S.bitcast (x.dtype p) d) := rfl

/-- The rules that join no conditions keep the value, or the poison. -/
theorem Rule.apply_eval {r : Rule} (hr : r ≠ .mergeNested ∧ r ≠ .liftTrueBranch ∧
    r ≠ .liftFalseBranch) (hE : E.Runs) (he : e.WellTyped p) (h : r.apply e = some e') :
    e'.eval p S E k l = e.eval p S E k l := by
  unfold Rule.apply at h
  split at h
  case h_1 => cases h; rfl
  case h_2 cond x a b =>
    cases h
    simp only [eval_gate, eval_where, eval_invalid]
    cases cond.eval p S E k l with
    | none => rfl
    | some v => cases ht : S.truth v <;> simp [ht]
  case h_3 cond x =>
    split at h
    · -- both branches are poison
      next hx =>
      cases h
      rw [eval_of_isInvalidMarker hx, eval_where, eval_of_isInvalidMarker hx]
      cases cond.eval p S E k l <;> simp
    · split at h
      · next inner =>
        -- the negation of the condition is already there
        cases h
        have hc : inner.dtype p = .bool := he.1
        rw [eval_gate, eval_where, eval_unary, hc]
        cases inner.eval p S E k l with
        | none => rfl
        | some v => cases ht : S.truth v <;> simp [S.truth_not, ht]
      · cases h
        exact eval_flipped he.1
  case h_4 => exact absurd rfl hr.1
  case h_5 => exact absurd rfl hr.2.1
  case h_6 => exact absurd rfl hr.2.2
  case h_7 => cases h; rfl
  case h_8 op cond x =>
    cases h
    rw [eval_gate, eval_unary, eval_unary, dtype_where_invalid]
    exact (map_gate _ _ cond).symm
  case h_9 => cases h; rfl
  case h_10 cond x d =>
    cases h
    rw [eval_gate, eval_cast, eval_cast, dtype_where_invalid]
    exact (map_gate _ _ cond).symm
  case h_11 => cases h; rfl
  case h_12 cond x d =>
    cases h
    rw [eval_gate, eval_bitcast, eval_bitcast, dtype_where_invalid]
    exact (map_gate _ _ cond).symm
  case h_13 op cond x ranges numAxes =>
    split at h
    · next hguard =>
      obtain ⟨rfl, hmoved⟩ := hguard
      cases h
      exact eval_reduce_gate hE (by simpa using hmoved)
    · cases h
  case h_14 op cond x y =>
    cases h
    rw [eval_gate, eval_binary, eval_binary, dtype_where_invalid, eval_where]
    cases cond.eval p S E k l with
    | none => rfl
    | some v => cases ht : S.truth v <;> simp [ht]
  case h_15 op y cond x =>
    cases h
    rw [eval_gate, eval_binary, eval_binary, dtype_where_invalid, eval_where]
    cases cond.eval p S E k l with
    | none => cases y.eval p S E k l <;> rfl
    | some v => cases y.eval p S E k l <;> cases ht : S.truth v <;> simp [ht]
  case h_16 op y =>
    split at h
    · cases h
      rfl
    · cases h
  case h_17 op y =>
    split at h
    · cases h
      rw [eval_binary]
      cases y.eval p S E k l <;> rfl
    · cases h
  case h_18 => cases h

/-- A rule keeps the value of the node, or its poison, unless it joins the condition of an
    inner gate that is poison to an outer condition that selects the other branch. -/
theorem propagateInvalid_eval_iff {r : Rule} (hE : E.Runs) (he : e.WellTyped p)
    (h : r.apply e = some e') :
    e'.eval p S E k l = e.eval p S E k l ↔ ¬ r.Hides p S E k l e := by
  by_cases hr : r ≠ .mergeNested ∧ r ≠ .liftTrueBranch ∧ r ≠ .liftFalseBranch
  · refine iff_of_true (Rule.apply_eval hr hE he h) ?_
    unfold Rule.Hides
    split
    · exact absurd rfl hr.1
    · exact absurd rfl hr.2.1
    · exact absurd rfl hr.2.2
    · exact id
  · unfold Rule.apply at h
    split at h
    case h_4 c1 c2 x d d' =>
      split at h
      · next hd =>
        subst hd
        cases h
        exact mergeNested_iff he.1 he.2.2.1.1
      · cases h
    case h_5 a cond x c =>
      split at h
      · cases h
      · cases h
        exact liftTrueBranch_iff he.1 he.2.2.1.1
    case h_6 a b cond x =>
      split at h
      · cases h
      · cases h
        exact liftFalseBranch_iff he.1 he.2.2.2.1
    case h_18 => cases h
    all_goals exact absurd ⟨by decide, by decide, by decide⟩ hr

/-- Booleans, with everything but the logical operations constant. -/
def booleans : Semantics Bool where
  truth v := v
  unary _ _ v := !v
  cast _ _ v := v
  bitcast _ _ v := v
  binary op _ _ v w := if op = .or then v || w else v && w
  reduce _ _ vs := vs.any id
  truth_not _ := rfl
  truth_and _ _ := rfl
  truth_or _ _ := rfl

/-- Leaf `0` is false, the others are true. -/
def leaves : Env Bool where
  leaf id _ _ := some (id ≠ 0)
  trips _ _ := 1
  lanes _ _ l := [l]
  lanes_zero _ _ := rfl

def boolPromotion : Promotion := ⟨fun a _ => a, fun a => a⟩

/-- The gate of a negated operand moves out. -/
theorem propagateInvalid_eval_iff_not :
    (Expr.gate (.leaf 2 [] .bool) (.not (.leaf 0 [] .bool))).eval boolPromotion booleans leaves
        (fun _ => 0) [] =
      (Expr.not (.gate (.leaf 2 [] .bool) (.leaf 0 [] .bool))).eval boolPromotion booleans leaves
        (fun _ => 0) [] := by
  have he : (Expr.not (.gate (.leaf 2 [] .bool) (.leaf 0 [] .bool))).WellTyped boolPromotion :=
    ⟨rfl, trivial, trivial, trivial⟩
  exact (propagateInvalid_eval_iff (r := .unaryGated) (fun _ _ => Nat.one_pos) he rfl).mpr
    (fun h => h)

/-- `Where(a, Where(Where(a, g, Invalid), x, Invalid), c)` is `c` where `a` is false, and is
    rewritten to poison. -/
theorem propagateInvalid_fails :
    ¬ ∀ (p : Promotion) (S : Semantics Bool) (E : Env Bool) (k : Counters) (l : Lane) (r : Rule)
        (e e' : Expr), E.Runs → e.WellTyped p → r.apply e = some e' →
      e'.eval p S E k l = e.eval p S E k l := by
  intro h
  have hval := h boolPromotion booleans leaves (fun _ => 0) [] .liftTrueBranch
    (.where_ (.leaf 0 [] .bool)
      (.gate (.gate (.leaf 0 [] .bool) (.leaf 1 [] .bool)) (.leaf 2 [] .bool))
      (.leaf 3 [] .bool)) _
    (fun _ _ => Nat.one_pos)
    ⟨rfl, trivial, ⟨rfl, ⟨rfl, trivial, trivial, trivial⟩, trivial, trivial⟩, trivial⟩ rfl
  exact absurd hval (by decide)

end Svod.Symbolic.InvalidGate
