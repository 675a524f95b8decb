/-
  Svod.Tensor.Elementwise

  Elementwise operations with broadcasting (`tensor/src/arithmetic.rs`,
  `tensor/src/conditional.rs`) and their rules.

  The elements of an operand are values of one type; a scalar operand is an
  array of no axes.
-/

import Svod.Lib.TypedInt
import Svod.Tensor.ShapeRules

namespace Svod.Tensor.Nd

open Svod.Lib Svod.Ir

variable {α β γ : Type}

/-! ## Operations -/

/-- `align_shapes_left`. -/
def alignShapesLeft (shapes : List (List ℕ)) : List (List ℕ) :=
  shapes.map (Movement.alignLeft ((shapes.map List.length).foldl max 0))

/-- `broadcast_shapes`. -/
def broadcastShapes (shapes : List (List ℕ)) : Except Ir.Error (List ℕ) :=
  match alignShapesLeft shapes with
  | [] => .ok []
  | first :: rest => rest.foldlM Movement.broadcastShape first

/-- `Tensor::const_`, of a value of the element type. -/
def const (value : α) : NdArray α := ⟨[], fun _ => value⟩

/-- `cast`, by a conversion of the elements. -/
def cast (convert : α → β) (t : NdArray α) : NdArray β := ⟨t.shape, fun c => convert (t.get c)⟩

/-- `where_`. -/
def where_ (t : NdArray α) (condition : NdArray Bool) (other : NdArray α) :
    Except ErrorKind (NdArray α) := do
  let target ← uopContext (broadcastShapes [condition.shape, t.shape, other.shape])
  let condBc ← broadcastTo condition target
  let selfBc ← broadcastTo t target
  let otherBc ← broadcastTo other target
  return ⟨target, fun c => if condBc.get c then selfBc.get c else otherBc.get c⟩

/-- `try_eq`. -/
def tryEq [DecidableEq α] (a b : NdArray α) : Except ErrorKind (NdArray Bool) :=
  tryBinary (fun x y => decide (x = y)) a b

/-- `try_ne`. -/
def tryNe [DecidableEq α] (a b : NdArray α) : Except ErrorKind (NdArray Bool) :=
  tryBinary (fun x y => decide (x ≠ y)) a b

/-- `try_lt`. -/
def tryLt [LinearOrder α] (a b : NdArray α) : Except ErrorKind (NdArray Bool) :=
  tryBinary (fun x y => decide (x < y)) a b

/-- `try_bitor`, of masks. -/
def tryBitor (a b : NdArray Bool) : Except ErrorKind (NdArray Bool) := tryBinary (· || ·) a b

/-- `try_div`, of integers: the floor of the quotient. -/
def tryDiv {τ : IntType} (a b : NdArray (TypedInt τ)) : Except ErrorKind (NdArray (TypedInt τ)) :=
  tryBinary (fun x y => .ofInt (x.val.fdiv y.val)) a b

/-- `try_mod`, of integers: the remainder of that quotient. -/
def tryMod {τ : IntType} (a b : NdArray (TypedInt τ)) : Except ErrorKind (NdArray (TypedInt τ)) :=
  tryBinary (fun x y => .ofInt (x.val.fmod y.val)) a b

/-- `logical_not`, of a mask. -/
def logicalNot (t : NdArray Bool) : Except ErrorKind (NdArray Bool) := tryNe t (const true)

/-- `maximum`. -/
def maximum [LinearOrder α] (a b : NdArray α) : Except ErrorKind (NdArray α) := tryBinary max a b

/-- `minimum`: not a primitive of the layer below. -/
def minimum [LinearOrder α] (a b : NdArray α) : Except ErrorKind (NdArray α) := do
  let condition ← tryLt a b
  where_ a condition b

/-! ## Common shapes -/

theorem foldl_max_le {l : List ℕ} {a n : ℕ} (ha : a ≤ n) (h : ∀ x ∈ l, x ≤ n) :
    l.foldl max a ≤ n := by
  induction l generalizing a with
  | nil => exact ha
  | cons x l ih =>
    exact ih (max_le ha (h x (by simp))) fun y hy => h y (by simp [hy])

theorem le_foldl_max {l : List ℕ} {a : ℕ} : a ≤ l.foldl max a := by
  induction l generalizing a with
  | nil => exact le_refl a
  | cons x l ih => exact (le_max_left a x).trans ih

theorem mem_le_foldl_max {l : List ℕ} {a x : ℕ} (hx : x ∈ l) : x ≤ l.foldl max a := by
  induction l generalizing a with
  | nil => simp at hx
  | cons y l ih =>
    rcases List.mem_cons.mp hx with rfl | hx
    · exact (le_max_right a x).trans le_foldl_max
    · exact ih hx

/-- Joining shapes one after the other. -/
theorem foldlM_broadcastShape {target : List ℕ} {shapes : List (List ℕ)} {acc : List ℕ}
    (hacc : List.Forall₂ (fun s n => s = n ∨ s = 1) acc target)
    (h : ∀ s ∈ shapes, List.Forall₂ (fun s n => s = n ∨ s = 1) s target) :
    ∃ j, shapes.foldlM Movement.broadcastShape acc = .ok j ∧
      List.Forall₂ (fun s n => s = n ∨ s = 1) j target ∧
      ∀ i, (∃ s ∈ acc :: shapes, s.getD i 0 = target.getD i 0) → j.getD i 0 = target.getD i 0 := by
  induction shapes generalizing acc with
  | nil => exact ⟨acc, rfl, hacc, fun i hi => by simpa using hi⟩
  | cons s shapes ih =>
    obtain ⟨j, hj, hjt, hjd⟩ := broadcastShape_join hacc (h s (by simp))
    obtain ⟨j', hj', hjt', hjd'⟩ := ih hjt fun s' hs' => h s' (by simp [hs'])
    refine ⟨j', ?_, hjt', fun i hi => hjd' i ?_⟩
    · rw [List.foldlM_cons, hj]
      exact hj'
    · obtain ⟨s', hs', hi⟩ := hi
      rcases List.mem_cons.mp hs' with rfl | hs'
      · exact ⟨j, by simp, hjd i (.inl hi)⟩
      · rcases List.mem_cons.mp hs' with rfl | hs'
        · exact ⟨j, by simp, hjd i (.inr hi)⟩
        · exact ⟨s', by simp [hs'], hi⟩

/-- The target is the common shape of shapes that broadcast to it, one of them of its rank, each
    of its dimensions that of one of them. -/
structure CommonShape (shapes : List (List ℕ)) (target : List ℕ) : Prop where
  broadcasts : ∀ s ∈ shapes, BroadcastsTo s target
  rank : ∃ s ∈ shapes, s.length = target.length
  dims : ∀ i < target.length,
    ∃ s ∈ shapes, (Movement.alignLeft target.length s).getD i 0 = target.getD i 0

/-- A shape to which the others broadcast. -/
theorem CommonShape.of_mem {shapes : List (List ℕ)} {target : List ℕ} (hmem : target ∈ shapes)
    (h : ∀ s ∈ shapes, BroadcastsTo s target) : CommonShape shapes target :=
  ⟨h, ⟨target, hmem, rfl⟩, fun i _ => ⟨target, hmem, by rw [alignLeft_self rfl]⟩⟩

theorem CommonShape.maxDims {shapes : List (List ℕ)} {target : List ℕ}
    (h : CommonShape shapes target) : (shapes.map List.length).foldl max 0 = target.length := by
  obtain ⟨s, hs, hlen⟩ := h.rank
  refine le_antisymm (foldl_max_le (Nat.zero_le _) fun n hn => ?_) ?_
  · obtain ⟨s', hs', rfl⟩ := List.mem_map.mp hn
    exact (h.broadcasts s' hs').1
  · rw [← hlen]
    exact mem_le_foldl_max (List.mem_map_of_mem hs)

theorem broadcastShapes_ok {shapes : List (List ℕ)} {target : List ℕ}
    (h : CommonShape shapes target) : broadcastShapes shapes = .ok target := by
  obtain ⟨s, shapes', rfl⟩ : ∃ s shapes', shapes = s :: shapes' := by
    obtain ⟨s, hs, -⟩ := h.rank
    cases shapes with
    | nil => simp at hs
    | cons a l => exact ⟨a, l, rfl⟩
  have haligned : ∀ a ∈ shapes'.map (Movement.alignLeft target.length),
      List.Forall₂ (fun s n => s = n ∨ s = 1) a target := by
    intro a ha
    obtain ⟨s', hs', rfl⟩ := List.mem_map.mp ha
    exact broadcastsTo_aligned (h.broadcasts s' (by simp [hs']))
  obtain ⟨j, hj, hjt, hjd⟩ := foldlM_broadcastShape
    (broadcastsTo_aligned (h.broadcasts s (by simp))) haligned
  have heq : j = target := eq_of_getD hjt.length_eq fun i hi => by
    obtain ⟨s', hs', hi'⟩ := h.dims i hi
    refine hjd i ⟨Movement.alignLeft target.length s', ?_, hi'⟩
    rw [← List.map_cons]
    exact List.mem_map_of_mem hs'
  have hmax := h.maxDims
  rw [List.map_cons] at hmax
  unfold broadcastShapes
  simp only [alignShapesLeft, List.map_cons, hmax]
  rw [hj, heq]

/-! ## Rules -/

variable {a : NdArray α} {b : NdArray β} {s s' target : List ℕ} {f : List ℕ → α} {g : List ℕ → β}

theorem const_holds (value : α) : (const value).Holds [] fun _ => value := ⟨rfl, fun _ _ => rfl⟩

theorem broadcastsTo_nil (target : List ℕ) : BroadcastsTo [] target := ⟨Nat.zero_le _, by simp⟩

theorem broadcastsTo_self (target : List ℕ) : BroadcastsTo target target :=
  ⟨le_refl _, by simp⟩

theorem cast_holds (convert : α → β) (h : a.Holds s f) :
    (cast convert a).Holds s fun c => convert (f c) :=
  ⟨h.shape_eq, fun c hc => congrArg convert (h.get_eq c hc)⟩

/-- Inside its own shape an array is read where it is. -/
theorem broadcastCoords_self {c : List ℕ} (hc : InBounds c s) : broadcastCoords s c = c := by
  have hlen : c.length - s.length = 0 := by rw [InBounds.length hc, Nat.sub_self]
  rw [broadcastCoords, hlen, List.drop_zero, NdArray.expandCoords_self hc]

theorem map₂_holds (op : α → β → γ) (ha : a.Holds s f) (hb : b.Holds s g) :
    (a.map₂ op b).Holds s fun c => op (f c) (g c) :=
  ⟨ha.shape_eq, fun c hc => by simp only [NdArray.map₂, ha.get_eq c hc, hb.get_eq c hc]⟩

theorem tryBinary_returns (op : α → β → γ) (ha : a.Holds s f) (hb : b.Holds s' g)
    (hcommon : CommonShape [s, s'] target) :
    Returns (tryBinary op a b) target
      fun c => op (f (broadcastCoords s c)) (g (broadcastCoords s' c)) := by
  have hbs := hcommon.broadcasts s (by simp)
  have hbs' := hcommon.broadcasts s' (by simp)
  by_cases heq : s = s'
  · subst heq
    have htarget : target = s := by
      have hok := broadcastShapes_ok hcommon
      have hself : broadcastShapes [s, s] = .ok s := broadcastShapes_ok (CommonShape.of_mem
        (by simp) (by simp [broadcastsTo_self]))
      exact Except.ok.inj (hok.symm.trans hself)
    subst htarget
    rw [tryBinary_same op (ha.shape_eq.trans hb.shape_eq.symm)]
    refine Returns.ok ((map₂_holds op ha hb).congr fun c hc => ?_)
    rw [broadcastCoords_self hc]
  · obtain ⟨a', ha', haHolds⟩ := broadcastTo_returns ha hbs
    obtain ⟨b', hb', hbHolds⟩ := broadcastTo_returns hb hbs'
    have hshape : Movement.broadcastShape (Movement.alignLeft (max s.length s'.length) s)
        (Movement.alignLeft (max s.length s'.length) s') = .ok target := by
      have hok := broadcastShapes_ok hcommon
      simp only [broadcastShapes, alignShapesLeft, List.map_cons, List.map_nil, List.foldl_cons,
        List.foldl_nil, Nat.zero_max, List.foldlM_cons, List.foldlM_nil] at hok
      cases hj : Movement.broadcastShape (Movement.alignLeft (max s.length s'.length) s)
          (Movement.alignLeft (max s.length s'.length) s') with
      | error e =>
        rw [hj] at hok
        cases hok
      | ok j =>
        rw [hj] at hok
        exact hok
    have hcall : tryBinary op a b = .ok (a'.map₂ op b') := by
      have hne : a.shape ≠ b.shape := by rwa [ha.shape_eq, hb.shape_eq]
      rw [tryBinary, broadcastForBinop, if_neg hne]
      simp only [ha.shape_eq, hb.shape_eq, hshape, uopContext]
      rw [bind_ok rfl, bind_ok ha', bind_ok hb']
      rfl
    rw [hcall]
    exact Returns.ok (map₂_holds op haHolds hbHolds)

/-- Operands of one shape. -/
theorem tryBinary_returns_same (op : α → β → γ) (ha : a.Holds s f) (hb : b.Holds s g) :
    Returns (tryBinary op a b) s fun c => op (f c) (g c) := by
  rw [tryBinary_same op (ha.shape_eq.trans hb.shape_eq.symm)]
  exact .ok (map₂_holds op ha hb)

/-- A scalar operand. -/
theorem tryBinary_returns_scalar (op : α → β → γ) (ha : a.Holds s f) (value : β) :
    Returns (tryBinary op a (const value)) s fun c => op (f c) value := by
  refine (tryBinary_returns op ha (const_holds value) (CommonShape.of_mem (by simp) ?_)).congr
    fun c hc => by rw [broadcastCoords_self hc]
  simp [broadcastsTo_self, broadcastsTo_nil]

theorem where_returns {t other : NdArray α} {condition : NdArray Bool} {sc so : List ℕ}
    {g : List ℕ → α} {m : List ℕ → Bool} (hcond : condition.Holds sc m) (ht : t.Holds s f)
    (hother : other.Holds so g) (hcommon : CommonShape [sc, s, so] target) :
    Returns (where_ t condition other) target fun c =>
      if m (broadcastCoords sc c) then f (broadcastCoords s c) else g (broadcastCoords so c) := by
  obtain ⟨c', hc', hcHolds⟩ := broadcastTo_returns hcond (hcommon.broadcasts sc (by simp))
  obtain ⟨t', ht', htHolds⟩ := broadcastTo_returns ht (hcommon.broadcasts s (by simp))
  obtain ⟨o', ho', hoHolds⟩ := broadcastTo_returns hother (hcommon.broadcasts so (by simp))
  have hcall : where_ t condition other =
      .ok ⟨target, fun c => if c'.get c then t'.get c else o'.get c⟩ := by
    rw [where_, hcond.shape_eq, ht.shape_eq, hother.shape_eq, broadcastShapes_ok hcommon]
    rw [show uopContext (Except.ok target : Except Ir.Error (List ℕ)) = .ok target from rfl,
      bind_ok rfl, bind_ok hc', bind_ok ht', bind_ok ho']
    rfl
  rw [hcall]
  refine Returns.ok ⟨rfl, fun c hc => ?_⟩
  simp only [hcHolds.get_eq c hc, htHolds.get_eq c hc, hoHolds.get_eq c hc]

/-- A mask, a value and an alternative of one shape. -/
theorem where_returns_same {t other : NdArray α} {condition : NdArray Bool} {g : List ℕ → α}
    {m : List ℕ → Bool} (hcond : condition.Holds s m) (ht : t.Holds s f) (hother : other.Holds s g) :
    Returns (where_ t condition other) s fun c => if m c then f c else g c := by
  refine (where_returns hcond ht hother (CommonShape.of_mem (by simp) ?_)).congr fun c hc => ?_
  · simp [broadcastsTo_self]
  · simp only [broadcastCoords_self hc]

/-- A scalar alternative. -/
theorem where_returns_scalar {t : NdArray α} {condition : NdArray Bool} {m : List ℕ → Bool}
    (hcond : condition.Holds s m) (ht : t.Holds s f) (value : α) :
    Returns (where_ t condition (const value)) s fun c => if m c then f c else value := by
  refine (where_returns hcond ht (const_holds value) (CommonShape.of_mem (by simp) ?_)).congr
    fun c hc => ?_
  · simp [broadcastsTo_self, broadcastsTo_nil]
  · simp only [broadcastCoords_self hc]

end Svod.Tensor.Nd
