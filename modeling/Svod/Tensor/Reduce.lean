/-
  Svod.Tensor.Reduce

  Reductions over axes (`try_reduce_axis` of
  `ir/src/uop/constructors/reduce.rs`, `reduce_internal` of
  `tensor/src/reduce.rs`).

  The operation and its identity are parameters; the elements are of the
  accumulation type already.
-/

import Svod.Tensor.Elementwise

namespace Svod.Tensor.Nd

open Svod.Lib Svod.Ir

variable {α : Type}

/-! ## Operations -/

/-- `UOp::try_reduce_axis`. -/
def tryReduceAxis (op : α → α → α) (identity : α) (t : NdArray α) (axes : List ℕ) :
    Except Ir.Error (NdArray α) := do
  let ndim := t.shape.length
  let axes := axes.mergeSort (· ≤ ·)
  axes.forM fun axis => ensure (axis < ndim) (Ir.Error.reduceAxisInvalid axis ndim)
  let reduceAxes := axes.filter fun axis => t.shape.getD axis 0 ≠ 1
  let outputShape := ((List.range ndim).filter (· ∉ axes)).map (t.shape.getD · 0)
  if reduceAxes = [] then Movement.tryReshape t outputShape
  else
    let permutation := reduceAxes ++ (List.range ndim).filter (· ∉ reduceAxes)
    let permuted ← Movement.tryPermute t permutation
    let reduced := permuted.reduceLeading op identity reduceAxes.length
    if axes = reduceAxes then return reduced else Movement.tryReshape reduced outputShape

/-- `AxisSpec`. -/
inductive AxisSpec where
  | all
  | single (axis : ℤ)
  | multiple (axes : List ℤ)
deriving DecidableEq, Repr

/-- `resolve_axis_spec`. -/
def resolveAxisSpec (spec : AxisSpec) (ndim : ℕ) : Except ErrorKind (List ℕ) :=
  match spec with
  | .all => .ok (List.range ndim)
  | .single axis => do
    let normalized ← normalizeAxis axis ndim
    return [normalized]
  | .multiple axes => do
    let normalized ← axes.mapM (normalizeAxis · ndim)
    return (normalized.mergeSort (· ≤ ·)).dedup

/-- `reduce_internal`, without `keepdim`. -/
def reduceInternal (op : α → α → α) (identity : α) (t : NdArray α) (axes : AxisSpec) :
    Except ErrorKind (NdArray α) := do
  let resolvedAxes ← resolveAxisSpec axes t.shape.length
  uopContext (tryReduceAxis op identity t resolvedAxes)

/-- `sum`, in the accumulation type. -/
def sum [Add α] [Zero α] (t : NdArray α) (axes : AxisSpec) : Except ErrorKind (NdArray α) :=
  reduceInternal (· + ·) 0 t axes

/-- `prod`. -/
def prod [Mul α] [One α] (t : NdArray α) (axes : AxisSpec) : Except ErrorKind (NdArray α) :=
  reduceInternal (· * ·) 1 t axes

/-- `max`, of integers. -/
def max_ {τ : IntType} (t : NdArray (TypedInt τ)) (axes : AxisSpec) :
    Except ErrorKind (NdArray (TypedInt τ)) := reduceInternal max .least t axes

/-- `min`, of integers. -/
def min_ {τ : IntType} (t : NdArray (TypedInt τ)) (axes : AxisSpec) :
    Except ErrorKind (NdArray (TypedInt τ)) := reduceInternal min .greatest t axes

/-- `any`, of a mask. -/
def any (t : NdArray Bool) (axes : AxisSpec) : Except ErrorKind (NdArray Bool) :=
  reduceInternal (· || ·) false t axes

/-! ## One axis -/

variable {t : NdArray α} {s : List ℕ} {f : List ℕ → α}

theorem filter_range_ne (n d : ℕ) :
    (List.range n).filter (· ∉ [d]) = (List.range n).eraseIdx d := by
  have hne : (List.range n).filter (· ∉ [d]) = (List.range n).filter (· != d) :=
    List.filter_congr fun x _ => by by_cases hx : x = d <;> simp [hx]
  rw [hne, ← List.nodup_range.erase_eq_filter d]
  by_cases hd : d < n
  · have hidx : (List.range n).idxOf d = d := by
      have h := (List.nodup_range (n := n)).idxOf_getElem d (by simpa using hd)
      rwa [List.getElem_range] at h
    rw [← List.eraseIdx_idxOf_eq_erase, hidx]
  · rw [List.erase_of_not_mem (by simpa using hd), List.eraseIdx_of_length_le (by simpa using hd)]

theorem reduceLeading_one (op : α → α → α) (e : α) {n : ℕ} (h : t.Holds (n :: s) f) :
    (t.reduceLeading op e 1).Holds s fun c => ((List.range n).map fun x => f (x :: c)).foldr op e := by
  have hshape := h.shape_eq
  refine ⟨by simp [NdArray.reduceLeading, hshape], fun c hc => ?_⟩
  simp only [NdArray.reduceLeading, hshape, List.headD_cons]
  refine congrArg (List.foldr op e) (List.map_congr_left fun x hx => ?_)
  exact h.get_eq _ (.cons (List.mem_range.mp hx) hc)

/-- The fold of the elements along one axis. -/
theorem tryReduceAxis_returns (op : α → α → α) {e : α} (hid : ∀ x, op x e = x) (h : t.Holds s f)
    {d : ℕ} (hd : d < s.length) (hn : s.length ≠ 64) :
    Returns (uopContext (tryReduceAxis op e t [d])) (s.eraseIdx d) fun c =>
      ((List.range (s.getD d 0)).map fun x => f (c.insertIdx d x)).foldr op e := by
  have hs := h.shape_eq
  subst hs
  have hchecks : [d].forM (fun axis => ensure (axis < t.shape.length)
      (Ir.Error.reduceAxisInvalid axis t.shape.length)) = .ok () :=
    forM_ok fun x hx => ensure_of_true (List.mem_singleton.mp hx ▸ hd) _
  have houtput : ((List.range t.shape.length).filter (· ∉ [d])).map (t.shape.getD · 0) =
      t.shape.eraseIdx d := by
    have hself : (List.range t.shape.length).map (t.shape.getD · 0) = t.shape :=
      List.ext_getElem (by simp) fun k h₁ h₂ => by
        rw [List.getElem_map, List.getElem_range, List.getD_eq_getElem _ _ h₂]
    rw [filter_range_ne, ← List.eraseIdx_map, hself]
  by_cases hone : t.shape.getD d 0 = 1
  · -- a unit axis is dropped by a reshape
    have hcall : tryReduceAxis op e t [d] = Movement.tryReshape t (t.shape.eraseIdx d) := by
      have hfilter : [d].filter (fun axis => t.shape.getD axis 0 ≠ 1) = [] := by
        rw [List.filter_singleton, hone]
        rfl
      unfold tryReduceAxis
      simp only [List.mergeSort_singleton, hchecks, houtput, hfilter]
      rfl
    have hinsert : (t.shape.eraseIdx d).insertIdx d 1 = t.shape := by
      rw [← hone, List.getD_eq_getElem _ _ hd, List.insertIdx_eraseIdx_getElem hd]
    have hle : d ≤ (t.shape.eraseIdx d).length := by
      rw [List.length_eraseIdx_of_lt hd]
      omega
    have hsq := NdArray.Holds.squeeze hle (by rw [hinsert]; exact h)
    rw [hcall]
    refine (Returns.of_agrees (uopContext_ok (Movement.tryReshape_ok t ?_)) hsq).congr
      fun c _ => ?_
    · rw [← prod_insertIdx_one hle, hinsert]
    · rw [hone]
      simp [hid]
  · have hperm : (d :: (List.range t.shape.length).eraseIdx d).Perm
        (List.range t.shape.length) := by
      have hd' : d < (List.range t.shape.length).length := by simpa using hd
      have := List.getElem_cons_eraseIdx_perm hd'
      rwa [List.getElem_range] at this
    obtain ⟨u, hu, huAgree⟩ := Movement.tryPermute_ok t hperm hn
    have hcall : tryReduceAxis op e t [d] = .ok (u.reduceLeading op e 1) := by
      have hfilter : [d].filter (fun axis => t.shape.getD axis 0 ≠ 1) = [d] := by
        rw [List.filter_singleton, decide_eq_true hone, cond_true]
      unfold tryReduceAxis
      simp only [List.mergeSort_singleton, hchecks, hfilter, filter_range_ne, List.singleton_append,
        hu]
      rfl
    rw [hcall]
    have hfront := reduceLeading_one op e ((h.permute_front hd).of_agrees huAgree)
    exact Returns.ok (hfront.congr fun c _ => by simp)

theorem reduceInternal_returns (op : α → α → α) {e : α} (hid : ∀ x, op x e = x)
    (h : t.Holds s f) {axis : ℤ} {d : ℕ} (haxis : IsAxis axis s.length d) (hn : s.length ≠ 64) :
    Returns (reduceInternal op e t (.single axis)) (s.eraseIdx d) fun c =>
      ((List.range (s.getD d 0)).map fun x => f (c.insertIdx d x)).foldr op e := by
  have haxis' : normalizeAxis axis t.shape.length = .ok d := by rw [h.shape_eq]; exact haxis
  have hcall : reduceInternal op e t (.single axis) = uopContext (tryReduceAxis op e t [d]) := by
    rw [reduceInternal, resolveAxisSpec, bind_ok haxis']
    rfl
  rw [hcall]
  exact tryReduceAxis_returns op hid h haxis.lt hn

/-- The last axis. -/
theorem reduceInternal_last (op : α → α → α) {e : α} (hid : ∀ x, op x e = x) {n : ℕ}
    (h : t.Holds (s.insertIdx s.length n) f) (hn : s.length ≠ 63) :
    Returns (reduceInternal op e t (.single (-1))) s fun c =>
      ((List.range n).map fun x => f (c.insertIdx s.length x)).foldr op e := by
  have hlen : (s.insertIdx s.length n).length = s.length + 1 :=
    List.length_insertIdx_of_le_length (le_refl _) _
  have haxis : IsAxis (-1) (s.insertIdx s.length n).length s.length := by
    have hlast : 0 < (s.insertIdx s.length n).length := by omega
    have := isAxis_last hlast
    rwa [hlen, Nat.add_sub_cancel, ← hlen] at this
  have hstep := reduceInternal_returns op hid h haxis (by omega)
  rw [List.eraseIdx_insertIdx_self, List.getD_eq_getElem _ _ (by omega),
    List.getElem_insertIdx_self] at hstep
  exact hstep

end Svod.Tensor.Nd
