/-
  Svod.Tensor.ScatterSound

  What scatter computes: at each position the last slot that names it, or a fold
  of the slots that name it.

  `masked_setitem` folds the slices of the slot axis one by one, and
  `scatter_reduce` reduces that axis with a fill for the slots that name another
  position.  The exact conditions under which the functions meet their
  definition are those of the chains (`preScatter_returns`) and the part the fill
  takes in the result.
-/

import Svod.Tensor.IndexingSound

namespace Svod.Tensor.Nd

open Svod.Lib Svod.Ir

variable {α : Type} {τ ι : IntType} {t : NdArray α} {s : List ℕ} {f : List ℕ → α} {d : ℕ}

/-! ## Slices of one axis -/

theorem inBounds_set_one {c : List ℕ} (hd : d < s.length) (hc : InBounds c (s.set d 1)) :
    c.getD d 0 = 0 := by
  have h := InBounds.getD_lt hc (d := d) (by rwa [List.length_set])
  rw [getD_set_self hd] at h
  omega

/-- One slice of an axis. -/
theorem slice_returns (h : t.Holds s f) (hd : d < s.length) {o : ℕ} (ho : o < s.getD d 0) :
    Returns (tryShrink t ((List.range s.length).map fun e =>
      if e = d then .isize o (o + 1 : ℕ) else .none)) (s.set d 1) fun c => f (c.set d o) := by
  have hfit : List.Forall₂ ShrinkRange.Fits ((List.range s.length).map fun e =>
      if e = d then .isize o (o + 1 : ℕ) else .none) s := by
    refine List.forall₂_iff_get.mpr ⟨by simp, fun e h₁ h₂ => ?_⟩
    simp only [List.get_eq_getElem, List.getElem_map, List.getElem_range]
    by_cases hed : e = d
    · subst hed
      rw [List.getD_eq_getElem _ _ h₂] at ho
      rw [if_pos rfl]
      exact ⟨⟨Int.natCast_nonneg _, Int.natCast_nonneg _⟩, Nat.le_succ _, ho⟩
    · rw [if_neg hed]
      exact ⟨trivial, Nat.zero_le _, le_refl _⟩
  have hshape : List.zipWith (fun (r : ShrinkRange) n => (r.bounds n).2 - (r.bounds n).1)
      ((List.range s.length).map fun e => if e = d then .isize o (o + 1 : ℕ) else .none) s =
        s.set d 1 := by
    refine List.ext_getElem (by simp) fun e h₁ h₂ => ?_
    simp only [List.getElem_zipWith, List.getElem_map, List.getElem_range, List.getElem_set]
    by_cases hed : e = d
    · rw [if_pos hed, if_pos hed.symm]
      exact Nat.add_sub_cancel_left o 1
    · rw [if_neg hed, if_neg (Ne.symm hed)]
      rfl
  have hstep := tryShrink_returns h hfit
  rw [hshape] at hstep
  refine hstep.congr fun c hc => congrArg f ?_
  have hlen : c.length = s.length := by rw [InBounds.length hc, List.length_set]
  have hzero := inBounds_set_one hd hc
  rw [List.getD_eq_getElem _ _ (hlen ▸ hd)] at hzero
  refine List.ext_getElem (by simp [hlen]) fun e h₁ h₂ => ?_
  simp only [List.getElem_zipWith, List.getElem_map, List.getElem_range, List.getElem_set]
  by_cases hed : e = d
  · subst hed
    rw [if_pos rfl, if_pos rfl, hzero]
    rfl
  · rw [if_neg hed, if_neg (Ne.symm hed)]
    exact Nat.zero_add _

/-- The slices of an axis from a position on. -/
theorem splitFrom_ones (h : t.Holds s f) (hd : d < s.length) (o k : ℕ) (ho : o + k ≤ s.getD d 0) :
    ∃ slices, splitFrom t d o (List.replicate k 1) = .ok slices ∧
      List.Forall₂ (fun (u : NdArray α) i => u.Holds (s.set d 1) fun c => f (c.set d i)) slices
        (List.range' o k) := by
  induction k generalizing o with
  | zero => exact ⟨[], rfl, .nil⟩
  | succ k ih =>
    obtain ⟨slice, hslice, hholds⟩ := slice_returns h hd (o := o) (by omega)
    obtain ⟨rest, hrest, hall⟩ := ih (o + 1) (by omega)
    refine ⟨slice :: rest, ?_, .cons hholds hall⟩
    rw [List.replicate_succ, splitFrom, h.shape_eq, bind_ok hslice, bind_ok hrest]
    rfl

/-! ## The last writer -/

/-- The value of the last slot that is hit. -/
def lastWriter (m : ℕ → Bool) (v : ℕ → α) (slots : List ℕ) (init : α) : α :=
  slots.foldl (fun acc i => if m i then v i else acc) init

theorem lastWriter_eq (m : ℕ → Bool) (v : ℕ → α) (slots : List ℕ) (init : α) :
    lastWriter m v slots init = ((slots.filter m).map v).getLast?.getD init := by
  induction slots using List.reverseRecOn with
  | nil => rfl
  | append_singleton slots i ih =>
    rw [lastWriter, List.foldl_append, List.foldl_cons, List.foldl_nil, List.filter_append,
      List.map_append]
    cases hm : m i with
    | true => simp [hm]
    | false =>
      rw [List.filter_cons_of_neg (by simp [hm])]
      simpa [lastWriter] using ih

/-- Where a slot is hit the value before the first is not seen. -/
theorem lastWriter_init {m : ℕ → Bool} (v : ℕ → α) {slots : List ℕ} (h : slots.any m = true)
    (init init' : α) : lastWriter m v slots init = lastWriter m v slots init' := by
  rw [lastWriter_eq, lastWriter_eq]
  obtain ⟨i, hi, hm⟩ := List.any_eq_true.mp h
  have hne : (slots.filter m).map v ≠ [] := by
    intro hnil
    have := List.mem_filter.mpr ⟨hi, hm⟩
    rw [List.map_eq_nil_iff.mp hnil] at this
    simp at this
  rw [List.getLast?_eq_some_getLast hne]
  rfl

theorem lastWriter_none {m : ℕ → Bool} (v : ℕ → α) {slots : List ℕ} (h : slots.any m = false)
    (init : α) : lastWriter m v slots init = init := by
  rw [lastWriter_eq, List.filter_eq_nil_iff.mpr fun i hi => by
    simpa using List.any_eq_false.mp h i hi]
  rfl

variable {m : List ℕ → ℕ → Bool} {v : List ℕ → ℕ → α}

/-- The slices folded over those already folded. -/
theorem foldlM_overwrite {done todo : List ℕ} {slices : List (NdArray Bool × NdArray α)}
    {accMask : NdArray Bool} {accVals : NdArray α} (init : List ℕ → α)
    (hmask : accMask.Holds s fun c => done.any (m c))
    (hvals : accVals.Holds s fun c => lastWriter (m c) (v c) done (init c))
    (hslices : List.Forall₂ (fun (x : NdArray Bool × NdArray α) i =>
      (x.1.Holds s fun c => m c i) ∧ x.2.Holds s fun c => v c i) slices todo) :
    ∃ acc', slices.foldlM overwrite (accMask, accVals) = .ok acc' ∧
      (acc'.1.Holds s fun c => (done ++ todo).any (m c)) ∧
      acc'.2.Holds s fun c => lastWriter (m c) (v c) (done ++ todo) (init c) := by
  induction hslices generalizing done accMask accVals with
  | nil => exact ⟨_, rfl, by simpa using hmask, by simpa using hvals⟩
  | @cons x i slices todo hx _ ih =>
    obtain ⟨vals, hwhere, hvalsHolds⟩ := where_returns_same hx.1 hx.2 hvals
    obtain ⟨mask, hor, hmaskHolds⟩ := tryBinary_returns_same (· || ·) hmask hx.1
    have hstep : overwrite (accMask, accVals) x = .ok (mask, vals) := by
      rw [overwrite, bind_ok hwhere, tryBitor, bind_ok hor]
      rfl
    have hmaskNext : mask.Holds s fun c => (done ++ [i]).any (m c) :=
      hmaskHolds.congr fun c _ => by simp
    have hvalsNext : vals.Holds s fun c => lastWriter (m c) (v c) (done ++ [i]) (init c) :=
      hvalsHolds.congr fun c _ => by simp [lastWriter]
    obtain ⟨acc', hacc', h₁, h₂⟩ := ih hmaskNext hvalsNext
    refine ⟨acc', ?_, by simpa using h₁, by simpa using h₂⟩
    rw [List.foldlM_cons, hstep]
    exact hacc'

variable {mask : NdArray Bool} {values : NdArray α} {mf : List ℕ → Bool} {axis : ℤ}

/-- An axis folded: the hits and the last value that was written. -/
theorem foldAxis_returns (hmask : mask.Holds s mf) (hvalues : values.Holds s f)
    (haxis : IsAxis axis s.length d) (hpos : 0 < s.getD d 0) :
    ∃ acc, foldAxis (mask, values) axis = .ok acc ∧
      (acc.1.Holds (s.set d 1) fun c => (List.range (s.getD d 0)).any fun i => mf (c.set d i)) ∧
      acc.2.Holds (s.set d 1) fun c => lastWriter (fun i => mf (c.set d i))
        (fun i => f (c.set d i)) (List.range (s.getD d 0)) (f (c.set d 0)) := by
  have hd := haxis.lt
  obtain ⟨maskSlices, hm, hmall⟩ := splitFrom_ones hmask hd 0 (s.getD d 0) (by omega)
  obtain ⟨valSlices, hv, hvall⟩ := splitFrom_ones hvalues hd 0 (s.getD d 0) (by omega)
  have hms : normalizeAxis axis mask.shape.length = .ok d := by rw [hmask.shape_eq]; exact haxis
  have hvs : normalizeAxis axis values.shape.length = .ok d := by
    rw [hvalues.shape_eq]
    exact haxis
  have hzip : List.Forall₂ (fun (x : NdArray Bool × NdArray α) i =>
      (x.1.Holds (s.set d 1) fun c => mf (c.set d i)) ∧
        x.2.Holds (s.set d 1) fun c => f (c.set d i))
      (maskSlices.zip valSlices) (List.range' 0 (s.getD d 0)) := by
    refine List.forall₂_iff_get.mpr ⟨by simp [hmall.length_eq, hvall.length_eq], fun i h₁ h₂ => ?_⟩
    simp only [List.get_eq_getElem, List.getElem_zip]
    exact ⟨hmall.get (by simpa [hmall.length_eq] using h₂) h₂,
      hvall.get (by simpa [hvall.length_eq] using h₂) h₂⟩
  obtain ⟨k, hk⟩ : ∃ k, s.getD d 0 = k + 1 := ⟨s.getD d 0 - 1, by omega⟩
  rw [hk, List.range'_succ] at hzip
  obtain ⟨first, rest, hfirst, hrest, hsplit⟩ := List.forall₂_cons_right_iff.mp hzip
  have hmask₀ : first.1.Holds (s.set d 1) fun c => [0].any fun i => mf (c.set d i) :=
    hfirst.1.congr fun c _ => by simp
  have hvals₀ : first.2.Holds (s.set d 1) fun c => lastWriter (fun i => mf (c.set d i))
      (fun i => f (c.set d i)) [0] (f (c.set d 0)) :=
    hfirst.2.congr fun c _ => by simp [lastWriter]
  obtain ⟨acc, hacc, h₁, h₂⟩ := foldlM_overwrite (fun c => f (c.set d 0)) hmask₀ hvals₀ hrest
  have hrange : [0] ++ List.range' (0 + 1) k = List.range (s.getD d 0) := by
    rw [hk, List.range_eq_range', List.range'_succ]
    rfl
  rw [hrange] at h₁ h₂
  refine ⟨acc, ?_, h₁, h₂⟩
  have hones : mask.shape.getD d 0 = s.getD d 0 := by rw [hmask.shape_eq]
  unfold foldAxis split
  simp only [hms, hvs]
  rw [bind_ok rfl, hones, bind_ok rfl, bind_ok hm, bind_ok rfl, bind_ok hv, hsplit]
  exact hacc

/-- No slices: the first one is indexed all the same. -/
theorem foldAxis_error (hmask : mask.Holds s mf) (hvalues : values.shape = s)
    (haxis : IsAxis axis s.length d) (hzero : s.getD d 0 = 0) :
    ∃ e, foldAxis (mask, values) axis = .error e := by
  have hms : normalizeAxis axis mask.shape.length = .ok d := by rw [hmask.shape_eq]; exact haxis
  have hvs : normalizeAxis axis values.shape.length = .ok d := by rw [hvalues]; exact haxis
  have hones : mask.shape.getD d 0 = 0 := by rw [hmask.shape_eq, hzero]
  refine ⟨.panicked "index out of bounds: the len is 0 but the index is 0", ?_⟩
  unfold foldAxis split
  simp only [hms, hvs]
  rw [bind_ok rfl, hones]
  rfl

/-! ## Scatter -/

variable {index : NdArray (TypedInt ι)} {src : NdArray α} {si ss : List ℕ}
  {idx : List ℕ → TypedInt ι} {fs : List ℕ → α} {n : ℕ}

/-- The slots of the index line through a position that name it. -/
def slotsAt (idx : List ℕ → TypedInt ι) (d n : ℕ) (c : List ℕ) : List ℕ :=
  (List.range n).filter fun k => decide ((idx (c.set d k)).val = c.getD d 0)

/-- The position with the slot axis put back at the end. -/
theorem squeeze_slots {u : NdArray α} {g : List ℕ → α} (h : u.Holds (s ++ [1]) g) :
    Returns (trySqueeze u (-1)) s fun c => g (c ++ [0]) := by
  have hlen : (s ++ [1]) = s.insertIdx s.length 1 := List.insertIdx_length_self.symm
  refine (trySqueeze_returns (le_refl _) (hlen ▸ h) (hlen ▸ isAxis_concat s 1)).congr fun c hc => ?_
  rw [← InBounds.length hc, List.insertIdx_length_self]

/-- The last writer on the slot axis, and the target where there is none. -/
theorem maskedSetitem_returns {target : NdArray α} (htarget : target.Holds s f)
    (hmask : mask.Holds (s ++ [n]) (onSlots s.length m))
    (hvalues : values.Holds (s ++ [n]) (onSlots s.length v)) (hpos : 0 < n) :
    Returns (maskedSetitem target values mask [-1]) s fun c =>
      ((((List.range n).filter (m c)).map (v c)).getLast?).getD (f c) := by
  have hdim : (s ++ [n]).getD s.length 0 = n := by simp
  have hset : (s ++ [n]).set s.length 1 = s ++ [1] := by
    rw [List.set_append_right _ _ (le_refl _), Nat.sub_self, List.set_cons_zero]
  obtain ⟨acc, hacc, h₁, h₂⟩ := foldAxis_returns hmask hvalues (isAxis_concat s n) (by rwa [hdim])
  rw [hdim, hset] at h₁ h₂
  obtain ⟨mask', hmask', hm'⟩ := squeeze_slots h₁
  obtain ⟨values', hvalues', hv'⟩ := squeeze_slots h₂
  have hslot : ∀ c, InBounds c s → ∀ k, (c ++ [0]).set s.length k = c ++ [k] := fun c hc k => by
    rw [← InBounds.length hc, List.set_append_right _ _ (le_refl _), Nat.sub_self,
      List.set_cons_zero]
  have hcall : maskedSetitem target values mask [-1] = where_ values' mask' target := by
    unfold maskedSetitem
    simp only [List.reverse_singleton, List.foldlM_cons, List.foldlM_nil, hacc, bind_pure]
    rw [bind_ok rfl]
    simp only [hmask', hvalues']
    rfl
  rw [hcall]
  refine (where_returns_same hm' hv' htarget).congr fun c hc => ?_
  have hlen := InBounds.length hc
  simp only [hslot c hc, onSlots_concat m hlen, onSlots_concat v hlen]
  rw [← lastWriter_eq (m c) (v c)]
  cases hany : (List.range n).any (m c) with
  | true =>
    rw [if_pos rfl]
    exact lastWriter_init (v c) hany _ _
  | false =>
    rw [if_neg Bool.false_ne_true, lastWriter_none (v c) hany]

theorem maskedSetitem_error (target : NdArray α) (hmask : mask.Holds (s ++ [0]) mf)
    (hvalues : values.shape = s ++ [0]) :
    ∃ e, maskedSetitem target values mask [-1] = .error e := by
  obtain ⟨e, he⟩ := foldAxis_error hmask hvalues (isAxis_concat s 0) (by simp)
  refine ⟨e, ?_⟩
  unfold maskedSetitem
  simp only [List.reverse_singleton, List.foldlM_cons, he]
  rfl

/-- The last source that names a position, and the array's own element elsewhere. -/
theorem scatter_returns [Zero α] (ht : t.Holds s f) (hindex : index.Holds si idx)
    (hsrc : src.Holds ss fs) (hshapes : ScatterShapes s si ss d) (haxis : IsAxis axis s.length d)
    (hr : s.length ≠ 63) (hn : s.getD d 0 < 2 ^ 31) (hsame : SameOffAxis s si d)
    (hpos : si.getD d 0 ≠ 0) :
    Returns (scatter t axis index src) s fun c =>
      (((slotsAt idx d (si.getD d 0) c).map fun k => fs (c.set d k)).getLast?).getD (f c) := by
  obtain ⟨srcP, maskP, hpre, hsrcP, hmaskP⟩ :=
    preScatter_returns ht.shape_eq hindex hsrc hshapes haxis hr hn hsame
  rw [scatter, bind_ok hpre]
  exact maskedSetitem_returns ht hmaskP hsrcP (Nat.pos_of_ne_zero hpos)

/-- A rank of 63, an extent whose positions are not counted, an index that is smaller off the
    axis, or one of no slots. -/
theorem scatter_error [Zero α] (ht : t.Holds s f) (hindex : index.Holds si idx)
    (hsrc : src.Holds ss fs) (hshapes : ScatterShapes s si ss d) (haxis : IsAxis axis s.length d)
    (hsize : s.getD d 0 < 2 ^ 63) (h : s.length = 63 ∨ 2 ^ 31 ≤ s.getD d 0 ∨ ¬ SameOffAxis s si d ∨
      si.getD d 0 = 0) : ∃ e, scatter t axis index src = .error e := by
  by_cases hpre : s.length = 63 ∨ 2 ^ 31 ≤ s.getD d 0 ∨ ¬ SameOffAxis s si d
  · obtain ⟨e, he⟩ := preScatter_error ht.shape_eq hindex hsrc hshapes haxis hsize hpre
    exact ⟨e, by rw [scatter, bind_error he]⟩
  · simp only [not_or, not_le, not_not] at hpre
    obtain ⟨hr, hn, hsame⟩ := hpre
    have hzero : si.getD d 0 = 0 :=
      ((h.resolve_left hr).resolve_left (not_le.mpr hn)).resolve_left (not_not.mpr hsame)
    obtain ⟨srcP, maskP, hpre, hsrcP, hmaskP⟩ :=
      preScatter_returns ht.shape_eq hindex hsrc hshapes haxis hr hn hsame
    rw [hzero] at hsrcP hmaskP
    obtain ⟨e, he⟩ := maskedSetitem_error t hmaskP hsrcP.shape_eq
    exact ⟨e, by rw [scatter, bind_ok hpre]; exact he⟩

/-! ## Folds with a fill -/

/-- A commutative operation with an identity, whose fill changes nothing when it is repeated. -/
structure FoldOp (op : α → α → α) (e fill : α) : Prop where
  comm : ∀ x y, op x y = op y x
  assoc : ∀ x y z, op (op x y) z = op x (op y z)
  identity : ∀ x, op x e = x
  repeated : op fill fill = fill

namespace FoldOp

variable {op : α → α → α} {e fill : α}

/-- The fold of the values at the hits, once more with the fill when some slot is not hit. -/
theorem foldr_fill {κ : Type} (h : FoldOp op e fill) (m : κ → Bool) (v : κ → α) (slots : List κ) :
    (slots.map fun k => if m k then v k else fill).foldr op e =
      op (((slots.filter m).map v).foldr op e) (if slots.all m then e else fill) := by
  induction slots with
  | nil => simp [h.identity]
  | cons k slots ih =>
    rw [List.map_cons, List.foldr_cons, ih]
    cases hm : m k with
    | true =>
      simp only [List.filter_cons_of_pos hm, List.map_cons, List.foldr_cons, List.all_cons, hm,
        Bool.true_and, if_true]
      rw [h.assoc]
    | false =>
      have hneg : ¬ m k = true := by simp [hm]
      simp only [List.filter_cons_of_neg hneg, List.all_cons, hm, Bool.false_and,
        Bool.false_eq_true, if_false]
      split
      · rw [h.identity, h.comm]
      · rw [h.comm, h.assoc, h.repeated]

theorem foldl_eq (h : FoldOp op e fill) (l : List α) (x : α) :
    l.foldl op x = op (l.foldr op e) x := by
  induction l generalizing x with
  | nil => rw [List.foldl_nil, List.foldr_nil, h.comm, h.identity]
  | cons y l ih => rw [List.foldl_cons, ih, List.foldr_cons, h.assoc, h.comm y, h.assoc, h.comm x y]

end FoldOp

/-- The values folded at a position: the sources that name it, and the array's own element when it
    is included or there are none. -/
def foldedValues (own : α) (includeSelf : Bool) (sources : List α) : List α :=
  if includeSelf || sources.isEmpty then own :: sources else sources

/-- The fold of the values, of which there is at least one. -/
def foldValues (op : α → α → α) (own : α) (values : List α) : α :=
  values.tail.foldl op (values.headD own)

/-- The fill is folded in too: some slot names another position, or the array's own element is left
    out and replaced by it. -/
def fillTakesPart (m : ℕ → Bool) (slots : List ℕ) (includeSelf : Bool) : Bool :=
  !slots.all m || (!includeSelf && slots.any m)

theorem FoldOp.foldValues_eq {op : α → α → α} {e fill : α} (h : FoldOp op e fill) (own : α)
    (m : ℕ → Bool) (v : ℕ → α) (slots : List ℕ) (includeSelf : Bool) :
    op ((slots.map fun k => if m k then v k else fill).foldr op e)
        (if includeSelf then own else if slots.any m then fill else own) =
      if fillTakesPart m slots includeSelf then
        op fill (foldValues op own (foldedValues own includeSelf ((slots.filter m).map v)))
      else foldValues op own (foldedValues own includeSelf ((slots.filter m).map v)) := by
  rw [h.foldr_fill]
  have hfill : ∀ x, op (op x fill) fill = op x fill := fun x => by rw [h.assoc, h.repeated]
  have hany : slots.any m = !(slots.filter m).isEmpty := by
    rw [Bool.eq_iff_iff]
    simp
  generalize hsources : slots.filter m = hit at hany ⊢
  cases includeSelf with
  | true =>
    -- the array's own element, then every source
    simp only [foldedValues, foldValues, fillTakesPart, Bool.true_or, if_true, List.tail_cons,
      List.headD_cons, Bool.not_true, Bool.false_and, Bool.or_false, h.foldl_eq]
    cases slots.all m with
    | true => simp only [if_true, Bool.not_true, Bool.false_eq_true, if_false, h.identity]
    | false =>
      simp only [Bool.false_eq_true, if_false, Bool.not_false, if_true]
      rw [h.assoc, h.comm, h.assoc, h.comm own]
  | false =>
    cases hit with
    | nil =>
      -- no source: the element stays
      simp only [List.isEmpty_nil, Bool.not_true] at hany
      simp only [foldedValues, foldValues, fillTakesPart, List.map_nil, List.isEmpty_nil,
        Bool.false_or, if_true, List.foldr_nil, List.tail_cons, List.headD_cons, List.foldl_nil,
        hany, Bool.false_eq_true, if_false, Bool.and_false, Bool.or_false]
      cases slots.all m with
      | true =>
        simp only [if_true, Bool.not_true, Bool.false_eq_true, if_false, h.identity]
        rw [h.comm, h.identity]
      | false =>
        simp only [Bool.false_eq_true, if_false, Bool.not_false, if_true]
        rw [h.comm e, h.identity]
    | cons k hit =>
      -- the fill in place of the element
      simp only [List.isEmpty_cons, Bool.not_false] at hany
      simp only [foldedValues, foldValues, fillTakesPart, List.map_cons, List.isEmpty_cons,
        Bool.false_or, Bool.false_eq_true, if_false, List.foldr_cons, List.tail_cons,
        List.headD_cons, hany, Bool.not_false, Bool.and_true, Bool.or_true, if_true, h.foldl_eq]
      rw [h.comm (v k), h.comm fill]
      cases slots.all m with
      | true => simp only [if_true, h.identity]
      | false => simp only [Bool.false_eq_true, if_false, hfill]

/-! ## Scatter with a reduction -/

namespace ScatterReduction

/-- The operation that is folded. -/
def op : ScatterReduction → TypedInt τ → TypedInt τ → TypedInt τ
  | sum => (· + ·)
  | prod => (· * ·)
  | amax => max
  | amin => min

/-- The identity of the reduction in the type. -/
def identity : ScatterReduction → TypedInt τ
  | sum => 0
  | prod => 1
  | amax => .least
  | amin => .greatest

/-- The fill of the code, a 64-bit constant in the type. -/
def fill : ScatterReduction → TypedInt τ
  | sum => 0
  | prod => 1
  | amax => .ofInt (-2 ^ 63)
  | amin => .ofInt (2 ^ 63 - 1)

theorem foldOp (reduce : ScatterReduction) :
    FoldOp (reduce.op (τ := τ)) reduce.identity reduce.fill := by
  cases reduce with
  | sum => exact ⟨add_comm, add_assoc, add_zero, add_zero 0⟩
  | prod => exact ⟨mul_comm, mul_assoc, mul_one, mul_one 1⟩
  | amax => exact ⟨max_comm, max_assoc, fun x => max_eq_left x.least_le, max_self _⟩
  | amin => exact ⟨min_comm, min_assoc, fun x => min_eq_left x.le_greatest, min_self _⟩

end ScatterReduction

theorem any_slots (hmask : mask.Holds (s ++ [n]) (onSlots s.length m)) (hr : s.length ≠ 63) :
    Returns (any mask (.single (-1))) s fun c => (List.range n).any (m c) := by
  refine (reduce_slots (· || ·) Bool.or_false hmask hr).congr fun c _ => ?_
  induction List.range n with
  | nil => rfl
  | cons k l ih => rw [List.map_cons, List.foldr_cons, ih, List.any_cons]

theorem selfOr_returns (ht : t.Holds s f) (hmask : mask.Holds (s ++ [n]) (onSlots s.length m))
    (hr : s.length ≠ 63) (includeSelf : Bool) (x : α) :
    Returns (selfOr t mask includeSelf x) s fun c =>
      if includeSelf then f c else if (List.range n).any (m c) then x else f c := by
  unfold selfOr
  cases includeSelf with
  | true => exact .ok ht
  | false =>
    simp only [Bool.false_eq_true, if_false]
    refine (any_slots hmask hr).bind fun hit hhit => ?_
    refine (tryBinary_returns_scalar (fun x y : Bool => decide (x ≠ y)) hhit true).bind
      fun noHit hnoHit => ?_
    refine (where_returns_scalar hnoHit ht x).congr fun c _ => ?_
    cases (List.range n).any (m c) <;> rfl

/-- One arm of `scatter_reduce`. -/
theorem arm_returns {op : α → α → α} {e fill : α} (hop : FoldOp op e fill)
    {merge : NdArray α → NdArray α → Except ErrorKind (NdArray α)}
    (hmerge : ∀ {a b : NdArray α} {fa fb : List ℕ → α}, a.Holds s fa → b.Holds s fb →
      Returns (merge a b) s fun c => op (fa c) (fb c))
    (ht : t.Holds s f) (hmask : mask.Holds (s ++ [n]) (onSlots s.length m))
    (hvalues : values.Holds (s ++ [n]) (onSlots s.length v)) (hr : s.length ≠ 63)
    (includeSelf : Bool) :
    Returns (do
      let masked ← where_ values mask (const fill)
      let reduced ← reduceInternal op e masked (.single (-1))
      let base ← selfOr t mask includeSelf fill
      merge reduced base) s fun c =>
        let folded := foldValues op (f c) (foldedValues (f c) includeSelf
          (((List.range n).filter (m c)).map (v c)))
        if fillTakesPart (m c) (List.range n) includeSelf then op fill folded else folded := by
  refine (where_returns_scalar hmask hvalues fill).bind fun masked hmasked => ?_
  have hmasked' : masked.Holds (s ++ [n]) (onSlots s.length fun c k =>
      if m c k then v c k else fill) := hmasked
  refine (reduce_slots op hop.identity hmasked' hr).bind fun reduced hreduced => ?_
  refine (selfOr_returns ht hmask hr includeSelf fill).bind fun base hbase => ?_
  exact (hmerge hreduced hbase).congr fun c _ => hop.foldValues_eq _ _ _ _ _

theorem minimum_returns {a b : NdArray (TypedInt τ)} {fa fb : List ℕ → TypedInt τ}
    (ha : a.Holds s fa) (hb : b.Holds s fb) :
    Returns (minimum a b) s fun c => min (fa c) (fb c) := by
  refine (tryBinary_returns_same (fun x y : TypedInt τ => decide (x < y)) ha hb).bind
    fun cond hcond => ?_
  refine (where_returns_same hcond ha hb).congr fun c _ => ?_
  rw [min_def_lt]
  simp only [decide_eq_true_eq]

section Reduce

variable {t src : NdArray (TypedInt τ)} {f fs : List ℕ → TypedInt τ}

/-- The fold of the sources that name a position, with the fill where it takes part. -/
theorem scatterReduce_returns (ht : t.Holds s f) (hindex : index.Holds si idx)
    (hsrc : src.Holds ss fs) (hshapes : ScatterShapes s si ss d) (haxis : IsAxis axis s.length d)
    (hr : s.length ≠ 63) (hn : s.getD d 0 < 2 ^ 31) (hsame : SameOffAxis s si d)
    (reduce : ScatterReduction) (includeSelf : Bool) :
    Returns (scatterReduce t axis index src reduce includeSelf) s fun c =>
      let folded := foldValues reduce.op (f c) (foldedValues (f c) includeSelf
        ((slotsAt idx d (si.getD d 0) c).map fun k => fs (c.set d k)))
      if fillTakesPart (fun k => decide ((idx (c.set d k)).val = c.getD d 0))
        (List.range (si.getD d 0)) includeSelf then reduce.op reduce.fill folded else folded := by
  obtain ⟨srcP, maskP, hpre, hsrcP, hmaskP⟩ :=
    preScatter_returns ht.shape_eq hindex hsrc hshapes haxis hr hn hsame
  rw [scatterReduce, bind_ok hpre]
  cases reduce with
  | sum =>
    exact arm_returns (ScatterReduction.foldOp .sum)
      (fun ha hb => tryBinary_returns_same (· + ·) ha hb) ht hmaskP hsrcP hr includeSelf
  | prod =>
    exact arm_returns (ScatterReduction.foldOp .prod)
      (fun ha hb => tryBinary_returns_same (· * ·) ha hb) ht hmaskP hsrcP hr includeSelf
  | amax =>
    exact arm_returns (ScatterReduction.foldOp .amax)
      (fun ha hb => tryBinary_returns_same max ha hb) ht hmaskP hsrcP hr includeSelf
  | amin =>
    exact arm_returns (ScatterReduction.foldOp .amin) minimum_returns ht hmaskP hsrcP hr includeSelf

theorem scatterReduce_error (ht : t.Holds s f) (hindex : index.Holds si idx)
    (hsrc : src.Holds ss fs) (hshapes : ScatterShapes s si ss d) (haxis : IsAxis axis s.length d)
    (hsize : s.getD d 0 < 2 ^ 63) (h : s.length = 63 ∨ 2 ^ 31 ≤ s.getD d 0 ∨ ¬ SameOffAxis s si d)
    (reduce : ScatterReduction) (includeSelf : Bool) :
    ∃ e, scatterReduce t axis index src reduce includeSelf = .error e := by
  obtain ⟨e, he⟩ := preScatter_error ht.shape_eq hindex hsrc hshapes haxis hsize h
  exact ⟨e, by rw [scatterReduce, bind_error he]⟩

end Reduce

/-! ## The definitions and where they are met -/

section Definitions

/-- Every entry of the index names a position of an axis of extent `n`. -/
def EntriesInRange (index : NdArray (TypedInt ι)) (n : ℕ) : Prop :=
  ∀ c, InBounds c index.shape → 0 ≤ (index.get c).val ∧ (index.get c).val < n

/-- The slots that name a position: their entry is its coordinate on the axis. -/
def namedBy (index : NdArray (TypedInt ι)) (d : ℕ) (c : List ℕ) : List ℕ :=
  (List.range (index.shape.getD d 0)).filter fun k =>
    decide (InBounds (c.set d k) index.shape ∧ (index.get (c.set d k)).val = c.getD d 0)

/-- The sources that name a position, in the order of the slots. -/
def sourcesAt (index : NdArray (TypedInt ι)) (src : NdArray α) (d : ℕ) (c : List ℕ) : List α :=
  (namedBy index d c).map fun k => src.get (c.set d k)

/-- Gather is the array read at the index entries. -/
def GatherMeets (t : NdArray (TypedInt τ)) (axis : ℤ) (index : NdArray (TypedInt ι)) (d : ℕ) :
    Prop :=
  Returns (gather t axis index) index.shape fun c => t.get (c.set d (index.get c).val.toNat)

/-- Scatter is the last source that names a position, the array elsewhere. -/
def ScatterMeets (t : NdArray (TypedInt τ)) (axis : ℤ) (index : NdArray (TypedInt ι))
    (src : NdArray (TypedInt τ)) (d : ℕ) : Prop :=
  Returns (scatter t axis index src) t.shape fun c =>
    (sourcesAt index src d c).getLast?.getD (t.get c)

/-- Scatter with a reduction is the fold of the values at a position. -/
def ScatterReduceMeets (t : NdArray (TypedInt τ)) (axis : ℤ) (index : NdArray (TypedInt ι))
    (src : NdArray (TypedInt τ)) (reduce : ScatterReduction) (includeSelf : Bool) (d : ℕ) : Prop :=
  Returns (scatterReduce t axis index src reduce includeSelf) t.shape fun c =>
    foldValues reduce.op (t.get c) (foldedValues (t.get c) includeSelf (sourcesAt index src d c))

/-- Where the fill takes part some folded value is past it already. -/
def FillIsHarmless (t : NdArray (TypedInt τ)) (index : NdArray (TypedInt ι))
    (src : NdArray (TypedInt τ)) (reduce : ScatterReduction) (includeSelf : Bool) (d : ℕ) : Prop :=
  ∀ c, InBounds c t.shape →
    fillTakesPart (fun k => decide ((index.get (c.set d k)).val = c.getD d 0))
      (List.range (index.shape.getD d 0)) includeSelf = true →
    ∃ v ∈ foldedValues (t.get c) includeSelf (sourcesAt index src d c),
      reduce.op reduce.fill v = v

variable {t src : NdArray (TypedInt τ)} {index : NdArray (TypedInt ι)}

theorem sourcesAt_eq (src : NdArray (TypedInt τ)) (hsame : SameOffAxis t.shape index.shape d)
    {c : List ℕ}
    (hc : InBounds c t.shape) :
    sourcesAt index src d c =
      (slotsAt index.get d (index.shape.getD d 0) c).map fun k => src.get (c.set d k) := by
  refine congrArg (List.map _) (List.filter_congr fun k hk => ?_)
  have hin : InBounds (c.set d k) index.shape := by
    rw [hsame]
    exact InBounds.set hc d (List.mem_range.mp hk)
  simp only [hin, true_and]

theorem foldedValues_ne_nil (own : α) (includeSelf : Bool) (sources : List α) :
    foldedValues own includeSelf sources ≠ [] := by
  cases sources <;> cases includeSelf <;> simp [foldedValues]

theorem le_foldl_max_iff {x v : TypedInt τ} {vs : List (TypedInt τ)} :
    x ≤ vs.foldl max v ↔ ∃ y ∈ v :: vs, x ≤ y := by
  induction vs generalizing v with
  | nil => simp
  | cons y vs ih =>
    rw [List.foldl_cons, ih]
    simp [or_assoc]

theorem foldl_min_le_iff {x v : TypedInt τ} {vs : List (TypedInt τ)} :
    vs.foldl min v ≤ x ↔ ∃ y ∈ v :: vs, y ≤ x := by
  induction vs generalizing v with
  | nil => simp
  | cons y vs ih =>
    rw [List.foldl_cons, ih]
    simp [or_assoc]

/-- The fill changes no fold that has a value past it. -/
theorem fill_absorbed_iff (reduce : ScatterReduction) (own : TypedInt τ)
    {values : List (TypedInt τ)} (hne : values ≠ []) :
    reduce.op reduce.fill (foldValues reduce.op own values) = foldValues reduce.op own values ↔
      ∃ v ∈ values, reduce.op reduce.fill v = v := by
  obtain ⟨v, vs, rfl⟩ := List.exists_cons_of_ne_nil hne
  cases reduce with
  | sum =>
    have hall : ∀ x : TypedInt τ, ScatterReduction.sum.op ScatterReduction.sum.fill x = x := zero_add
    exact iff_of_true (hall _) ⟨v, List.mem_cons_self, hall v⟩
  | prod =>
    have hall : ∀ x : TypedInt τ, ScatterReduction.prod.op ScatterReduction.prod.fill x = x :=
      one_mul
    exact iff_of_true (hall _) ⟨v, List.mem_cons_self, hall v⟩
  | amax =>
    simp only [ScatterReduction.op, foldValues, max_eq_right_iff]
    exact le_foldl_max_iff
  | amin =>
    simp only [ScatterReduction.op, foldValues, min_eq_right_iff]
    exact foldl_min_le_iff

theorem Returns.unique {x : Except ErrorKind (NdArray α)} {f g : List ℕ → α}
    (hf : Returns x s f) (hg : Returns x s g) {c : List ℕ} (hc : InBounds c s) : f c = g c := by
  obtain ⟨u, rfl, hu⟩ := hf
  obtain ⟨u', hu', hg⟩ := hg
  obtain rfl := Except.ok.inj hu'
  rw [← hu.get_eq c hc, hg.get_eq c hc]

theorem Returns.not_error {x : Except ErrorKind (NdArray α)} {f : List ℕ → α}
    (hf : Returns x s f) : ¬ ∃ e, x = .error e := by
  rintro ⟨e, he⟩
  obtain ⟨u, hu, -⟩ := hf
  rw [hu] at he
  cases he

theorem gatherMeets_iff (haxis : IsAxis axis t.shape.length d)
    (hsize : t.shape.getD d 0 < 2 ^ 63) (hshapes : GatherShapes t.shape index.shape d)
    (hrange : EntriesInRange index (t.shape.getD d 0)) :
    GatherMeets t axis index d ↔
      t.shape.length ≠ 63 ∧ t.shape.getD d 0 < 2 ^ 31 := by
  constructor
  · intro h
    by_contra hcon
    refine h.not_error (gather_error (.self t) (.self index) hshapes haxis hsize ?_)
    by_contra hor
    simp only [not_or, not_le] at hor
    exact hcon hor
  · rintro ⟨hr, hn⟩
    exact gather_returns (.self t) (.self index) hshapes haxis hrange hr hn

theorem scatterMeets_iff (haxis : IsAxis axis t.shape.length d)
    (hsize : t.shape.getD d 0 < 2 ^ 63) (hshapes : ScatterShapes t.shape index.shape src.shape d) :
    ScatterMeets t axis index src d ↔
      t.shape.length ≠ 63 ∧ t.shape.getD d 0 < 2 ^ 31 ∧
        SameOffAxis t.shape index.shape d ∧ index.shape.getD d 0 ≠ 0 := by
  constructor
  · intro h
    by_contra hcon
    refine h.not_error (scatter_error (.self t) (.self index) (.self src) hshapes haxis hsize ?_)
    by_contra hor
    simp only [not_or, not_le, not_not] at hor
    exact hcon hor
  · rintro ⟨hr, hn, hsame, hpos⟩
    refine (scatter_returns (.self t) (.self index) (.self src) hshapes haxis hr hn hsame hpos).congr
      fun c hc => ?_
    rw [sourcesAt_eq src hsame hc]

theorem scatterReduceMeets_iff (haxis : IsAxis axis t.shape.length d)
    (hsize : t.shape.getD d 0 < 2 ^ 63) (hshapes : ScatterShapes t.shape index.shape src.shape d)
    (reduce : ScatterReduction)
    (includeSelf : Bool) :
    ScatterReduceMeets t axis index src reduce includeSelf d ↔
      t.shape.length ≠ 63 ∧ t.shape.getD d 0 < 2 ^ 31 ∧
        SameOffAxis t.shape index.shape d ∧ FillIsHarmless t index src reduce includeSelf d := by
  by_cases hpre : t.shape.length ≠ 63 ∧ t.shape.getD d 0 < 2 ^ 31 ∧
      SameOffAxis t.shape index.shape d
  swap
  · refine iff_of_false (fun h => ?_) fun h => hpre ⟨h.1, h.2.1, h.2.2.1⟩
    refine h.not_error (scatterReduce_error (.self t) (.self index) (.self src) hshapes haxis hsize
      ?_ reduce includeSelf)
    by_contra hor
    simp only [not_or, not_le, not_not] at hor
    exact hpre hor
  obtain ⟨hr, hn, hsame⟩ := hpre
  have hreturns := scatterReduce_returns (.self t) (.self index) (.self src) hshapes haxis hr hn
    hsame reduce includeSelf
  constructor
  · intro h
    refine ⟨hr, hn, hsame, fun c hc hpart => ?_⟩
    have heq := hreturns.unique h hc
    simp only [hpart, if_true, ← sourcesAt_eq src hsame hc] at heq
    exact (fill_absorbed_iff reduce _ (foldedValues_ne_nil _ _ _)).mp heq
  · rintro ⟨-, -, -, hfill⟩
    refine hreturns.congr fun c hc => ?_
    simp only [← sourcesAt_eq src hsame hc]
    split
    · next hpart =>
      exact (fill_absorbed_iff reduce _ (foldedValues_ne_nil _ _ _)).mpr (hfill c hc hpart)
    · rfl

/-- Exactly where gather, scatter and the reductions meet their definitions. -/
theorem gather_scatter_meet_iff (t src : NdArray (TypedInt τ)) (index : NdArray (TypedInt ι))
    (haxis : IsAxis axis t.shape.length d)
    (hsize : t.shape.getD d 0 < 2 ^ 63) (hrange : EntriesInRange index (t.shape.getD d 0)) :
    (GatherShapes t.shape index.shape d →
      (GatherMeets t axis index d ↔
        t.shape.length ≠ 63 ∧ t.shape.getD d 0 < 2 ^ 31)) ∧
    (ScatterShapes t.shape index.shape src.shape d →
      (ScatterMeets t axis index src d ↔
        t.shape.length ≠ 63 ∧ t.shape.getD d 0 < 2 ^ 31 ∧
          SameOffAxis t.shape index.shape d ∧ index.shape.getD d 0 ≠ 0) ∧
      ∀ reduce includeSelf,
        (ScatterReduceMeets t axis index src reduce includeSelf d ↔
          t.shape.length ≠ 63 ∧ t.shape.getD d 0 < 2 ^ 31 ∧
            SameOffAxis t.shape index.shape d ∧
            FillIsHarmless t index src reduce includeSelf d)) :=
  ⟨fun hshapes => gatherMeets_iff haxis hsize hshapes hrange,
    fun hshapes => ⟨scatterMeets_iff haxis hsize hshapes,
      scatterReduceMeets_iff haxis hsize hshapes⟩⟩

end Definitions

/-- Three elements, to gather from and to scatter into. -/
def lineOf (values : List ℤ) : NdArray (TypedInt int32) :=
  ⟨[values.length], fun c => .ofInt (values.getD (c.headD 0) 0)⟩

theorem gather_scatter_meet_iff_line :
    GatherMeets (lineOf [5, 6, 7]) 0 (lineOf [2, 0]) 0 ∧
      ScatterMeets (lineOf [5, 6, 7]) 0 (lineOf [2, 0]) (lineOf [8, 9]) 0 ∧
      ScatterReduceMeets (lineOf [5, 6, 7]) 0 (lineOf [2, 0]) (lineOf [8, 9]) .sum true 0 := by
  have hrange : EntriesInRange (lineOf [2, 0]) 3 := by
    intro c hc
    obtain _ | ⟨x, _ | _⟩ := c <;> simp [lineOf] at hc
    obtain rfl | rfl : x = 0 ∨ x = 1 := by omega
    · decide
    · decide
  have hfits : ∀ e < 1, e ≠ 0 → [2].getD e 0 ≤ [3].getD e 0 := by decide
  have hshapes : ScatterShapes [3] [2] [2] 0 := ⟨⟨rfl, hfits⟩, rfl, fun e _ => le_refl _⟩
  have hfill : FillIsHarmless (lineOf [5, 6, 7]) (lineOf [2, 0]) (lineOf [8, 9]) .sum true 0 :=
    fun c _ _ => ⟨_, List.mem_cons_self, zero_add _⟩
  have haxis : IsAxis 0 (lineOf [5, 6, 7]).shape.length 0 := rfl
  obtain ⟨hgather, hscatter⟩ := gather_scatter_meet_iff (lineOf [5, 6, 7]) (lineOf [8, 9])
    (lineOf [2, 0]) haxis (by decide) hrange
  obtain ⟨hlast, hfold⟩ := hscatter hshapes
  exact ⟨(hgather hshapes.toGatherShapes).mpr (by decide), hlast.mpr (by decide),
    (hfold .sum true).mpr ⟨by decide, by decide, rfl, hfill⟩⟩

/-- An index of no slots: nothing is named, and the call panics. -/
theorem scatter_empty_index :
    EntriesInRange (lineOf []) 1 ∧
      ScatterShapes (lineOf [5]).shape (lineOf []).shape (lineOf []).shape 0 ∧
      ¬ ScatterMeets (lineOf [5]) 0 (lineOf []) (lineOf []) 0 := by
  have hshapes : ScatterShapes (lineOf [5]).shape (lineOf []).shape (lineOf []).shape 0 := by
    refine ⟨⟨rfl, fun e he hne => ?_⟩, rfl, fun e he => ?_⟩
    · have : e < 1 := he
      omega
    · obtain rfl : e = 0 := by
        have : e < 1 := he
        omega
      exact le_refl _
  refine ⟨fun c hc => ?_, hshapes, fun h => ?_⟩
  · obtain _ | ⟨x, _ | _⟩ := c <;> simp [lineOf] at hc
  · exact h.not_error (scatter_error (d := 0) (.self _) (.self _) (.self _) hshapes rfl (by decide)
      (.inr (.inr (.inr rfl))))

end Svod.Tensor.Nd
