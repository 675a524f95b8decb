/-
  Svod.Tensor.ReduceAxes

  What a reduction over several axes returns: the fold over their coordinates.

  `try_reduce_axis` moves the axes to the front, drops those of one element and
  reshapes the rest; by axis, each element of the result is the fold of the
  elements with its coordinates on the other axes.
-/

import Svod.Lib.NdFold
import Svod.Tensor.Reduce

namespace Svod.Tensor.Nd

open Svod.Lib Svod.Ir

variable {α : Type} {op : α → α → α} {e : α} {t u : NdArray α} {axes : List ℕ}

theorem tryReshape_agrees {shape : List ℕ} (h : Movement.tryReshape t shape = .ok u) :
    u.Agrees (t.reshape shape) ∧ t.shape.prod = shape.prod := by
  by_cases hprod : t.shape.prod = shape.prod
  · obtain ⟨v, hv, hagrees⟩ := Movement.tryReshape_ok t hprod
    rw [hv] at h
    cases h
    exact ⟨hagrees, hprod⟩
  · rw [Movement.tryReshape_error t hprod] at h
    cases h

theorem tryPermute_agrees (hperm : axes.Perm (List.range t.shape.length))
    (h : Movement.tryPermute t axes = .ok u) : u.Agrees (t.permute axes) := by
  by_cases hn : t.shape.length = 64
  · obtain ⟨_, herror⟩ := Movement.tryPermute_error t (hn ▸ hperm) hn
    rw [herror] at h
    cases h
  · obtain ⟨v, hv, hagrees⟩ := Movement.tryPermute_ok t hperm hn
    rw [hv] at h
    cases h
    exact hagrees

/-- Axes of one element hold no position. -/
theorem samePosition_filter (l : List ℕ) {s g : ℕ → ℕ} (p : ℕ → Bool)
    (hg : ∀ d ∈ l, g d < s d) (hp : ∀ d ∈ l, p d = false → s d = 1) :
    SamePosition (l.map s) (l.map g) ((l.filter p).map s) ((l.filter p).map g) := by
  induction l with
  | nil => exact .nil
  | cons d l ih =>
    have hrest := ih (fun x hx => hg x (List.mem_cons_of_mem d hx))
      fun x hx => hp x (List.mem_cons_of_mem d hx)
    have hd := hg d List.mem_cons_self
    cases hpd : p d with
    | true =>
      rw [List.filter_cons_of_pos hpd]
      exact (SamePosition.refl (.cons hd .nil) : SamePosition [s d] [g d] [s d] [g d]).append hrest
    | false =>
      rw [List.filter_cons_of_neg (by simp [hpd])]
      have hone := hp d List.mem_cons_self hpd
      have hunit : SamePosition [s d] [g d] [] [] := by
        rw [hone, show g d = 0 by omega]
        exact .unit
      exact hunit.append hrest

/-- The extent of an axis. -/
abbrev extent (t : NdArray α) (d : ℕ) : ℕ := t.shape.getD d 0

/-- The axes that are left. -/
abbrev keptAxes (t : NdArray α) (axes : List ℕ) : List ℕ :=
  (List.range t.shape.length).filter (· ∉ axes)

/-- The coordinates with `x` on the axes and `c` on the others. -/
def joinCoords (t : NdArray α) (axes x c : List ℕ) : List ℕ :=
  (List.range t.shape.length).map fun d =>
    if d ∈ axes then coordOf axes x d else coordOf (keptAxes t axes) c d

theorem mem_keptAxes {d : ℕ} : d ∈ keptAxes t axes ↔ d < t.shape.length ∧ d ∉ axes := by
  simp [keptAxes]

theorem keptAxes_nodup : (keptAxes t axes).Nodup := List.nodup_range.filter _

/-- The axes that are left of those left by fewer axes. -/
theorem filter_keptAxes {axes' : List ℕ} (hsub : ∀ d ∈ axes', d ∈ axes) :
    (keptAxes t axes').filter (· ∉ axes) = keptAxes t axes := by
  rw [keptAxes, List.filter_filter]
  refine List.filter_congr fun d _ => ?_
  by_cases hd : d ∈ axes
  · simp [hd]
  · have hd' : d ∉ axes' := fun h => hd (hsub d h)
    simp [hd, hd']

theorem shape_eq_map (t : NdArray α) : (List.range t.shape.length).map (extent t) = t.shape :=
  List.ext_getElem (by simp) fun k _ hk => by
    rw [List.getElem_map, List.getElem_range, extent, List.getD_eq_getElem _ _ hk]

section

variable [Std.Commutative op] [Std.Associative op] [Std.LawfulIdentity op e]

variable (op e) in
/-- The axes moved to the front and folded. -/
theorem reduceLeading_permute (hnodup : axes.Nodup) (hlt : ∀ d ∈ axes, d < t.shape.length)
    (h : Movement.tryPermute t (axes ++ keptAxes t axes) = .ok u) :
    (u.reduceLeading op e axes.length).Holds ((keptAxes t axes).map (extent t)) fun c =>
      foldCoords op e (axes.map (extent t)) fun x => t.get (joinCoords t axes x c) := by
  have hperm : (axes ++ keptAxes t axes).Perm (List.range t.shape.length) := by
    refine (List.perm_ext_iff_of_nodup (hnodup.append keptAxes_nodup fun d hd hk =>
      (mem_keptAxes.mp hk).2 hd) List.nodup_range).mpr fun d => ?_
    rw [List.mem_append, mem_keptAxes, List.mem_range]
    constructor
    · rintro (hd | hd)
      · exact hlt d hd
      · exact hd.1
    · exact fun hd => or_iff_not_imp_left.mpr fun hnot => ⟨hd, hnot⟩
  have hagrees := tryPermute_agrees hperm h
  have hshape : u.shape = axes.map (extent t) ++ (keptAxes t axes).map (extent t) := by
    rw [hagrees.shape_eq, ← List.map_append]
    rfl
  have hlen : (axes.map (extent t)).length = axes.length := by simp
  refine ⟨by rw [NdArray.reduceLeading_shape, hshape, List.drop_left' hlen], fun c hc => ?_⟩
  rw [NdArray.reduceLeading_get (by rw [hshape]; simp), hshape, List.take_left' hlen]
  refine foldCoords.congr fun x hx => ?_
  have hin : InBounds (x ++ c) (t.permute (axes ++ keptAxes t axes)).shape := by
    rw [← hagrees.shape_eq, hshape]
    exact hx.append hc
  rw [hagrees.get_eq _ hin]
  refine congrArg t.get (List.map_congr_left fun d _ => ?_)
  have hxlen : x.length = axes.length := by simpa using hx.length_eq
  split
  · rename_i hd
    exact coordOf_append_left hd hxlen
  · rename_i hd
    exact coordOf_append_right hd hxlen

omit [Std.Commutative op] [Std.Associative op] [Std.LawfulIdentity op e] in
/-- Axes of one element dropped by a reshape. -/
theorem tryReshape_drops {w : NdArray α} {F : List ℕ → α} {axes' : List ℕ}
    (hsub : ∀ d ∈ axes', d ∈ axes) (hone : ∀ d ∈ axes, d ∉ axes' → extent t d = 1)
    (hw : w.Holds ((keptAxes t axes').map (extent t)) F)
    (h : Movement.tryReshape w ((keptAxes t axes).map (extent t)) = .ok u) :
    u.Holds ((keptAxes t axes).map (extent t)) fun c =>
      F ((keptAxes t axes').map fun d => if d ∈ axes then 0 else coordOf (keptAxes t axes) c d) := by
  obtain ⟨hagrees, -⟩ := tryReshape_agrees h
  refine ⟨hagrees.shape_eq, fun c hc => ?_⟩
  have hclen : c.length = (keptAxes t axes).length := by simpa using hc.length_eq
  have hpos := samePosition_filter (keptAxes t axes') (s := extent t) (· ∉ axes)
    (g := fun d => if d ∈ axes then 0 else coordOf (keptAxes t axes) c d)
    (fun d hd => ?_) (fun d hd hp => ?_)
  · rw [filter_keptAxes hsub] at hpos
    have hself : (keptAxes t axes).map (fun d =>
        if d ∈ axes then 0 else coordOf (keptAxes t axes) c d) = c := by
      refine .trans (List.map_congr_left fun d hd => ?_) (map_coordOf keptAxes_nodup hclen)
      rw [if_neg (mem_keptAxes.mp hd).2]
    rw [hself] at hpos
    rw [hagrees.get_eq c hc]
    change w.get (unravel w.shape (ravel _ c)) = _
    rw [hw.shape_eq, hpos.unravel_eq]
    exact hw.get_eq _ hpos.inBounds
  · split
    · rename_i hmem
      have := hone d hmem (mem_keptAxes.mp hd).2
      omega
    · rename_i hmem
      exact coordOf_lt keptAxes_nodup hc (mem_keptAxes.mpr ⟨(mem_keptAxes.mp hd).1, hmem⟩)
  · exact hone d (by simpa using hp) (mem_keptAxes.mp hd).2

/-- Each element of the result is the fold over the coordinates of the axes. -/
theorem tryReduceAxis_folds (hsorted : axes.Pairwise (· < ·))
    (hlt : ∀ d ∈ axes, d < t.shape.length) (h : tryReduceAxis op e t axes = .ok u) :
    u.Holds ((keptAxes t axes).map (extent t)) fun c =>
      foldCoords op e (axes.map (extent t)) fun x => t.get (joinCoords t axes x c) := by
  have hnodup : axes.Nodup := hsorted.imp fun h => h.ne
  have hsort : axes.mergeSort (· ≤ ·) = axes :=
    List.mergeSort_of_pairwise (hsorted.imp fun h => by simpa using h.le)
  have hchecks : axes.forM (fun axis => ensure (axis < t.shape.length)
      (Ir.Error.reduceAxisInvalid axis t.shape.length)) = .ok () :=
    forM_ok fun x hx => ensure_of_true (hlt x hx) _
  have hmem : ∀ d, d ∈ axes.filter (extent t · ≠ 1) ↔ d ∈ axes ∧ extent t d ≠ 1 := fun d => by simp
  have hsub : ∀ d ∈ axes.filter (extent t · ≠ 1), d ∈ axes := fun d hd => ((hmem d).mp hd).1
  have hone : ∀ d ∈ axes, d ∉ axes.filter (extent t · ≠ 1) → extent t d = 1 := fun d hd hnot => by
    by_contra hne
    exact hnot ((hmem d).mpr ⟨hd, hne⟩)
  -- the axes of one element are read at zero
  have hdrop : ∀ c, (foldCoords op e (axes.map (extent t)) fun x => t.get (joinCoords t axes x c)) =
      foldCoords op e ((axes.filter (extent t · ≠ 1)).map (extent t)) fun y =>
        t.get (joinCoords t (axes.filter (extent t · ≠ 1)) y
          ((keptAxes t (axes.filter (extent t · ≠ 1))).map fun d =>
            if d ∈ axes then 0 else coordOf (keptAxes t axes) c d)) := fun c => by
    rw [foldCoords.drop_units hnodup]
    refine foldCoords.congr fun y _ => congrArg t.get (List.map_congr_left fun d hd => ?_)
    by_cases hda : d ∈ axes
    · rw [if_pos hda, coordOf_map hda]
      by_cases hd1 : extent t d = 1
      · have hnot : d ∉ axes.filter (extent t · ≠ 1) := fun h => ((hmem d).mp h).2 hd1
        rw [if_pos hd1, if_neg hnot,
          coordOf_map (mem_keptAxes.mpr ⟨List.mem_range.mp hd, hnot⟩), if_pos hda]
      · rw [if_neg hd1, if_pos ((hmem d).mpr ⟨hda, hd1⟩)]
    · have hnot : d ∉ axes.filter (extent t · ≠ 1) := fun h => hda (hsub d h)
      rw [if_neg hda, if_neg hnot, coordOf_map (mem_keptAxes.mpr ⟨List.mem_range.mp hd, hnot⟩),
        if_neg hda]
  unfold tryReduceAxis at h
  simp only [hsort, hchecks, bind, Except.bind] at h
  split at h
  · -- every axis has one element
    rename_i hnil
    have hkept : keptAxes t (axes.filter (extent t · ≠ 1)) = List.range t.shape.length := by
      rw [show axes.filter (extent t · ≠ 1) = [] from hnil]
      simp [keptAxes]
    have hself : t.Holds ((keptAxes t (axes.filter (extent t · ≠ 1))).map (extent t)) t.get := by
      rw [hkept, shape_eq_map]
      exact NdArray.Holds.self t
    refine (tryReshape_drops hsub hone hself h).congr fun c _ => ?_
    rw [hdrop c, show axes.filter (extent t · ≠ 1) = [] from hnil, List.map_nil, foldCoords.nil]
    refine congrArg t.get (.symm ?_)
    simp only [joinCoords, List.not_mem_nil, if_false]
    rw [show axes.filter (extent t · ≠ 1) = [] from hnil] at hkept
    rw [← hkept]
    exact map_coordOf keptAxes_nodup (by simp)
  · split at h
    · cases h
    · rename_i hpermuted
      have hreduced := reduceLeading_permute op e (hnodup.filter _)
        (fun d hd => hlt d (hsub d hd)) hpermuted
      split at h
      · -- no axis has one element
        rename_i heq
        cases h
        rwa [← heq] at hreduced ⊢
      · exact (tryReshape_drops hsub hone hreduced h).congr fun c _ => (hdrop c).symm

/-! ## The leading axes, and the last -/

variable {s : List ℕ} {f : List ℕ → α}

/-- Coordinates on two groups of axes that follow each other. -/
theorem map_join {l l' x c : List ℕ} (hl : l.Nodup) (hl' : l'.Nodup) (hdisjoint : ∀ d ∈ l', d ∉ l)
    (hx : x.length = l.length) (hc : c.length = l'.length) :
    (l ++ l').map (fun d => if d ∈ l then coordOf l x d else coordOf l' c d) = x ++ c := by
  rw [List.map_append]
  refine congrArg₂ (· ++ ·) ?_ ?_
  · refine .trans (List.map_congr_left fun d hd => ?_) (map_coordOf hl hx)
    rw [if_pos hd]
  · refine .trans (List.map_congr_left fun d hd => ?_) (map_coordOf hl' hc)
    rw [if_neg (hdisjoint d hd)]

omit [Std.Commutative op] [Std.Associative op] [Std.LawfulIdentity op e] in
theorem map_extent_eq {l l' : List ℕ} (h : List.range t.shape.length = l ++ l') :
    l.map (extent t) = t.shape.take l.length ∧ l'.map (extent t) = t.shape.drop l.length := by
  have hshape := shape_eq_map t
  rw [h, List.map_append] at hshape
  have hlen : (l.map (extent t)).length = l.length := by simp
  exact ⟨(List.take_left' hlen).symm.trans (congrArg _ hshape),
    (List.drop_left' hlen).symm.trans (congrArg _ hshape)⟩

/-- A fold over the leading axes. -/
theorem tryReduceAxis_leading {m : ℕ} (hm : m ≤ s.length) (ht : t.Holds s f)
    (h : tryReduceAxis op e t (List.range m) = .ok u) :
    u.Holds (s.drop m) fun c => foldCoords op e (s.take m) fun x => f (x ++ c) := by
  have hs := ht.shape_eq
  subst hs
  obtain ⟨k, hk⟩ : ∃ k, t.shape.length = m + k := ⟨t.shape.length - m, by omega⟩
  have hrange : List.range t.shape.length = List.range m ++ (List.range k).map (m + ·) := by
    rw [hk, List.range_add]
  have hdisjoint : ∀ d ∈ (List.range k).map (m + ·), d ∉ List.range m := fun d hd => by
    obtain ⟨i, -, rfl⟩ := List.mem_map.mp hd
    simp
  have hkept : keptAxes t (List.range m) = (List.range k).map (m + ·) := by
    rw [keptAxes, hrange, List.filter_append, List.filter_eq_nil_iff.mpr (by simp),
      List.filter_eq_self.mpr fun d hd => by simpa using hdisjoint d hd, List.nil_append]
  obtain ⟨htake, hdrop⟩ := map_extent_eq hrange
  rw [List.length_range] at htake hdrop
  have hfolds := tryReduceAxis_folds List.pairwise_lt_range
    (fun d hd => (List.mem_range.mp hd).trans_le hm) h
  rw [hkept, hdrop, htake] at hfolds
  refine hfolds.congr fun c hc => foldCoords.congr fun x hx => ?_
  have hjoin : joinCoords t (List.range m) x c = x ++ c := by
    rw [joinCoords, hkept, hrange]
    refine map_join List.nodup_range (List.nodup_range.map (add_right_injective m)) hdisjoint
      ?_ ?_
    · rw [hx.length_eq, List.length_take, List.length_range]
      omega
    · rw [hc.length_eq, List.length_drop, List.length_map, List.length_range]
      omega
  rw [hjoin]
  refine ht.get_eq _ ?_
  rw [← List.take_append_drop m t.shape]
  exact hx.append hc

/-- A fold over the last axis. -/
theorem tryReduceAxis_last {n : ℕ} (ht : t.Holds (s ++ [n]) f)
    (h : tryReduceAxis op e t [s.length] = .ok u) :
    u.Holds s fun c => foldCoords op e [n] fun x => f (c ++ x) := by
  have hs := ht.shape_eq
  have hlen : t.shape.length = s.length + 1 := by rw [hs, List.length_append]; rfl
  have hrange : List.range t.shape.length = List.range s.length ++ [s.length] := by
    rw [hlen, List.range_succ]
  have hkept : keptAxes t [s.length] = List.range s.length := by
    rw [keptAxes, hrange, List.filter_append, List.filter_eq_self.mpr, List.filter_eq_nil_iff.mpr,
      List.append_nil]
    · simp
    · intro d hd
      have hlt := List.mem_range.mp hd
      simp only [List.mem_singleton, decide_eq_true_eq]
      omega
  obtain ⟨htake, hdrop⟩ := map_extent_eq hrange
  rw [List.length_range, hs] at htake hdrop
  rw [List.take_left' rfl] at htake
  rw [List.drop_left' rfl] at hdrop
  have hfolds := tryReduceAxis_folds (List.pairwise_singleton _ _)
    (fun d hd => by rw [List.mem_singleton.mp hd, hlen]; exact Nat.lt_succ_self _) h
  rw [hkept, htake, hdrop] at hfolds
  refine hfolds.congr fun c hc => foldCoords.congr fun x hx => ?_
  have hjoin : joinCoords t [s.length] x c = c ++ x := by
    rw [joinCoords, hkept, hrange, ← map_join (l := List.range s.length)
      List.nodup_range (List.nodup_singleton s.length) (fun d hd => by simp [List.mem_singleton.mp hd])
      (by rw [hc.length_eq, List.length_range]) hx.length_eq]
    refine List.map_congr_left fun d hd => ?_
    by_cases hd' : d ∈ List.range s.length
    · have hlt := List.mem_range.mp hd'
      rw [if_pos hd', if_neg (by simp only [List.mem_singleton]; omega)]
    · rw [if_neg hd', if_pos ((List.mem_append.mp hd).resolve_left hd')]
  rw [hjoin]
  exact ht.get_eq _ (hc.append hx)

end

end Svod.Tensor.Nd
