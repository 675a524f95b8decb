/-
  Svod.Lib.AxisOrder

  Orders of the axes of an array and their inverses.

  An order lists every axis once.  Permuting by an order and then by its inverse,
  or the other way round, gives the array back; so does a reshape and the reshape
  to the old shape.
-/

import Mathlib.Data.List.Perm.Subperm
import Svod.Lib.NdCoords

namespace Svod.Lib

/-! ## Inverse orders -/

/-- `q` names the place in `p` of each of the axes below `n`. -/
structure InverseOrder (p q : List ℕ) (n : ℕ) : Prop where
  length_left : p.length = n
  length_right : q.length = n
  right_lt : ∀ i < n, q.getD i 0 < n
  left_right : ∀ i < n, p.getD (q.getD i 0) 0 = i

namespace InverseOrder

variable {p q : List ℕ} {n : ℕ}

/-- Entries taken along one order and then along the other are the entries. -/
theorem map_map (h : InverseOrder p q n) {l : List ℕ} (hl : l.length = n) :
    q.map ((p.map (l.getD · 0)).getD · 0) = l := by
  refine List.ext_getElem (by rw [List.length_map, h.length_right, hl]) fun i h₁ h₂ => ?_
  have hi : i < q.length := by simpa using h₁
  have hlt := h.right_lt i (hl ▸ h₂)
  have hback := h.left_right i (hl ▸ h₂)
  rw [List.getD_eq_getElem _ _ hi] at hlt hback
  rw [List.getD_eq_getElem _ _ (h.length_left.symm ▸ hlt)] at hback
  rw [List.getElem_map, List.getD_eq_getElem _ _ (by simpa [h.length_left] using hlt),
    List.getElem_map, hback, List.getD_eq_getElem _ _ h₂]

/-- An order of which another names the places lists every axis once. -/
theorem perm_right (h : InverseOrder p q n) : q.Perm (List.range n) := by
  have hnodup : q.Nodup := by
    refine List.nodup_iff_injective_get.mpr fun i j hij => Fin.ext ?_
    have hi := h.left_right i (h.length_right ▸ i.2)
    have hj := h.left_right j (h.length_right ▸ j.2)
    rw [List.getD_eq_getElem q _ i.2] at hi
    rw [List.getD_eq_getElem q _ j.2] at hj
    rw [List.get_eq_getElem, List.get_eq_getElem] at hij
    rw [← hi, ← hj, hij]
  have hsubset : q ⊆ List.range n := by
    intro a ha
    obtain ⟨i, hi, rfl⟩ := List.getElem_of_mem ha
    have hlt := h.right_lt i (h.length_right ▸ hi)
    rw [List.getD_eq_getElem _ _ hi] at hlt
    exact List.mem_range.mpr hlt
  refine (hnodup.subperm hsubset).perm_of_length_le ?_
  rw [List.length_range, h.length_right]

end InverseOrder

/-! ## The inverse of an order, filled in entry by entry -/

/-- The entry of each axis is its place in the order. -/
def invert (order : List ℕ) : List ℕ :=
  order.zipIdx.foldl (fun inverse p => inverse.set p.1 p.2) (List.replicate order.length 0)

theorem length_foldl_set (entries : List (ℕ × ℕ)) (table : List ℕ) :
    (entries.foldl (fun inverse p => inverse.set p.1 p.2) table).length = table.length := by
  induction entries generalizing table with
  | nil => rfl
  | cons p entries ih => rw [List.foldl_cons, ih, List.length_set]

/-- What the table holds after the entries of `order` from place `k` on. -/
theorem getElem?_foldl_set {order : List ℕ} (hnodup : order.Nodup) (k : ℕ)
    (table : List ℕ) {a : ℕ} (ha : a < table.length) :
    ((order.zipIdx k).foldl (fun inverse p => inverse.set p.1 p.2) table)[a]? =
      if a ∈ order then some (k + order.idxOf a) else table[a]? := by
  induction order generalizing k table with
  | nil => simp
  | cons b order ih =>
    obtain ⟨hb, hnodup⟩ := List.nodup_cons.mp hnodup
    rw [List.zipIdx_cons, List.foldl_cons, ih hnodup (k + 1) _ (by simpa using ha)]
    by_cases hab : a = b
    · -- a later entry is of another axis
      subst hab
      rw [if_neg hb, if_pos List.mem_cons_self, List.getElem?_set_self ha, List.idxOf_cons_self]
      rfl
    · have hmem : a ∈ b :: order ↔ a ∈ order := by simp [hab]
      by_cases hin : a ∈ order
      · rw [if_pos hin, if_pos (hmem.mpr hin), List.idxOf_cons_ne _ (Ne.symm hab)]
        congr 1
        omega
      · rw [if_neg hin, if_neg (mt hmem.mp hin), List.getElem?_set_ne (Ne.symm hab)]

section Invert

variable {order : List ℕ} {n : ℕ}

theorem getD_invert (h : order.Perm (List.range n)) {a : ℕ} (ha : a < n) :
    (invert order).getD a 0 = order.idxOf a := by
  have hlen : order.length = n := by simpa using h.length_eq
  have hget := getElem?_foldl_set (h.nodup_iff.mpr List.nodup_range) 0
    (List.replicate order.length 0) (a := a) (by simpa [hlen] using ha)
  rw [if_pos (h.mem_iff.mpr (List.mem_range.mpr ha)), Nat.zero_add] at hget
  rw [invert, List.getD_eq_getElem?_getD, hget, Option.getD_some]

theorem length_invert (order : List ℕ) : (invert order).length = order.length := by
  rw [invert, length_foldl_set, List.length_replicate]

/-- The inverse names the places of the order. -/
theorem inverseOrder_invert (h : order.Perm (List.range n)) :
    InverseOrder order (invert order) n := by
  have hlen : order.length = n := by simpa using h.length_eq
  have hmem : ∀ i < n, i ∈ order := fun i hi => h.mem_iff.mpr (List.mem_range.mpr hi)
  refine ⟨hlen, (length_invert order).trans hlen, fun i hi => ?_, fun i hi => ?_⟩
  · rw [getD_invert h hi, ← hlen]
    exact List.idxOf_lt_length_of_mem (hmem i hi)
  · have hidx := List.idxOf_lt_length_of_mem (hmem i hi)
    rw [getD_invert h hi, List.getD_eq_getElem _ _ hidx, List.getElem_idxOf]

/-- The order names the places of the inverse. -/
theorem invert_inverseOrder (h : order.Perm (List.range n)) :
    InverseOrder (invert order) order n := by
  have hlen : order.length = n := by simpa using h.length_eq
  have hlt : ∀ i < n, order.getD i 0 < n := by
    intro i hi
    rw [List.getD_eq_getElem _ _ (hlen.symm ▸ hi)]
    exact List.mem_range.mp (h.mem_iff.mp (List.getElem_mem _))
  refine ⟨(length_invert order).trans hlen, hlen, hlt, fun i hi => ?_⟩
  have hi' : i < order.length := hlen.symm ▸ hi
  rw [getD_invert h (hlt i hi), List.getD_eq_getElem _ _ hi']
  exact (h.nodup_iff.mpr List.nodup_range).idxOf_getElem i hi'

/-- Some axes put behind the others, all in an order. -/
theorem filter_append_perm {tail : List ℕ} (hnodup : tail.Nodup) (hlt : ∀ p ∈ tail, p < n) :
    ((List.range n).filter (· ∉ tail) ++ tail).Perm (List.range n) := by
  have hmem : ((List.range n).filter (· ∈ tail)).Perm tail := by
    refine (List.perm_ext_iff_of_nodup (List.nodup_range.filter _) hnodup).mpr fun p => ?_
    simp only [List.mem_filter, List.mem_range, decide_eq_true_eq, and_iff_right_iff_imp]
    exact hlt p
  have hsplit := List.filter_append_perm (fun p => decide (p ∉ tail)) (List.range n)
  simp only [decide_not, Bool.not_not] at hsplit
  simp only [decide_not]
  exact (List.Perm.append_left _ hmem.symm).trans hsplit

end Invert

/-! ## Arrays -/

namespace NdArray

variable {α : Type*} {a b : NdArray α}

theorem Agrees.reshape (h : a.Agrees b) {shape : List ℕ} (hprod : b.shape.prod = shape.prod) :
    (a.reshape shape).Agrees (b.reshape shape) := by
  refine ⟨rfl, fun c hc => ?_⟩
  have hlt : ravel shape c < b.shape.prod := hprod ▸ ravel_lt hc
  show a.get (unravel a.shape (ravel shape c)) = b.get (unravel b.shape (ravel shape c))
  rw [h.shape_eq]
  exact h.get_eq _ (unravel_inBounds hlt)

/-- A reshape is undone by the reshape to the old shape. -/
theorem reshape_reshape (t : NdArray α) {shape : List ℕ} (h : t.shape.prod = shape.prod) :
    ((t.reshape shape).reshape t.shape).Agrees t := by
  refine ⟨rfl, fun c hc => ?_⟩
  have hlt : ravel t.shape c < shape.prod := h ▸ ravel_lt hc
  show t.get (unravel t.shape (ravel shape (unravel shape (ravel t.shape c)))) = t.get c
  rw [ravel_unravel hlt, unravel_ravel hc]

theorem map_getD_inBounds (axes : List ℕ) {c s : List ℕ} (hc : InBounds c s)
    (h : ∀ d ∈ axes, d < s.length) :
    InBounds (axes.map (c.getD · 0)) (axes.map (s.getD · 0)) := by
  induction axes with
  | nil => exact .nil
  | cons d axes ih =>
    exact .cons (hc.getD_lt (h d List.mem_cons_self))
      (ih fun e he => h e (List.mem_cons_of_mem _ he))

theorem Agrees.permute (h : a.Agrees b) {axes : List ℕ}
    (hperm : axes.Perm (List.range b.shape.length)) :
    (a.permute axes).Agrees (b.permute axes) := by
  have hshape : (a.permute axes).shape = (b.permute axes).shape := by
    rw [NdArray.permute, NdArray.permute, h.shape_eq]
  refine ⟨hshape, fun c hc => ?_⟩
  -- the coordinates before the permutation
  have hinv := inverseOrder_invert hperm
  have hinv' := invert_inverseOrder hperm
  have hclen : c.length = b.shape.length := by
    rw [hc.length_eq, NdArray.permute, List.length_map, hinv.length_left]
  have hback : axes.map (((invert axes).map (c.getD · 0)).getD · 0) = c := hinv'.map_map hclen
  have hin : InBounds ((invert axes).map (c.getD · 0)) b.shape := by
    have hmap : (invert axes).map ((axes.map (b.shape.getD · 0)).getD · 0) = b.shape :=
      hinv.map_map rfl
    have := map_getD_inBounds (invert axes) hc fun d hd => by
      rw [NdArray.permute, List.length_map, hinv.length_left]
      exact List.mem_range.mp (hinv.perm_right.mem_iff.mp hd)
    rwa [NdArray.permute, hmap] at this
  rw [← hback, b.permute_get hperm hin.length_eq,
    a.permute_get (h.shape_eq.symm ▸ hperm) (h.shape_eq.symm ▸ hin.length_eq)]
  exact h.get_eq _ hin

/-- A permutation is undone by its inverse. -/
theorem permute_permute (t : NdArray α) {p q : List ℕ} (h : InverseOrder p q t.shape.length)
    (hp : p.Perm (List.range t.shape.length)) : ((t.permute p).permute q).Agrees t := by
  have hshape : ((t.permute p).permute q).shape = t.shape := h.map_map rfl
  refine ⟨hshape, fun c hc => ?_⟩
  have hlen : c.length = t.shape.length := hc.length_eq
  have hrank : (t.permute p).shape.length = t.shape.length := by
    rw [NdArray.permute, List.length_map, h.length_left]
  have hmap := h.map_map hlen
  have hlen' : (p.map (c.getD · 0)).length = (t.permute p).shape.length := by
    rw [List.length_map, h.length_left, hrank]
  have houter := (t.permute p).permute_get (hrank.symm ▸ h.perm_right) hlen'
  rw [hmap] at houter
  rw [houter, t.permute_get hp hlen]

end NdArray

end Svod.Lib
