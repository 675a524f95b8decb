/-
  Svod.Lib.NdFold

  The fold of a function over the coordinates of a shape, by a commutative monoid.

  The coordinates come in row-major order, but the order does not matter: a fold is
  the same along any bijection of coordinates, and a fold over several axes is a
  fold of folds.
-/

import Svod.Lib.NdCoords

namespace Svod.Lib

variable {α : Type} {op : α → α → α} {e : α}

/-- The fold of `f` over the coordinates inside the shape. -/
def foldCoords (op : α → α → α) (e : α) (s : List ℕ) (f : List ℕ → α) : α :=
  ((coords s).map f).foldr op e

namespace foldCoords

theorem congr {s : List ℕ} {f g : List ℕ → α} (h : ∀ c, InBounds c s → f c = g c) :
    foldCoords op e s f = foldCoords op e s g :=
  congrArg (List.foldr op e) (List.map_congr_left fun c hc => h c (mem_coords.mp hc))

section

variable [Std.Commutative op] [Std.Associative op]

theorem foldr_perm {l₁ l₂ : List α} (h : l₁.Perm l₂) : l₁.foldr op e = l₂.foldr op e := by
  have hassoc : ∀ a b c, op (op a b) c = op a (op b c) := Std.Associative.assoc
  have hcomm : ∀ a b, op a b = op b a := Std.Commutative.comm
  exact h.foldr_eq' (fun x _ y _ z => by rw [← hassoc, hcomm y x, hassoc]) e

/-- Along a bijection of the coordinates of two shapes. -/
theorem reindex {s s' : List ℕ} (φ ψ : List ℕ → List ℕ) (f : List ℕ → α)
    (hφ : ∀ x, InBounds x s → InBounds (φ x) s') (hψ : ∀ y, InBounds y s' → InBounds (ψ y) s)
    (hψφ : ∀ x, InBounds x s → ψ (φ x) = x) (hφψ : ∀ y, InBounds y s' → φ (ψ y) = y) :
    foldCoords op e s (fun x => f (φ x)) = foldCoords op e s' f := by
  have hnodup : ((coords s).map φ).Nodup := by
    refine (List.nodup_map_iff_inj_on (coords_nodup s)).mpr fun x hx y hy hxy => ?_
    rw [← hψφ x (mem_coords.mp hx), hxy, hψφ y (mem_coords.mp hy)]
  have hperm : ((coords s).map φ).Perm (coords s') := by
    refine (List.perm_ext_iff_of_nodup hnodup (coords_nodup s')).mpr fun y => ?_
    rw [mem_coords]
    constructor
    · intro hy
      obtain ⟨x, hx, rfl⟩ := List.mem_map.mp hy
      exact hφ x (mem_coords.mp hx)
    · exact fun hy => List.mem_map.mpr ⟨ψ y, mem_coords.mpr (hψ y hy), hφψ y hy⟩
  have hmap : (coords s).map (fun x => f (φ x)) = ((coords s).map φ).map f := by
    rw [List.map_map]
    rfl
  unfold foldCoords
  rw [hmap]
  exact foldr_perm (hperm.map f)

variable (op e) in
/-- Shapes of one size are folded over alike. -/
theorem regrid {s s' : List ℕ} (h : s.prod = s'.prod) (f : List ℕ → α) :
    foldCoords op e s' (fun c => f (unravel s (ravel s' c))) = foldCoords op e s f :=
  reindex (fun c => unravel s (ravel s' c)) (fun c => unravel s' (ravel s c)) f
    (fun _ hc => unravel_inBounds (h ▸ ravel_lt hc)) (fun _ hc => unravel_inBounds (h ▸ ravel_lt hc))
    (fun _ hc => by rw [ravel_unravel (h ▸ ravel_lt hc), unravel_ravel hc])
    (fun _ hc => by rw [ravel_unravel (h ▸ ravel_lt hc), unravel_ravel hc])

end

section

variable [Std.LawfulIdentity op e]

@[simp] theorem nil (f : List ℕ → α) : foldCoords op e [] f = f [] :=
  (Std.LawfulRightIdentity.right_id (f []) : op (f []) e = f [])

variable [Std.Associative op]

theorem foldr_append (l₁ l₂ : List α) :
    (l₁ ++ l₂).foldr op e = op (l₁.foldr op e) (l₂.foldr op e) := by
  induction l₁ with
  | nil => exact (Std.LawfulLeftIdentity.left_id _ : op e (l₂.foldr op e) = _).symm
  | cons x l₁ ih =>
    have hassoc : ∀ a b c, op (op a b) c = op a (op b c) := Std.Associative.assoc
    rw [List.cons_append, List.foldr_cons, ih, List.foldr_cons, hassoc]

theorem foldr_flatMap {β : Type} (l : List β) (f : β → List α) :
    (l.flatMap f).foldr op e = (l.map fun x => (f x).foldr op e).foldr op e := by
  induction l with
  | nil => rfl
  | cons x l ih => rw [List.flatMap_cons, foldr_append, ih, List.map_cons, List.foldr_cons]

variable [Std.Commutative op]

theorem coords_cons_perm (n : ℕ) (s : List ℕ) :
    (coords (n :: s)).Perm ((List.range n).flatMap fun x => (coords s).map (x :: ·)) := by
  refine (List.perm_ext_iff_of_nodup (coords_nodup _) ?_).mpr fun c => ?_
  · refine List.nodup_flatMap.mpr ⟨fun x _ => (coords_nodup s).map (List.cons_injective), ?_⟩
    refine List.nodup_range.pairwise_of_forall_ne fun x _ y _ hxy => ?_
    refine List.disjoint_left.mpr fun c hx hy => hxy ?_
    obtain ⟨_, -, rfl⟩ := List.mem_map.mp hx
    obtain ⟨_, -, hcons⟩ := List.mem_map.mp hy
    exact (List.cons.inj hcons).1.symm
  · rw [mem_coords, List.mem_flatMap]
    constructor
    · intro hc
      cases hc with
      | cons hx hc => exact ⟨_, List.mem_range.mpr hx, List.mem_map.mpr ⟨_, mem_coords.mpr hc, rfl⟩⟩
    · rintro ⟨x, hx, hmem⟩
      obtain ⟨c, hc, rfl⟩ := List.mem_map.mp hmem
      exact .cons (List.mem_range.mp hx) (mem_coords.mp hc)

/-- The first axis is folded last. -/
theorem cons (n : ℕ) (s : List ℕ) (f : List ℕ → α) :
    foldCoords op e (n :: s) f =
      ((List.range n).map fun x => foldCoords op e s fun c => f (x :: c)).foldr op e := by
  unfold foldCoords
  rw [foldr_perm ((coords_cons_perm n s).map f), List.map_flatMap, foldr_flatMap]
  simp only [List.map_map]
  rfl

/-- A fold over two groups of axes. -/
theorem append (s s' : List ℕ) (f : List ℕ → α) :
    foldCoords op e (s ++ s') f =
      foldCoords op e s fun x => foldCoords op e s' fun y => f (x ++ y) := by
  induction s generalizing f with
  | nil => rw [nil]; rfl
  | cons n s ih =>
    rw [List.cons_append, cons, cons]
    simp only [ih]
    rfl

/-- Two groups of axes in either order. -/
theorem swap (s s' : List ℕ) (f : List ℕ → List ℕ → α) :
    (foldCoords op e s fun x => foldCoords op e s' fun y => f x y) =
      foldCoords op e s' fun y => foldCoords op e s fun x => f x y := by
  have hleft : (foldCoords op e s fun x => foldCoords op e s' fun y => f x y) =
      foldCoords op e (s ++ s') fun c => f (c.take s.length) (c.drop s.length) := by
    rw [append]
    refine congr fun x hx => congr fun y _ => ?_
    rw [List.take_left' hx.length_eq, List.drop_left' hx.length_eq]
  have hright : (foldCoords op e s' fun y => foldCoords op e s fun x => f x y) =
      foldCoords op e (s' ++ s) fun c => f (c.drop s'.length) (c.take s'.length) := by
    rw [append]
    refine congr fun y hy => congr fun x _ => ?_
    rw [List.take_left' hy.length_eq, List.drop_left' hy.length_eq]
  rw [hleft, hright]
  refine .trans (congr fun c hc => ?_) (reindex (fun c => c.drop s.length ++ c.take s.length)
    (fun c => c.drop s'.length ++ c.take s'.length)
    (fun c => f (c.drop s'.length) (c.take s'.length)) ?_ ?_ ?_ ?_)
  · obtain ⟨x, y, rfl, hx, hy⟩ := hc.split
    rw [List.drop_left' hx.length_eq, List.take_left' hx.length_eq, List.drop_left' hy.length_eq,
      List.take_left' hy.length_eq]
  all_goals
    intro c hc
    obtain ⟨x, y, rfl, hx, hy⟩ := hc.split
    rw [List.drop_left' hx.length_eq, List.take_left' hx.length_eq]
  · exact hy.append hx
  · exact hy.append hx
  · rw [List.drop_left' hy.length_eq, List.take_left' hy.length_eq]
  · rw [List.drop_left' hy.length_eq, List.take_left' hy.length_eq]

end

end foldCoords

/-! ## Coordinates by axis -/

/-- The coordinate of the axis `d` among the coordinates `x` of the axes `l`. -/
def coordOf (l x : List ℕ) (d : ℕ) : ℕ := x.getD (l.idxOf d) 0

variable {l l' : List ℕ} {d : ℕ}

theorem coordOf_map (hd : d ∈ l) (g : ℕ → ℕ) : coordOf l (l.map g) d = g d := by
  have hlt := List.idxOf_lt_length_of_mem hd
  rw [coordOf, List.getD_eq_getElem _ _ (by simpa using hlt), List.getElem_map,
    List.getElem_idxOf]

theorem map_coordOf (hl : l.Nodup) {x : List ℕ} (hx : x.length = l.length) :
    l.map (coordOf l x) = x := by
  refine List.ext_getElem (by simp [hx]) fun i hi hi' => ?_
  rw [List.getElem_map, coordOf, hl.idxOf_getElem, List.getD_eq_getElem _ _ hi']

theorem coordOf_append_left (hd : d ∈ l) {x y : List ℕ} (hx : x.length = l.length) :
    coordOf (l ++ l') (x ++ y) d = coordOf l x d := by
  have hlt := List.idxOf_lt_length_of_mem hd
  rw [coordOf, List.idxOf_append_of_mem hd, List.getD_append _ _ _ _ (by omega), coordOf]

theorem coordOf_append_right (hd : d ∉ l) {x y : List ℕ} (hx : x.length = l.length) :
    coordOf (l ++ l') (x ++ y) d = coordOf l' y d := by
  rw [coordOf, List.idxOf_append_of_notMem hd, ← hx, List.getD_append_right _ _ _ _ (by omega),
    Nat.add_sub_cancel_left, coordOf]

/-- Coordinates inside the extents of some axes. -/
theorem inBounds_map_iff {g s : ℕ → ℕ} : InBounds (l.map g) (l.map s) ↔ ∀ d ∈ l, g d < s d := by
  rw [InBounds, List.forall₂_map_left_iff, List.forall₂_map_right_iff, List.forall₂_same]

theorem coordOf_lt (hl : l.Nodup) {x : List ℕ} {s : ℕ → ℕ} (hx : InBounds x (l.map s))
    (hd : d ∈ l) : coordOf l x d < s d := by
  have hlen : x.length = l.length := by simpa using hx.length_eq
  rw [← map_coordOf hl hlen] at hx
  exact inBounds_map_iff.mp hx d hd

/-- Axes of one element need no folding. -/
theorem foldCoords.drop_units [Std.Commutative op] [Std.Associative op] (hl : l.Nodup) (s : ℕ → ℕ)
    (f : List ℕ → α) :
    foldCoords op e (l.map s) f = foldCoords op e ((l.filter (s · ≠ 1)).map s) fun y =>
      f (l.map fun d => if s d = 1 then 0 else coordOf (l.filter (s · ≠ 1)) y d) := by
  have hnodup := hl.filter (s · ≠ 1)
  have hmem : ∀ d, d ∈ l.filter (s · ≠ 1) ↔ d ∈ l ∧ s d ≠ 1 := fun d => by simp
  symm
  refine foldCoords.reindex (fun y => l.map fun d => if s d = 1 then 0 else
    coordOf (l.filter (s · ≠ 1)) y d) (fun x => (l.filter (s · ≠ 1)).map (coordOf l x)) f
    (fun y hy => inBounds_map_iff.mpr fun d hd => ?_) (fun x hx => inBounds_map_iff.mpr fun d hd => ?_)
    (fun y hy => ?_) fun x hx => ?_
  · split
    · omega
    · rename_i hone
      exact coordOf_lt hnodup hy ((hmem d).mpr ⟨hd, hone⟩)
  · exact coordOf_lt hl hx ((hmem d).mp hd).1
  · refine .trans (List.map_congr_left fun d hd => ?_)
      (map_coordOf hnodup (by simpa using hy.length_eq))
    rw [coordOf_map ((hmem d).mp hd).1, if_neg ((hmem d).mp hd).2]
  · refine .trans (List.map_congr_left fun d hd => ?_) (map_coordOf hl (by simpa using hx.length_eq))
    have hlt := coordOf_lt hl hx hd
    split
    · omega
    · rename_i hone
      rw [coordOf_map ((hmem d).mpr ⟨hd, hone⟩)]

/-- The leading axes folded over. -/
theorem NdArray.reduceLeading_get [Std.Commutative op] [Std.Associative op]
    [Std.LawfulIdentity op e] {n : ℕ} {t : NdArray α} (hn : n ≤ t.shape.length) (c : List ℕ) :
    (t.reduceLeading op e n).get c = foldCoords op e (t.shape.take n) fun x => t.get (x ++ c) := by
  induction n generalizing t c with
  | zero => simp [NdArray.reduceLeading]
  | succ n ih =>
    obtain ⟨shape, get⟩ := t
    cases shape with
    | nil => cases hn
    | cons m shape =>
      rw [List.take_succ_cons, foldCoords.cons]
      refine congrArg (List.foldr op e) (List.map_congr_left fun x _ => ?_)
      exact ih (t := ⟨shape, fun c => get (x :: c)⟩) (Nat.le_of_succ_le_succ hn) c

end Svod.Lib
