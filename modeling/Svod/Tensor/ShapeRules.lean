/-
  Svod.Tensor.ShapeRules

  Rules for chains of shape operations.

  `Returns` says that a computation succeeds with an array of a shape and of the
  elements of a function.  Each operation has one rule that changes the shape and
  the coordinates at which the function is read; a chain is proved by applying
  the rules in the order of the source.
-/

import Svod.Tensor.ShapeOpsSpec

namespace Svod.Tensor.Nd

open Svod.Lib Svod.Ir

variable {α β γ : Type}

/-- The computation succeeds with an array of the shape and the elements of `f`. -/
def Returns (x : Except ErrorKind (NdArray α)) (s : List ℕ) (f : List ℕ → α) : Prop :=
  ∃ u, x = .ok u ∧ u.Holds s f

namespace Returns

variable {x : Except ErrorKind (NdArray α)} {s : List ℕ} {f g : List ℕ → α}

theorem ok {u : NdArray α} (h : u.Holds s f) : Returns (.ok u) s f := ⟨u, rfl, h⟩

/-- The next operation of a chain. -/
theorem bind {k : NdArray α → Except ErrorKind (NdArray β)} {s' : List ℕ} {f' : List ℕ → β}
    (h : Returns x s f) (hk : ∀ u : NdArray α, u.Holds s f → Returns (k u) s' f') :
    Returns (x >>= k) s' f' := by
  obtain ⟨u, rfl, hu⟩ := h
  exact hk u hu

theorem congr (h : Returns x s f) (hfg : ∀ c, InBounds c s → f c = g c) : Returns x s g := by
  obtain ⟨u, hx, hu⟩ := h
  exact ⟨u, hx, hu.congr hfg⟩

theorem of_agrees {t : NdArray α} (h : ∃ u, x = .ok u ∧ u.Agrees t) (ht : t.Holds s f) :
    Returns x s f := by
  obtain ⟨u, hx, hu⟩ := h
  exact ⟨u, hx, ht.of_agrees hu⟩

end Returns

variable {t : NdArray α} {s : List ℕ} {f : List ℕ → α}

/-! ## Reshapes -/

theorem uopContext_ok {β : Type} {x : Except Ir.Error β} {P : β → Prop}
    (h : ∃ u, x = .ok u ∧ P u) : ∃ u, uopContext x = .ok u ∧ P u := by
  obtain ⟨u, rfl, hu⟩ := h
  exact ⟨u, rfl, hu⟩

theorem tryReshape_returns (h : t.Holds s f) {r : List ℕ} (hprod : s.prod = r.prod)
    (read : List ℕ → List ℕ) (hread : ∀ c, InBounds c r → SamePosition s (read c) r c) :
    Returns (tryReshape t (r.map .const)) r fun c => f (read c) :=
  .of_agrees (tryReshape_ok t r (h.shape_eq.symm ▸ hprod)) (h.reshape read hread)

theorem prod_insertIdx_one {s : List ℕ} {d : ℕ} (hd : d ≤ s.length) :
    (s.insertIdx d 1).prod = s.prod := by
  rw [List.prod_insertIdx hd fun _ _ => Commute.all _ _, Nat.one_mul]

/-- A new last axis. -/
theorem tryUnsqueeze_last (h : t.Holds s f) :
    Returns (tryUnsqueeze t (-1)) (s.insertIdx s.length 1) fun c => f (c.eraseIdx s.length) := by
  have hs := h.shape_eq
  subst hs
  have hneg : (-1 : ℤ) < 0 := by omega
  have hrange : -((t.shape.length : ℤ) + 1) ≤ -1 := by omega
  have hpos : ((t.shape.length : ℤ) + 1 + -1).toNat = t.shape.length := by omega
  have heq : tryUnsqueeze t (-1) =
      uopContext (Movement.tryReshape t (t.shape.insertIdx t.shape.length 1)) := by
    rw [tryUnsqueeze]
    simp only [if_pos hneg, ensure_of_true hrange, hpos]
    rfl
  rw [heq]
  exact .of_agrees (uopContext_ok (Movement.tryReshape_ok t
    (prod_insertIdx_one (le_refl _)).symm)) (h.unsqueeze (le_refl _))

theorem normalizeAxis_neg {k ndim : ℕ} (hk : 0 < k) (h : k ≤ ndim) :
    normalizeAxis (-(k : ℤ)) ndim = .ok (ndim - k) := by
  have hneg : -(k : ℤ) < 0 := by omega
  have hrange : -(ndim : ℤ) ≤ -(k : ℤ) := by omega
  have hpos : ((ndim : ℤ) + -(k : ℤ)).toNat = ndim - k := by omega
  rw [normalizeAxis, if_pos hneg, ensure_of_true hrange, hpos]
  rfl

/-- An axis given by its position or from the end. -/
def IsAxis (axis : ℤ) (ndim d : ℕ) : Prop := normalizeAxis axis ndim = .ok d

theorem IsAxis.lt {axis : ℤ} {ndim d : ℕ} (h : IsAxis axis ndim d) : d < ndim := by
  unfold IsAxis normalizeAxis at h
  split at h
  · next hneg =>
    by_cases hr : -(ndim : ℤ) ≤ axis
    · rw [ensure_of_true hr] at h
      have := Except.ok.inj h
      omega
    · rw [ensure_of_false hr] at h
      cases h
  · by_cases hr : axis.toNat < ndim
    · rw [ensure_of_true hr] at h
      exact Except.ok.inj h ▸ hr
    · rw [ensure_of_false hr] at h
      cases h

theorem isAxis_natCast {d ndim : ℕ} (h : d < ndim) : IsAxis d ndim d := normalizeAxis_natCast h

theorem isAxis_last {ndim : ℕ} (h : 0 < ndim) : IsAxis (-1) ndim (ndim - 1) :=
  normalizeAxis_neg (k := 1) Nat.one_pos h

theorem trySqueeze_returns {axis : ℤ} {d : ℕ} (hd : d ≤ s.length) (h : t.Holds (s.insertIdx d 1) f)
    (haxis : IsAxis axis (s.insertIdx d 1).length d) :
    Returns (trySqueeze t axis) s fun c => f (c.insertIdx d 0) := by
  have hlt : d < (s.insertIdx d 1).length := haxis.lt
  have hdim : t.shape.getD d 0 = 1 := by
    rw [h.shape_eq, List.getD_eq_getElem _ _ hlt, List.getElem_insertIdx_self]
  have herase : t.shape.eraseIdx d = s := by rw [h.shape_eq, List.eraseIdx_insertIdx_self]
  have haxis' : normalizeAxis axis t.shape.length = .ok d := by rw [h.shape_eq]; exact haxis
  rw [trySqueeze, bind_ok haxis']
  simp only [hdim, ensure_of_true, herase]
  rw [bind_ok rfl]
  refine .of_agrees (uopContext_ok (Movement.tryReshape_ok t ?_)) (h.squeeze hd)
  rw [h.shape_eq, prod_insertIdx_one hd]

theorem samePosition_flat {s c : List ℕ} (h : InBounds c [s.prod]) :
    SamePosition s (unravel s (c.headD 0)) [s.prod] c := by
  obtain _ | ⟨x, c⟩ := c
  · simp at h
  obtain ⟨hx, hc⟩ := List.forall₂_cons.mp h
  obtain rfl : c = [] := by simpa using hc
  have := SamePosition.flat (unravel_inBounds hx)
  rwa [ravel_unravel hx] at this

theorem flatten_returns (h : t.Holds s f) :
    Returns (flatten t) [s.prod] fun c => f (unravel s (c.headD 0)) := by
  have hs := h.shape_eq
  subst hs
  have hcall : flatten t = uopContext (Movement.tryReshape t [t.shape.prod]) := by
    have hknown : ([Extent.infer].filterMap Extent.asConst).prod = 1 := rfl
    simp only [flatten, tryReshape, hknown, Nat.div_one, Nat.mod_one]
    rfl
  rw [hcall]
  exact .of_agrees (uopContext_ok (Movement.tryReshape_ok t (by simp)))
    (h.reshape (fun c => unravel t.shape (c.headD 0)) fun _ hc => samePosition_flat hc)

/-! ## Transposition -/

theorem swapIdx_range_perm {n i j : ℕ} (hi : i < n) (hj : j < n) :
    (swapIdx (List.range n) i j).Perm (List.range n) := by
  have hi' : i < (List.range n).length := by simpa using hi
  have hj' : j < (List.range n).length := by simpa using hj
  refine (List.perm_ext_iff_of_nodup ?_ List.nodup_range).mpr fun a => ?_
  · refine List.nodup_iff_injective_get.mpr fun a b hab => ?_
    simp only [List.get_eq_getElem, getElem_swapIdx _ hi' hj', List.getElem_range] at hab
    exact Fin.ext ((Equiv.swap i j).injective hab)
  · constructor
    · intro ha
      obtain ⟨k, hk, rfl⟩ := List.getElem_of_mem ha
      rw [getElem_swapIdx _ hi' hj', List.get_eq_getElem, List.getElem_range]
      exact List.mem_range.mpr (swap_lt hi hj (by simpa using hk))
    · intro ha
      have ha' : Equiv.swap i j a < (swapIdx (List.range n) i j).length := by
        simpa using swap_lt hi hj (List.mem_range.mp ha)
      have hget : (swapIdx (List.range n) i j)[Equiv.swap i j a] = a := by
        simp only [getElem_swapIdx _ hi' hj', List.get_eq_getElem, List.getElem_range,
          Equiv.swap_apply_self]
      exact hget ▸ List.getElem_mem _

theorem tryTranspose_returns (h : t.Holds s f) {dim0 dim1 : ℤ} {i j : ℕ}
    (hi : IsAxis dim0 s.length i) (hj : IsAxis dim1 s.length j) (hn : s.length ≠ 64) :
    Returns (tryTranspose t dim0 dim1) (swapIdx s i j) fun c => f (swapIdx c i j) := by
  have hs := h.shape_eq
  subst hs
  rw [tryTranspose, bind_ok hi, bind_ok hj]
  exact .of_agrees (uopContext_ok (Movement.tryPermute_ok t
    (swapIdx_range_perm hi.lt hj.lt) hn)) (h.permute_swap hi.lt hj.lt)

/-- A transposition of 64 axes is refused. -/
theorem tryTranspose_error {dim0 dim1 : ℤ} {i j : ℕ} (hi : IsAxis dim0 t.shape.length i)
    (hj : IsAxis dim1 t.shape.length j) (hn : t.shape.length = 64) :
    ∃ e, tryTranspose t dim0 dim1 = .error e := by
  have hperm := swapIdx_range_perm hi.lt hj.lt
  obtain ⟨e, he⟩ := Movement.tryPermute_error t (hn ▸ hperm) hn
  exact ⟨.uop e, by rw [tryTranspose, bind_ok hi, bind_ok hj, hn, he]; rfl⟩

/-! ## Shrinks -/

/-- Coordinates inside the kept parts, moved by the offsets. -/
theorem inBounds_shrink {ranges : List ShrinkRange} {s c : List ℕ}
    (hfit : List.Forall₂ ShrinkRange.Fits ranges s)
    (hc : InBounds c (List.zipWith (fun r n => (r.bounds n).2 - (r.bounds n).1) ranges s)) :
    InBounds (List.zipWith (· + ·) (List.zipWith (fun r n => (r.bounds n).1) ranges s) c) s := by
  induction hfit generalizing c with
  | nil => simp
  | @cons r n ranges s hrn _ ih =>
    obtain _ | ⟨x, c⟩ := c
    · simp at hc
    obtain ⟨hx, hc⟩ := List.forall₂_cons.mp hc
    obtain ⟨-, hle, hle'⟩ := hrn
    have hx' : x < (r.bounds n).2 - (r.bounds n).1 := hx
    refine .cons ?_ (ih hc)
    show (r.bounds n).1 + x < n
    omega

theorem tryShrink_returns (h : t.Holds s f) {ranges : List ShrinkRange}
    (hfit : List.Forall₂ ShrinkRange.Fits ranges s) :
    Returns (tryShrink t ranges)
      (List.zipWith (fun r n => (r.bounds n).2 - (r.bounds n).1) ranges s)
      fun c => f (List.zipWith (· + ·) (List.zipWith (fun r n => (r.bounds n).1) ranges s) c) := by
  have hs := h.shape_eq
  subst hs
  refine .of_agrees (tryShrink_ok t hfit) ⟨rfl, fun c hc => ?_⟩
  exact h.get_eq _ (inBounds_shrink hfit hc)

/-- A shrink that keeps the start of every dimension. -/
theorem tryShrink_start (h : t.Holds s f) {ranges : List ShrinkRange} {s' : List ℕ}
    (hfit : List.Forall₂ ShrinkRange.Fits ranges s)
    (hbounds : List.zipWith (fun r n => r.bounds n) ranges s = s'.map fun n => (0, n)) :
    Returns (tryShrink t ranges) s' f := by
  have hproj : ∀ g : ℕ × ℕ → ℕ, List.zipWith (fun r n => g (ShrinkRange.bounds n r)) ranges s =
      s'.map fun n => g (0, n) := by
    intro g
    rw [← Function.comp_def g, ← List.map_map, ← hbounds, List.map_zipWith]
  have hstep := tryShrink_returns h hfit
  rw [hproj Prod.fst, hproj fun b => b.2 - b.1] at hstep
  simp only [Nat.sub_zero, List.map_id'] at hstep
  refine hstep.congr fun c hc => ?_
  have hlen : c.length = s'.length := by simpa using InBounds.length hc
  rw [List.map_const', ← hlen, zipWith_add_zero]

/-! ## Broadcasting -/

theorem broadcastsTo_aligned {s target : List ℕ} (h : BroadcastsTo s target) :
    List.Forall₂ (fun s n => s = n ∨ s = 1) (Movement.alignLeft target.length s) target := by
  have hones : List.Forall₂ (fun s n => s = n ∨ s = 1)
      (List.replicate (target.length - s.length) 1)
      (target.take (target.length - s.length)) := by
    refine List.forall₂_iff_zip.mpr ⟨by simp, fun {a b} hab => .inr ?_⟩
    exact List.eq_of_mem_replicate (List.of_mem_zip hab).1
  have happ : List.Forall₂ (fun s n => s = n ∨ s = 1)
      (List.replicate (target.length - s.length) 1 ++ s)
      (target.take (target.length - s.length) ++ target.drop (target.length - s.length)) :=
    List.rel_append hones h.2
  rwa [List.take_append_drop] at happ

theorem broadcastTo_returns (h : t.Holds s f) {target : List ℕ} (hb : BroadcastsTo s target) :
    Returns (broadcastTo t target) target fun c => f (broadcastCoords s c) := by
  have hs := h.shape_eq
  subst hs
  have hle : t.shape.length ≤ target.length := hb.1
  have haligned := broadcastsTo_aligned hb
  -- the aligned array, read through the expansion
  suffices hread : Returns (broadcastTo t target) target fun c => f ((List.zipWith
      (fun s x => if s = 1 then 0 else x) (Movement.alignLeft target.length t.shape) c).drop
        (target.length - t.shape.length)) from
    hread.congr fun c hc => by
      have hlen : c.length = target.length := InBounds.length hc
      rw [Movement.alignLeft, drop_expandCoords (by omega)]
  have hge : ¬ target.length < t.shape.length := by omega
  have hchecks : ((Movement.alignLeft target.length t.shape).zip target).zipIdx.forM (fun x =>
      ensure (x.1.1 = 1 ∨ x.1.1 = x.1.2)
        (ErrorKind.broadcastIncompatible x.2 x.1.1 x.1.2)) = .ok () := by
    refine forM_ok fun x hx => ensure_of_true ?_ _
    have hmem := (List.mem_zipIdx' hx).2
    exact (List.forall₂_zip haligned (hmem ▸ List.getElem_mem _)).symm
  by_cases hlt : t.shape.length < target.length
  · have hne : t.shape ≠ target := fun he => absurd (congrArg List.length he) (by omega)
    have hne' : Movement.alignLeft target.length t.shape ≠ t.shape := by
      intro he
      have := congrArg List.length he
      simp only [Movement.alignLeft, List.length_append, List.length_replicate] at this
      omega
    have hprod : t.shape.prod = (Movement.alignLeft target.length t.shape).prod := by
      simp [Movement.alignLeft]
    obtain ⟨r, hr, hrAgree⟩ := Movement.tryReshape_ok t hprod
    have hrHolds : r.Holds (Movement.alignLeft target.length t.shape)
        fun c => f (c.drop (target.length - t.shape.length)) :=
      (h.lead (target.length - t.shape.length)).of_agrees hrAgree
    have hcall : broadcastTo t target =
        if Movement.alignLeft target.length t.shape = target then .ok r
        else uopContext (Movement.tryExpand r target) := by
      rw [broadcastTo, if_neg hne, if_neg hge]
      simp only [if_pos hlt, hchecks, if_pos hne', hr]
      split <;> rfl
    rw [hcall]
    split
    · next heq =>
      have := hrHolds.expand_self
      rw [heq] at this ⊢
      exact .ok this
    · exact .of_agrees (uopContext_ok (Movement.tryExpand_ok r (hrHolds.shape_eq.symm ▸ haligned)))
        (hrHolds.expand haligned)
  · have hlen : target.length = t.shape.length := by omega
    have hzero : target.length - t.shape.length = 0 := by omega
    rw [alignLeft_self hlen] at haligned ⊢
    simp only [hzero, List.drop_zero]
    exact .of_agrees (broadcastTo_ok t haligned) (h.expand haligned)

/-- Shapes whose dimensions are those of the target or `1`, each dimension of the target being
    that of one of the two, have the target as their common shape. -/
theorem broadcastShape_join {l r target : List ℕ}
    (hl : List.Forall₂ (fun s n => s = n ∨ s = 1) l target)
    (hr : List.Forall₂ (fun s n => s = n ∨ s = 1) r target) :
    ∃ j, Movement.broadcastShape l r = .ok j ∧
      List.Forall₂ (fun s n => s = n ∨ s = 1) j target ∧
      ∀ i, l.getD i 0 = target.getD i 0 ∨ r.getD i 0 = target.getD i 0 →
        j.getD i 0 = target.getD i 0 := by
  have hlen : l.length = r.length := hl.length_eq.trans hr.length_eq.symm
  have hmap : ∃ j, (l.zip r).mapM (fun p => joinDim p.1 p.2) = some j ∧
      List.Forall₂ (fun s n => s = n ∨ s = 1) j target ∧
      ∀ i, l.getD i 0 = target.getD i 0 ∨ r.getD i 0 = target.getD i 0 →
        j.getD i 0 = target.getD i 0 := by
    clear hlen
    induction hl generalizing r with
    | nil =>
      obtain rfl : r = [] := by simpa using hr
      exact ⟨[], rfl, .nil, fun i _ => rfl⟩
    | @cons a n l target ha _ ih =>
      obtain _ | ⟨b, r⟩ := r
      · simp at hr
      obtain ⟨hb, hr⟩ := List.forall₂_cons.mp hr
      obtain ⟨j, hj, hjt, hjd⟩ := ih hr
      obtain ⟨x, hx, hxn, hxd⟩ : ∃ x, joinDim a b = some x ∧ (x = n ∨ x = 1) ∧
          (a = n ∨ b = n → x = n) := by
        rcases ha with rfl | rfl
        · exact ⟨a, joinDim_right hb, .inl rfl, fun _ => rfl⟩
        · refine ⟨b, joinDim_one_left b, hb, ?_⟩
          rintro (rfl | h)
          · rcases hb with h | h <;> exact h
          · exact h
      refine ⟨x :: j, ?_, .cons hxn hjt, ?_⟩
      · rw [List.zip_cons_cons, List.mapM_cons, hx, hj]
        rfl
      · intro i hi
        cases i with
        | zero => simpa using hxd (by simpa using hi)
        | succ i => simpa using hjd i (by simpa using hi)
  obtain ⟨j, hj, hrest⟩ := hmap
  refine ⟨j, ?_, hrest⟩
  rw [Movement.broadcastShape, ensure_of_true hlen, bind_ok rfl]
  simp only [hj]
  rfl

/-- A shape that has every dimension of the target is the target. -/
theorem eq_of_getD {j target : List ℕ} (hlen : j.length = target.length)
    (h : ∀ i < target.length, j.getD i 0 = target.getD i 0) : j = target :=
  List.ext_getElem hlen fun i h₁ h₂ => by
    have := h i h₂
    rwa [List.getD_eq_getElem _ _ h₁, List.getD_eq_getElem _ _ h₂] at this

end Svod.Tensor.Nd
