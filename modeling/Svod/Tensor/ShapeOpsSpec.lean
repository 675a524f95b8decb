/-
  Svod.Tensor.ShapeOpsSpec

  What the shape operations return.  Every accepted call agrees with the array
  operation of the same name; the callers use these statements and never unfold
  an operation.
-/

import Svod.Tensor.ShapeOps
import Svod.Lib.Fallible

namespace Svod.Tensor.Nd

open Svod.Lib Svod.Ir

variable {α : Type}

/-! ## Reshape and expand -/

theorem tryReshape_const (t : NdArray α) (shape : List ℕ) :
    tryReshape t (shape.map .const) = uopContext (Movement.tryReshape t shape) := by
  have hcount : (shape.map Extent.const).countP Extent.isInfer = 0 := by
    simp [List.countP_eq_zero, Extent.isInfer]
  have hmap : (shape.map Extent.const).map (Extent.resolve 0) = shape := by
    simp [Function.comp_def, Extent.resolve]
  rw [tryReshape, hcount, hmap]
  rfl

theorem tryReshape_ok (t : NdArray α) (shape : List ℕ) (h : t.shape.prod = shape.prod) :
    ∃ u, tryReshape t (shape.map .const) = .ok u ∧ u.Agrees (t.reshape shape) := by
  obtain ⟨u, hu, hagree⟩ := Movement.tryReshape_ok t h
  exact ⟨u, by rw [tryReshape_const, hu]; rfl, hagree⟩

theorem tryReshape_error (t : NdArray α) {shape : List ℕ} (h : t.shape.prod ≠ shape.prod) :
    ∃ e, tryReshape t (shape.map .const) = .error e :=
  ⟨_, by rw [tryReshape_const, Movement.tryReshape_error t h]; rfl⟩

theorem tryExpand_ok (t : NdArray α) {shape : List ℕ}
    (h : List.Forall₂ (fun s n => s = n ∨ s = 1) t.shape shape) :
    ∃ u, tryExpand t (shape.map .const) = .ok u ∧ u.Agrees (t.expand shape) := by
  obtain ⟨u, hu, hagree⟩ := Movement.tryExpand_ok t h
  have hresolved : (shape.map Extent.const).zipIdx.mapM (keepExtent t.shape) = .ok shape := by
    have hkeep : ∀ x ∈ (shape.map Extent.const).zipIdx,
        keepExtent t.shape x = .ok (x.1.resolve 0) := by
      intro x hx
      obtain ⟨n, -, hn⟩ := List.mem_map.mp (List.fst_mem_of_mem_zipIdx hx)
      rw [keepExtent, ← hn]
      rfl
    rw [mapM_ok hkeep]
    change Except.ok ((shape.map Extent.const).zipIdx.map (Extent.resolve 0 ∘ Prod.fst)) = _
    rw [← List.map_map, List.zipIdx_map_fst, List.map_map]
    simp [Function.comp_def, Extent.resolve]
  exact ⟨u, by rw [tryExpand, bind_ok hresolved, hu]; rfl, hagree⟩

/-! ## Axes -/

theorem normalizeAxis_natCast {d ndim : ℕ} (h : d < ndim) :
    normalizeAxis (d : ℤ) ndim = .ok d := by
  have hneg : ¬ ((d : ℤ) < 0) := by omega
  rw [normalizeAxis, if_neg hneg, Int.toNat_natCast, ensure_of_true h]
  rfl

theorem normalizeAxes_ok {perm : List ℕ} {ndim : ℕ} (h : perm.Perm (List.range ndim)) :
    normalizeAxes (perm.map (↑)) ndim = .ok perm := by
  have hlen : (perm.map ((↑) : ℕ → ℤ)).length = ndim := by simpa using h.length_eq
  have hmap : (perm.map ((↑) : ℕ → ℤ)).mapM (normalizeAxis · ndim) = .ok perm := by
    have hall : ∀ x ∈ perm.map ((↑) : ℕ → ℤ), normalizeAxis x ndim = .ok x.toNat := by
      intro x hx
      obtain ⟨d, hd, rfl⟩ := List.mem_map.mp hx
      rw [normalizeAxis_natCast (Movement.lt_of_perm_range h hd), Int.toNat_natCast]
    rw [mapM_ok hall]
    simp [Function.comp_def]
  rw [normalizeAxes, ensure_of_true hlen, bind_ok rfl, bind_ok hmap,
    ensure_of_true (h.nodup_iff.mpr List.nodup_range)]
  rfl

theorem tryPermute_ok (t : NdArray α) {perm : List ℕ}
    (h : perm.Perm (List.range t.shape.length)) (hn : t.shape.length ≠ 64) :
    ∃ u, tryPermute t (perm.map (↑)) = .ok u ∧ u.Agrees (t.permute perm) := by
  obtain ⟨u, hu, hagree⟩ := Movement.tryPermute_ok t h hn
  exact ⟨u, by rw [tryPermute, bind_ok (normalizeAxes_ok h), hu]; rfl, hagree⟩

theorem tryPermute_error (t : NdArray α) {perm : List ℕ}
    (h : perm.Perm (List.range t.shape.length)) (hn : t.shape.length = 64) :
    ∃ e, tryPermute t (perm.map (↑)) = .error e := by
  obtain ⟨e, he⟩ := Movement.tryPermute_error t (hn ▸ h) hn
  exact ⟨.uop e, by rw [tryPermute, bind_ok (normalizeAxes_ok h), he]; rfl⟩

theorem tryUnsqueeze_ok (t : NdArray α) (dim : ℕ) (h : dim ≤ t.shape.length) :
    ∃ u, tryUnsqueeze t dim = .ok u ∧ u.Agrees (t.reshape (t.shape.insertIdx dim 1)) := by
  have hprod : t.shape.prod = (t.shape.insertIdx dim 1).prod := by
    rw [List.prod_insertIdx h fun _ _ => Commute.all _ _, Nat.one_mul]
  obtain ⟨u, hu, hagree⟩ := Movement.tryReshape_ok t hprod
  refine ⟨u, ?_, hagree⟩
  have hneg : ¬ ((dim : ℤ) < 0) := by omega
  rw [tryUnsqueeze, if_neg hneg, Int.toNat_natCast, ensure_of_true h, bind_ok rfl, hu]
  rfl

/-! ## Repeat -/

theorem insertIdx_append_length {β : Type} (pre post : List β) (x : β) :
    (pre ++ post).insertIdx pre.length x = pre ++ x :: post := by
  induction pre with
  | nil => rfl
  | cons a pre ih => simpa using ih

/-- One repeated dimension: its coordinate is read modulo the original extent. -/
theorem repeatStep_ok (t : NdArray α) {pre post : List ℕ} {d : ℕ} (rep : ℕ)
    (hshape : t.shape = pre ++ d :: post) :
    ∃ u, repeatStep t (rep, pre.length) = .ok u ∧ u.shape = pre ++ (rep * d) :: post ∧
      ∀ p x q, InBounds p pre → x < rep * d → InBounds q post →
        u.get (p ++ x :: q) = t.get (p ++ (x % d) :: q) := by
  by_cases hrep : rep = 1
  · refine ⟨t, by simp [repeatStep, hrep, pure, Except.pure], by simp [hshape, hrep], ?_⟩
    intro p x q _ hx _
    rw [Nat.mod_eq_of_lt (by simpa [hrep] using hx)]
  have hdim : t.shape.getD pre.length 0 = d := by
    rw [hshape, List.getD_append_right _ _ _ _ (Nat.le_refl _)]
    simp
  have hinsert : ∀ n, t.shape.insertIdx pre.length n = pre ++ n :: d :: post := by
    intro n
    rw [hshape, insertIdx_append_length]
  obtain ⟨unsqueezed, hun, hunAgree⟩ := tryUnsqueeze_ok t pre.length (by simp [hshape])
  rw [hinsert] at hunAgree
  have hexpandable : List.Forall₂ (fun s n => s = n ∨ s = 1) unsqueezed.shape
      (pre ++ rep :: d :: post) := by
    rw [hunAgree.shape_eq]
    have hsame : ∀ l : List ℕ, List.Forall₂ (fun s n => s = n ∨ s = 1) l l :=
      fun l => List.forall₂_same.mpr fun _ _ => .inl rfl
    exact List.rel_append (hsame pre) (.cons (.inr rfl) (hsame (d :: post)))
  obtain ⟨expanded, hex, hexAgree⟩ := tryExpand_ok unsqueezed hexpandable
  have hmerged : ((pre ++ rep :: d :: post).set pre.length (rep * d)).eraseIdx (pre.length + 1)
      = pre ++ (rep * d) :: post := by
    rw [List.set_append_right _ _ (Nat.le_refl _), List.eraseIdx_append_of_length_le (by omega)]
    simp
  obtain ⟨merged, hme, hmeAgree⟩ := tryReshape_ok expanded
    (pre ++ (rep * d) :: post) (by
      rw [hexAgree.shape_eq]
      simp [NdArray.expand, Nat.mul_assoc])
  refine ⟨merged, ?_, hmeAgree.shape_eq, fun p x q hp hx hq => ?_⟩
  · have hstep : repeatStep t (rep, pre.length) = (do
        let unsqueezed ← tryUnsqueeze t pre.length
        let expanded ← tryExpand unsqueezed ((t.shape.insertIdx pre.length rep).map .const)
        tryReshape expanded ((((t.shape.insertIdx pre.length rep).set pre.length
          (rep * t.shape.getD pre.length 0)).eraseIdx (pre.length + 1)).map .const)) := by
      simp [repeatStep, hrep]
    rw [hstep, hinsert, hdim, hmerged, bind_ok hun, bind_ok hex]
    exact hme
  · have hd : 0 < d := Nat.pos_of_ne_zero fun h0 => by simp [h0] at hx
    have hr : x / d < rep := Nat.div_lt_of_lt_mul (by rwa [Nat.mul_comm])
    have hxm : x % d < d := Nat.mod_lt _ hd
    have hsplit : SamePosition (pre ++ ([rep, d] ++ post)) (p ++ ([x / d, x % d] ++ q))
        (pre ++ ([rep * d] ++ post)) (p ++ ([x] ++ q)) := by
      have hm := SamePosition.merge hr hxm
      rw [Nat.div_add_mod' x d] at hm
      exact (SamePosition.refl hp).append (hm.append (.refl hq))
    have hunit : SamePosition (pre ++ ([] ++ ([d] ++ post))) (p ++ ([] ++ ([x % d] ++ q)))
        (pre ++ ([1] ++ ([d] ++ post))) (p ++ ([0] ++ ([x % d] ++ q))) :=
      (SamePosition.refl hp).append
        (SamePosition.unit.symm.append (.refl (.cons hxm hq)))
    calc merged.get (p ++ x :: q)
        = (expanded.reshape (pre ++ (rep * d) :: post)).get (p ++ x :: q) :=
          hmeAgree.get_eq _ hsplit.inBounds'
      _ = expanded.get (p ++ x / d :: x % d :: q) := by
          refine expanded.reshape_get ?_
          rw [hexAgree.shape_eq]
          exact hsplit
      _ = (unsqueezed.expand (pre ++ rep :: d :: post)).get (p ++ x / d :: x % d :: q) :=
          hexAgree.get_eq _ hsplit.inBounds
      _ = unsqueezed.get (p ++ 0 :: x % d :: q) := by
          refine congrArg unsqueezed.get ?_
          rw [hunAgree.shape_eq]
          have hlen : pre.length = p.length := hp.length_eq.symm
          have hrest : InBounds (x % d :: q) (d :: post) := .cons hxm hq
          simp only [NdArray.reshape]
          rw [List.zipWith_append hlen, NdArray.expandCoords_self hp, List.zipWith_cons_cons,
            NdArray.expandCoords_self hrest]
          rfl
      _ = (t.reshape (pre ++ 1 :: d :: post)).get (p ++ 0 :: x % d :: q) :=
          hunAgree.get_eq _ hunit.inBounds'
      _ = t.get (p ++ x % d :: q) := by
          refine t.reshape_get ?_
          rw [hshape]
          exact hunit

/-- The loop of `repeat` from dimension `pre.length` on. -/
theorem foldlM_repeatStep (pre : List ℕ) {suf repeats : List ℕ} (t : NdArray α)
    (hshape : t.shape = pre ++ suf) (hlen : repeats.length = suf.length) :
    ∃ u, (repeats.zipIdx pre.length).foldlM repeatStep t = .ok u ∧
      u.shape = pre ++ List.zipWith (· * ·) repeats suf ∧
      ∀ p c, InBounds p pre → InBounds c (List.zipWith (· * ·) repeats suf) →
        u.get (p ++ c) = t.get (p ++ List.zipWith (· % ·) c suf) := by
  induction repeats generalizing pre suf t with
  | nil =>
    obtain rfl : suf = [] := List.length_eq_zero_iff.mp hlen.symm
    refine ⟨t, rfl, hshape, fun p c _ hc => ?_⟩
    obtain rfl : c = [] := by simpa using hc
    rfl
  | cons rep repeats ih =>
    obtain _ | ⟨d, suf⟩ := suf
    · simp at hlen
    obtain ⟨t', ht', hshape', hget'⟩ := repeatStep_ok t rep hshape
    obtain ⟨u, hu, hushape, huget⟩ := ih (pre ++ [rep * d]) t'
      (by rw [hshape', List.append_assoc, List.singleton_append]) (by simpa using hlen)
    refine ⟨u, ?_, by simp [hushape], fun p c hp hc => ?_⟩
    · rw [List.zipIdx_cons, List.foldlM_cons, bind_ok ht']
      simpa using hu
    · obtain _ | ⟨x, c⟩ := c
      · simp at hc
      obtain ⟨hx, hcs⟩ := List.forall₂_cons.mp hc
      have hp' : InBounds (p ++ [x]) (pre ++ [rep * d]) := hp.append (.cons hx .nil)
      have hmod := InBounds.mod (by simpa using hlen) hcs
      have h := huget (p ++ [x]) c hp' hcs
      rw [List.append_assoc, List.append_assoc, List.singleton_append, List.singleton_append] at h
      rw [h]
      exact hget' p x _ hp hx hmod

theorem repeatAxes_ok (t : NdArray α) (repeats : List ℕ) (hlen : repeats.length = t.shape.length)
    (hread : Readable (List.zipWith (· * ·) repeats t.shape)) :
    ∃ u, repeatAxes t repeats = .ok u ∧ u.shape = List.zipWith (· * ·) repeats t.shape ∧
      ∀ c, InBounds c (List.zipWith (· * ·) repeats t.shape) →
        u.get c = t.get (List.zipWith (· % ·) c t.shape) := by
  obtain ⟨u, hu, hshape, hget⟩ := foldlM_repeatStep [] t rfl hlen
  refine ⟨u, ?_, hshape, fun c hc => hget [] c .nil hc⟩
  have hread' : Readable u.shape := hshape.symm ▸ hread
  rw [repeatAxes, ensure_of_true hlen]
  change (repeats.zipIdx.foldlM repeatStep t >>= _) = _
  rw [show repeats.zipIdx.foldlM repeatStep t = .ok u from hu]
  exact congrArg (· >>= fun _ => pure u) (ensure_of_true hread' _)

/-- A repeated shape that is not read back. -/
theorem repeatAxes_error (t : NdArray α) (repeats : List ℕ)
    (hlen : repeats.length = t.shape.length)
    (hread : ¬ Readable (List.zipWith (· * ·) repeats t.shape)) :
    repeatAxes t repeats = .error .shapeUnknown := by
  obtain ⟨u, hu, hshape, -⟩ := foldlM_repeatStep [] t rfl hlen
  have hread' : ¬ Readable u.shape := hshape.symm ▸ hread
  rw [repeatAxes, ensure_of_true hlen]
  change (repeats.zipIdx.foldlM repeatStep t >>= _) = _
  rw [show repeats.zipIdx.foldlM repeatStep t = .ok u from hu]
  exact congrArg (· >>= fun _ => pure u) (ensure_of_false hread' _)

/-! ## Shrink and pad -/

namespace ShrinkRange

/-- The bounds of a range without negative ends. -/
def bounds (dimSize : ℕ) : ShrinkRange → ℕ × ℕ
  | none => (0, dimSize)
  | isize first last => (first.toNat, last.toNat)
  | sint first last => (first, last)

/-- The range counts from the start of the dimension. -/
def Nonneg : ShrinkRange → Prop
  | isize first last => 0 ≤ first ∧ 0 ≤ last
  | _ => True

/-- The range names a part of a dimension. -/
def Fits (r : ShrinkRange) (dimSize : ℕ) : Prop :=
  r.Nonneg ∧ (r.bounds dimSize).1 ≤ (r.bounds dimSize).2 ∧ (r.bounds dimSize).2 ≤ dimSize

end ShrinkRange

theorem resolveRange_ok {r : ShrinkRange} (dimSize : ℕ) (h : r.Nonneg) :
    resolveRange dimSize r = .ok (r.bounds dimSize) := by
  cases r with
  | none => rfl
  | sint first last => rfl
  | isize first last =>
    have h₁ : ¬ first < 0 := not_lt.mpr h.1
    have h₂ : ¬ last < 0 := not_lt.mpr h.2
    simp only [resolveRange, if_neg h₁, if_neg h₂]
    rw [ensure_of_true h.1, ensure_of_true h.2]
    rfl

/-- The ranges of a call, resolved against the dimensions they stand at. -/
theorem resolveRanges_ok {ranges : List ShrinkRange} {shape : List ℕ}
    (hlen : ranges.length = shape.length) (h : ∀ r ∈ ranges, r.Nonneg) :
    ranges.zipIdx.mapM (fun x => resolveRange (shape.getD x.2 0) x.1)
      = .ok (List.zipWith (fun r s => r.bounds s) ranges shape) := by
  have hall : ∀ x ∈ ranges.zipIdx, resolveRange (shape.getD x.2 0) x.1
      = .ok (x.1.bounds (shape.getD x.2 0)) := fun x hx =>
    resolveRange_ok _ (h _ (List.fst_mem_of_mem_zipIdx hx))
  rw [mapM_ok hall]
  refine congrArg Except.ok (List.ext_getElem (by simp [hlen]) fun d h₁ h₂ => ?_)
  have hd : d < shape.length := by simp at h₂; omega
  rw [List.getElem_map, List.getElem_zipIdx, List.getElem_zipWith, Nat.zero_add,
    List.getD_eq_getElem _ _ hd]

theorem tryShrink_ok (t : NdArray α) {ranges : List ShrinkRange}
    (h : List.Forall₂ ShrinkRange.Fits ranges t.shape) :
    ∃ u, tryShrink t ranges = .ok u ∧
      u.Agrees (t.shrink (List.zipWith (fun r s => (r.bounds s).1) ranges t.shape)
        (List.zipWith (fun r s => (r.bounds s).2 - (r.bounds s).1) ranges t.shape)) := by
  by_cases hall : ranges.all (· = .none) = true
  · have hranges : ranges = List.replicate t.shape.length .none := by
      refine List.eq_replicate_iff.mpr ⟨h.length_eq, fun r hr => ?_⟩
      simpa using List.all_eq_true.mp hall r hr
    refine ⟨t, ?_, ?_⟩
    · by_cases hnil : ranges = []
      · rw [tryShrink, if_pos hnil]
        rfl
      · rw [tryShrink, if_neg hnil, if_pos hall]
        rfl
    · have hoff : ∀ s : List ℕ, List.zipWith (fun (r : ShrinkRange) s => (r.bounds s).1)
          (List.replicate s.length .none) s = List.replicate s.length 0 := by
        intro s
        induction s with
        | nil => rfl
        | cons x s ih => simpa [List.replicate_succ, ShrinkRange.bounds] using ih
      have hsize : ∀ s : List ℕ, List.zipWith
          (fun (r : ShrinkRange) s => (r.bounds s).2 - (r.bounds s).1)
          (List.replicate s.length .none) s = s := by
        intro s
        induction s with
        | nil => rfl
        | cons x s ih => simpa [List.replicate_succ, ShrinkRange.bounds] using ih
      rw [hranges, hoff, hsize]
      exact t.shrink_self
  · have hnil : ranges ≠ [] := by
      rintro rfl
      simp at hall
    have hnonneg : ∀ r ∈ ranges, r.Nonneg := by
      intro r hr
      obtain ⟨d, hd, rfl⟩ := List.getElem_of_mem hr
      exact (h.get hd (h.length_eq ▸ hd)).1
    have hfit : List.Forall₂ (fun r s => r.1 ≤ r.2 ∧ r.2 ≤ s)
        (List.zipWith (fun r s => r.bounds s) ranges t.shape) t.shape := by
      clear hall hnil hnonneg
      generalize t.shape = shape at h
      induction h with
      | nil => exact .nil
      | cons hrs _ ih => exact .cons hrs.2 ih
    obtain ⟨u, hu, hagree⟩ := Movement.tryShrink_ok t hfit
    refine ⟨u, ?_, ?_⟩
    · rw [tryShrink, if_neg hnil, if_neg hall, bind_ok (resolveRanges_ok h.length_eq hnonneg), hu]
      rfl
    · simpa [List.map_zipWith] using hagree

/-- A padding without cropping. -/
theorem tryPad_ok [Zero α] (t : NdArray α) (padding : List (ℕ × ℕ))
    (hlen : padding.length = t.shape.length) :
    ∃ u, tryPad t (padding.map fun p => ((p.1 : ℤ), (p.2 : ℤ))) = .ok u ∧
      u.Agrees (t.pad padding) := by
  by_cases hnil : padding = []
  · subst hnil
    exact ⟨t, rfl, t.pad_zero hlen (by simp)⟩
  have hnil' : padding.map (fun p => ((p.1 : ℤ), (p.2 : ℤ))) ≠ [] := by simpa using hnil
  have hany : ¬ (padding.map fun p => ((p.1 : ℤ), (p.2 : ℤ))).any
      (fun p => p.1 < 0 ∨ p.2 < 0) = true := by simp
  have hpos : (padding.map fun p => ((p.1 : ℤ), (p.2 : ℤ))).map
      (fun p => (max p.1 0, max p.2 0)) = padding.map fun p => ((p.1 : ℤ), (p.2 : ℤ)) := by
    simp [Function.comp_def]
  have hback : (padding.map fun p => ((p.1 : ℤ), (p.2 : ℤ))).map
      (fun p => (p.1.toNat, p.2.toNat)) = padding := by
    simp [Function.comp_def]
  have hlen' : (padding.map fun p => ((p.1 : ℤ), (p.2 : ℤ))).length = t.shape.length := by
    simpa using hlen
  have hbase : padBase t (padding.map fun p => ((p.1 : ℤ), (p.2 : ℤ))) = .ok t := if_neg hany
  by_cases hzero : (padding.map fun p => ((p.1 : ℤ), (p.2 : ℤ))).all
      (fun p => p.1 = 0 ∧ p.2 = 0) = true
  · refine ⟨t, ?_, t.pad_zero hlen fun p hp => ?_⟩
    · rw [tryPad, if_neg hnil', ensure_of_true hlen', bind_ok rfl, bind_ok hbase]
      simp only [hpos]
      rw [if_pos hzero]
      rfl
    · have := List.all_eq_true.mp hzero _ (List.mem_map_of_mem hp)
      simp only [decide_eq_true_eq, Nat.cast_eq_zero] at this
      exact Prod.ext this.1 this.2
  · obtain ⟨u, hu, hagree⟩ := Movement.tryPad_ok t hlen
    refine ⟨u, ?_, hagree⟩
    rw [tryPad, if_neg hnil', ensure_of_true hlen', bind_ok rfl, bind_ok hbase]
    simp only [hpos]
    rw [if_neg hzero, hback, hu]
    rfl

/-! ## Operations on groups of axes

A call often treats every spatial axis in the same way and leaves the batch
dimensions alone.  Its shapes are then `batch ++ axes.flatMap s`, with `s a` the
group of dimensions of the axis `a`. -/

theorem forall₂_flatMap {ι β γ : Type} {R : β → γ → Prop} {axes : List ι} {f : ι → List β}
    {g : ι → List γ} (h : ∀ a ∈ axes, List.Forall₂ R (f a) (g a)) :
    List.Forall₂ R (axes.flatMap f) (axes.flatMap g) := by
  induction axes with
  | nil => exact .nil
  | cons a axes ih =>
    simp only [List.flatMap_cons]
    exact List.rel_append (h a (by simp)) (ih fun b hb => h b (by simp [hb]))

theorem prod_flatMap {ι : Type} {axes : List ι} {f g : ι → List ℕ}
    (h : ∀ a ∈ axes, (f a).prod = (g a).prod) : (axes.flatMap f).prod = (axes.flatMap g).prod := by
  induction axes with
  | nil => rfl
  | cons a axes ih =>
    simp only [List.flatMap_cons, List.prod_append]
    rw [h a (by simp), ih fun b hb => h b (by simp [hb])]

theorem fits_none (batch : List ℕ) :
    List.Forall₂ ShrinkRange.Fits (List.replicate batch.length .none) batch := by
  induction batch with
  | nil => exact .nil
  | cons s batch ih => exact .cons ⟨trivial, Nat.zero_le _, Nat.le_refl _⟩ ih

/-- A reshape that regroups each axis. -/
theorem tryReshape_axes {ι : Type} (t : NdArray α) {batch : List ℕ} {axes : List ι}
    {old : ι → List ℕ} (new : ι → List ℕ) (hshape : t.shape = batch ++ axes.flatMap old)
    (hprod : ∀ a ∈ axes, (old a).prod = (new a).prod) :
    ∃ u, tryReshape t ((batch ++ axes.flatMap new).map .const) = .ok u ∧
      u.shape = batch ++ axes.flatMap new ∧
      ∀ c c', SamePosition (batch ++ axes.flatMap old) c (batch ++ axes.flatMap new) c' →
        u.get c' = t.get c := by
  obtain ⟨u, hu, hagree⟩ := tryReshape_ok t (batch ++ axes.flatMap new) (by
    rw [hshape, List.prod_append, List.prod_append, prod_flatMap hprod])
  refine ⟨u, hu, hagree.shape_eq, fun c c' hcc => ?_⟩
  rw [hagree.get_eq c' hcc.inBounds']
  exact t.reshape_get (hshape ▸ hcc)

theorem zipWith_add_zero (c : List ℕ) :
    List.zipWith (· + ·) (List.replicate c.length 0) c = c := by
  induction c with
  | nil => rfl
  | cons x c ih => simpa [List.replicate_succ] using ih

/-- A range that keeps the start of its dimension. -/
def ShrinkRange.KeepsStart (r : ShrinkRange) : Prop := ∀ dimSize, (r.bounds dimSize).1 = 0

/-- Ranges that keep the start of each dimension: coordinates do not move. -/
theorem tryShrink_keepsStart (t : NdArray α) {ranges : List ShrinkRange}
    (hfit : List.Forall₂ ShrinkRange.Fits ranges t.shape) (hstart : ∀ r ∈ ranges, r.KeepsStart) :
    ∃ u, tryShrink t ranges = .ok u ∧
      u.shape = List.zipWith (fun r s => (r.bounds s).2) ranges t.shape ∧
      ∀ c, InBounds c u.shape → u.get c = t.get c := by
  obtain ⟨u, hu, hagree⟩ := tryShrink_ok t hfit
  have hoff : List.zipWith (fun r s => (r.bounds s).1) ranges t.shape
      = List.replicate t.shape.length 0 := by
    refine List.eq_replicate_iff.mpr ⟨by simp [hfit.length_eq], fun x hx => ?_⟩
    obtain ⟨d, hd, rfl⟩ := List.getElem_of_mem hx
    rw [List.getElem_zipWith]
    exact hstart _ (List.getElem_mem _) _
  have hsizes : List.zipWith (fun r s => (r.bounds s).2 - (r.bounds s).1) ranges t.shape
      = List.zipWith (fun r s => (r.bounds s).2) ranges t.shape := by
    refine List.ext_getElem (by simp) fun d h₁ h₂ => ?_
    rw [List.getElem_zipWith, List.getElem_zipWith,
      hstart _ (List.getElem_mem _), Nat.sub_zero]
  rw [hoff, hsizes] at hagree
  refine ⟨u, hu, hagree.shape_eq, fun c hc => ?_⟩
  rw [hagree.shape_eq] at hc
  rw [hagree.get_eq c hc]
  have hlen : t.shape.length = c.length := by
    rw [hc.length_eq]
    simp [NdArray.shrink, hfit.length_eq]
  simp only [NdArray.shrink]
  rw [hlen, zipWith_add_zero]

theorem zipWith_bounds_none (batch : List ℕ) :
    List.zipWith (fun (r : ShrinkRange) s => (r.bounds s).2)
      (List.replicate batch.length .none) batch = batch := by
  induction batch with
  | nil => rfl
  | cons x s ih => simpa [List.replicate_succ, ShrinkRange.bounds] using ih

theorem zipWith_bounds_sint {ι : Type} {axes : List ι} {old new : ι → List ℕ}
    (hlen : ∀ a ∈ axes, (new a).length = (old a).length) :
    List.zipWith (fun (r : ShrinkRange) s => (r.bounds s).2)
      (axes.flatMap fun a => (new a).map (ShrinkRange.sint 0)) (axes.flatMap old)
      = axes.flatMap new := by
  induction axes with
  | nil => rfl
  | cons a axes ih =>
    simp only [List.flatMap_cons]
    rw [List.zipWith_append (by simpa using hlen a (by simp)), ih fun b hb => hlen b (by simp [hb])]
    congr 1
    refine List.ext_getElem (by simp [hlen a (by simp)]) fun d h₁ h₂ => ?_
    simp [ShrinkRange.bounds]

/-- A shrink that keeps the start of each axis group. -/
theorem tryShrink_axes {ι : Type} (t : NdArray α) {batch : List ℕ} {axes : List ι}
    {old : ι → List ℕ} (new : ι → List ℕ) (hshape : t.shape = batch ++ axes.flatMap old)
    (hle : ∀ a ∈ axes, List.Forall₂ (· ≤ ·) (new a) (old a)) :
    ∃ u, tryShrink t (List.replicate batch.length .none ++
        axes.flatMap fun a => (new a).map (ShrinkRange.sint 0)) = .ok u ∧
      u.shape = batch ++ axes.flatMap new ∧
      ∀ c, InBounds c (batch ++ axes.flatMap new) → u.get c = t.get c := by
  have hgroup : ∀ a ∈ axes, List.Forall₂ ShrinkRange.Fits ((new a).map (.sint 0)) (old a) :=
    fun a ha => List.forall₂_map_left_iff.mpr
      ((hle a ha).imp fun _ _ hns => ⟨trivial, Nat.zero_le _, hns⟩)
  have hfit : List.Forall₂ ShrinkRange.Fits (List.replicate batch.length .none ++
      axes.flatMap fun a => (new a).map (ShrinkRange.sint 0)) t.shape :=
    hshape ▸ List.rel_append (fits_none batch) (forall₂_flatMap hgroup)
  have hstart : ∀ r ∈ List.replicate batch.length ShrinkRange.none ++
      axes.flatMap (fun a => (new a).map (ShrinkRange.sint 0)), r.KeepsStart := by
    intro r hr
    rcases List.mem_append.mp hr with hr | hr
    · rw [List.eq_of_mem_replicate hr]
      exact fun _ => rfl
    · obtain ⟨a, -, ha⟩ := List.mem_flatMap.mp hr
      obtain ⟨n, -, rfl⟩ := List.mem_map.mp ha
      exact fun _ => rfl
  obtain ⟨u, hu, hushape, huget⟩ := tryShrink_keepsStart t hfit hstart
  rw [hshape, List.zipWith_append (by simp), zipWith_bounds_none,
    zipWith_bounds_sint fun a ha => (hle a ha).length_eq] at hushape
  exact ⟨u, hu, hushape, fun c hc => huget c (hushape ▸ hc)⟩

/-! ## Operations on one axis -/

theorem set_append_length {β : Type} (pre post : List β) (x y : β) :
    (pre ++ x :: post).set pre.length y = pre ++ y :: post := by
  rw [List.set_append_right _ _ (Nat.le_refl _)]
  simp

/-- A shrink of one axis that keeps its start. -/
theorem tryShrink_axis (t : NdArray α) {pre post : List ℕ} {d n : ℕ}
    (hshape : t.shape = pre ++ d :: post) (hn : n ≤ d) :
    ∃ u, tryShrink t ((t.shape.map fun d : ℕ => ShrinkRange.isize 0 d).set pre.length
        (.isize 0 n)) = .ok u ∧ u.shape = pre ++ n :: post ∧
      ∀ c, InBounds c (pre ++ n :: post) → u.get c = t.get c := by
  have hranges : (t.shape.map fun d : ℕ => ShrinkRange.isize 0 d).set pre.length (.isize 0 n)
      = (pre ++ n :: post).map fun d : ℕ => ShrinkRange.isize 0 d := by
    rw [hshape, List.map_append, List.map_cons, ← List.length_map
      (fun d : ℕ => ShrinkRange.isize 0 d), set_append_length, List.map_append, List.map_cons]
  have hfits : ∀ {l l' : List ℕ}, List.Forall₂ (· ≤ ·) l l' →
      List.Forall₂ ShrinkRange.Fits (l.map fun d : ℕ => ShrinkRange.isize 0 d) l' := fun h =>
    List.forall₂_map_left_iff.mpr (h.imp fun x y hxy =>
      ⟨⟨Int.le_refl _, Int.natCast_nonneg x⟩, Nat.zero_le _, hxy⟩)
  have hle : List.Forall₂ (· ≤ ·) (pre ++ n :: post) (pre ++ d :: post) :=
    List.rel_append (List.forall₂_same.mpr fun _ _ => Nat.le_refl _)
      (.cons hn (List.forall₂_same.mpr fun _ _ => Nat.le_refl _))
  obtain ⟨u, hu, hushape, huget⟩ := tryShrink_keepsStart t (hshape ▸ hfits hle) (by
    intro r hr
    obtain ⟨x, -, rfl⟩ := List.mem_map.mp hr
    exact fun _ => rfl)
  have hsizes : ∀ l l' : List ℕ, l.length = l'.length → List.zipWith
      (fun (r : ShrinkRange) s => (r.bounds s).2)
      (l.map fun d : ℕ => ShrinkRange.isize 0 d) l' = l := by
    intro l l' hl
    refine List.ext_getElem (by simp [hl]) fun d h₁ h₂ => ?_
    simp [ShrinkRange.bounds]
  rw [hsizes _ _ (by simp [hshape])] at hushape
  exact ⟨u, by rw [hranges]; exact hu, hushape, fun c hc => huget c (hushape ▸ hc)⟩

/-- Zeros before and after one axis. -/
theorem tryPad_axis [Zero α] (t : NdArray α) {pre post : List ℕ} {d : ℕ} (left right : ℕ)
    (hshape : t.shape = pre ++ d :: post) :
    ∃ u, tryPad t ((List.replicate t.shape.length ((0 : ℤ), (0 : ℤ))).set pre.length
        (left, right)) = .ok u ∧ u.shape = pre ++ (left + d + right) :: post ∧
      ∀ p x q, InBounds p pre → x < left + d + right → InBounds q post →
        u.get (p ++ x :: q) =
          if left ≤ x ∧ x - left < d then t.get (p ++ (x - left) :: q) else 0 := by
  let padding := List.replicate pre.length (0, 0) ++ (left, right) :: List.replicate post.length (0, 0)
  have hpadding : (List.replicate t.shape.length ((0 : ℤ), (0 : ℤ))).set pre.length (left, right)
      = padding.map fun p => ((p.1 : ℤ), (p.2 : ℤ)) := by
    have hsplit : List.replicate t.shape.length ((0 : ℤ), (0 : ℤ))
        = List.replicate pre.length (0, 0) ++ (0, 0) :: List.replicate post.length (0, 0) := by
      rw [hshape, List.length_append, List.length_cons, ← List.replicate_succ,
        ← List.replicate_add]
    have hset := set_append_length (List.replicate pre.length ((0 : ℤ), (0 : ℤ)))
      (List.replicate post.length (0, 0)) (0, 0) ((left : ℤ), (right : ℤ))
    rw [List.length_replicate] at hset
    rw [hsplit, hset]
    simp [padding]
  obtain ⟨u, hu, hagree⟩ := tryPad_ok t padding (by simp [padding, hshape])
  have hzeros : ∀ l : List ℕ, List.zipWith (fun s (p : ℕ × ℕ) => s + p.1 + p.2) l
      (List.replicate l.length (0, 0)) = l := by
    intro l
    induction l with
    | nil => rfl
    | cons x l ih => simpa [List.replicate_succ] using ih
  have hsame : ∀ l : List ℕ, List.zipWith (fun (p : ℕ × ℕ) x => x - p.1)
      (List.replicate l.length (0, 0)) l = l := by
    intro l
    induction l with
    | nil => rfl
    | cons x l ih => simpa [List.replicate_succ] using ih
  have hle : ∀ l : List ℕ, List.Forall₂ (fun (p : ℕ × ℕ) x => p.1 ≤ x)
      (List.replicate l.length (0, 0)) l := by
    intro l
    induction l with
    | nil => exact .nil
    | cons x l ih => exact .cons (Nat.zero_le _) ih
  have hushape : u.shape = pre ++ (left + d + right) :: post := by
    rw [hagree.shape_eq]
    simp only [NdArray.pad, padding]
    rw [hshape, List.zipWith_append (by simp), List.zipWith_cons_cons, hzeros, hzeros,
      Nat.add_comm d left]
  refine ⟨u, by rw [hpadding]; exact hu, hushape, fun p x q hp hx hq => ?_⟩
  rw [hagree.get_eq _ (by rw [← hagree.shape_eq, hushape]; exact hp.append (.cons hx hq))]
  have hshift : List.zipWith (fun (p : ℕ × ℕ) x => x - p.1) padding (p ++ x :: q)
      = p ++ (x - left) :: q := by
    simp only [padding]
    rw [← hp.length_eq, ← hq.length_eq, List.zipWith_append (by simp), List.zipWith_cons_cons,
      hsame, hsame]
  have hinside : (List.Forall₂ (fun (p : ℕ × ℕ) x => p.1 ≤ x) padding (p ++ x :: q) ∧
      InBounds (p ++ (x - left) :: q) t.shape) ↔ left ≤ x ∧ x - left < d := by
    rw [hshape]
    constructor
    · rintro ⟨h₁, h₂⟩
      have hl : p.length = (List.replicate pre.length ((0 : ℕ), (0 : ℕ))).length := by
        simp [hp.length_eq]
      have hd₁ := List.forall₂_drop pre.length h₁
      have hd₂ := List.forall₂_drop pre.length h₂
      rw [List.drop_left' (by simp), List.drop_left' hp.length_eq] at hd₁
      rw [List.drop_left' hp.length_eq, List.drop_left' rfl] at hd₂
      exact ⟨(List.forall₂_cons.mp hd₁).1, (List.forall₂_cons.mp hd₂).1⟩
    · rintro ⟨h₁, h₂⟩
      refine ⟨?_, hp.append (.cons h₂ hq)⟩
      simp only [padding]
      rw [← hp.length_eq, ← hq.length_eq]
      exact List.rel_append (hle p) (.cons h₁ (hle q))
  simp only [NdArray.pad, hshift]
  by_cases hin : left ≤ x ∧ x - left < d
  · rw [if_pos (hinside.mpr hin), if_pos hin]
  · rw [if_neg (mt hinside.mp hin), if_neg hin]

/-! ## Broadcasting -/

theorem alignLeft_self {n : ℕ} {shape : List ℕ} (h : n = shape.length) :
    Movement.alignLeft n shape = shape := by
  simp [Movement.alignLeft, h]

/-- A shape of the target's rank is expanded to it. -/
theorem broadcastTo_ok (t : NdArray α) {target : List ℕ}
    (h : List.Forall₂ (fun s n => s = n ∨ s = 1) t.shape target) :
    ∃ u, broadcastTo t target = .ok u ∧ u.Agrees (t.expand target) := by
  by_cases heq : t.shape = target
  · exact ⟨t, by rw [broadcastTo, if_pos heq]; rfl, heq ▸ t.expand_self⟩
  have hlen := h.length_eq
  have hlt : ¬ target.length < t.shape.length := by omega
  have hlt' : ¬ t.shape.length < target.length := by omega
  have hchecks : (t.shape.zip target).zipIdx.forM (fun x =>
      ensure (x.1.1 = 1 ∨ x.1.1 = x.1.2)
        (ErrorKind.broadcastIncompatible x.2 x.1.1 x.1.2)) = .ok () := by
    refine forM_ok fun x hx => ensure_of_true ?_ _
    have hmem := (List.mem_zipIdx' hx).2
    exact (List.forall₂_zip h (hmem ▸ List.getElem_mem _)).symm
  obtain ⟨u, hu, hagree⟩ := Movement.tryExpand_ok t h
  refine ⟨u, ?_, hagree⟩
  rw [broadcastTo, if_neg heq, if_neg hlt]
  simp only [if_neg hlt', hchecks, heq, ne_eq, not_true_eq_false, if_false]
  rw [bind_ok rfl]
  exact congrArg uopContext hu

theorem joinDim_right {l r : ℕ} (h : r = l ∨ r = 1) : joinDim l r = some l := by
  rcases h with rfl | rfl
  · exact joinDim_self r
  · exact joinDim_one_right l

theorem broadcastShape_ok {l r : List ℕ} (h : List.Forall₂ (fun s n => s = n ∨ s = 1) r l) :
    Movement.broadcastShape l r = .ok l := by
  have hmap : (l.zip r).mapM (fun p => joinDim p.1 p.2) = some l := by
    induction h with
    | nil => rfl
    | @cons s n r l hsn _ ih =>
      rw [List.zip_cons_cons, List.mapM_cons, joinDim_right hsn, ih]
      rfl
  rw [Movement.broadcastShape, ensure_of_true h.length_eq.symm, bind_ok rfl]
  simp only [hmap]
  rfl

theorem broadcastShape_error {l r : List ℕ} {x : ℕ × ℕ} (hx : x ∈ l.zip r) (hne : x.1 ≠ x.2)
    (hl : x.1 ≠ 1) (hr : x.2 ≠ 1) : ∃ e, Movement.broadcastShape l r = .error e := by
  have hmap : ∀ {ps : List (ℕ × ℕ)}, x ∈ ps → ps.mapM (fun p => joinDim p.1 p.2) = none := by
    intro ps
    induction ps with
    | nil => simp
    | cons p ps ih =>
      intro hmem
      rw [List.mapM_cons]
      rcases List.mem_cons.mp hmem with rfl | hmem
      · rw [joinDim_of_ne hne hl hr]
        rfl
      · cases joinDim p.1 p.2 <;> simp [ih hmem]
  by_cases hlen : l.length = r.length
  · refine ⟨.broadcastShapeMismatch l r, ?_⟩
    rw [Movement.broadcastShape, ensure_of_true hlen, bind_ok rfl]
    simp only [hmap hx]
  · refine ⟨.broadcastShapeMismatch l r, ?_⟩
    rw [Movement.broadcastShape, ensure_of_false hlen]
    rfl

theorem tryBinary_same {β γ : Type} (op : α → β → γ) {a : NdArray α} {b : NdArray β}
    (h : a.shape = b.shape) : tryBinary op a b = .ok (a.map₂ op b) := by
  rw [tryBinary, broadcastForBinop, if_pos h]
  rfl

/-- An operand whose dimensions are the other's or `1` is repeated. -/
theorem tryBinary_expand {β γ : Type} (op : α → β → γ) {a : NdArray α} {b : NdArray β}
    (h : List.Forall₂ (fun s n => s = n ∨ s = 1) b.shape a.shape) :
    ∃ u, tryBinary op a b = .ok u ∧ u.Agrees (a.map₂ op (b.expand a.shape)) := by
  by_cases heq : a.shape = b.shape
  · refine ⟨_, tryBinary_same op heq, rfl, fun c hc => ?_⟩
    have hb := b.expand_self.get_eq c (heq ▸ hc)
    simp only [NdArray.map₂, heq]
    rw [hb]
  obtain ⟨a', ha', haAgree⟩ := broadcastTo_ok a
    (List.forall₂_same.mpr fun _ _ => .inl rfl)
  obtain ⟨b', hb', hbAgree⟩ := broadcastTo_ok b h
  have hbroadcast : broadcastForBinop a b = .ok (a', b') := by
    have hlen := h.length_eq
    rw [broadcastForBinop, if_neg heq]
    simp only [alignLeft_self (show max a.shape.length b.shape.length = a.shape.length by omega),
      alignLeft_self (show max a.shape.length b.shape.length = b.shape.length by omega),
      broadcastShape_ok h, uopContext]
    rw [bind_ok rfl, bind_ok ha', bind_ok hb']
    rfl
  have ha : a'.Agrees a := haAgree.trans ⟨rfl, fun c hc => (a.expand_self.get_eq c hc).symm⟩
  refine ⟨_, by rw [tryBinary, bind_ok hbroadcast]; rfl, ha.shape_eq, fun c hc => ?_⟩
  simp only [NdArray.map₂]
  rw [ha.get_eq c hc, hbAgree.get_eq c hc]

/-- Dimensions that differ and are both other than `1` do not broadcast. -/
theorem tryBinary_error {β γ : Type} (op : α → β → γ) {a : NdArray α} {b : NdArray β}
    (hlen : a.shape.length = b.shape.length) {x : ℕ × ℕ} (hx : x ∈ a.shape.zip b.shape)
    (hne : x.1 ≠ x.2) (hl : x.1 ≠ 1) (hr : x.2 ≠ 1) : ∃ e, tryBinary op a b = .error e := by
  have heq : a.shape ≠ b.shape := by
    intro heq
    rw [heq] at hx
    obtain ⟨d, hd, rfl⟩ := List.getElem_of_mem hx
    rw [List.getElem_zip] at hne
    exact hne rfl
  obtain ⟨e, he⟩ := broadcastShape_error hx hne hl hr
  refine ⟨.uop e, ?_⟩
  rw [tryBinary, broadcastForBinop, if_neg heq]
  simp only [alignLeft_self (show max a.shape.length b.shape.length = a.shape.length by omega),
    alignLeft_self (show max a.shape.length b.shape.length = b.shape.length by omega),
    he, uopContext]
  rfl

end Svod.Tensor.Nd
