/-
  Svod.Tensor.PoolAdjoint

  When `pool` extracts the windows and `col2im` is its adjoint.

  `pool` fails on one output rank only, 64.  `col2im` adds every entry at its
  place when each stride divides what the block leaves of the padded image.
  Otherwise the slice is shorter than the image: it is refused, or, when it is a
  single element, it is repeated over the whole axis.
-/

import Mathlib.Algebra.Order.Floor.Div
import Mathlib.Algebra.BigOperators.Ring.List
import Svod.Tensor.Col2imSound

namespace Svod.Tensor.Nd

open Svod.Lib Svod.Ir

variable {α : Type}
variable {axes : List ColAxis} {p : List ℕ}

/-! ## What `col2im` returns -/

/-- The arguments describe columns of `n` images with `c` channels. -/
structure ColumnsOf (shape imageShape blockShape : List ℕ) (strides : Option (List ℕ))
    (pads : Option (List (ℤ × ℤ))) (dilations : Option (List ℕ)) (n c : ℕ) : Prop where
  block_length : blockShape.length = imageShape.length
  strides_length : ∀ s ∈ strides, s.length = imageShape.length
  pads_length : ∀ p ∈ pads, p.length = imageShape.length
  dilations_length : ∀ d ∈ dilations, d.length = imageShape.length
  valid : ∀ a ∈ colAxes imageShape blockShape strides pads dilations, a.Valid
  /-- The position count matches. -/
  shape_eq : shape = [n, c * blockShape.prod,
    ((colAxes imageShape blockShape strides pads dilations).map (·.positions)).prod]

/-- Every shape a call reads back fits the machine words. -/
def ColumnsReadable (imageShape blockShape : List ℕ) (strides : Option (List ℕ))
    (pads : Option (List (ℤ × ℤ))) (dilations : Option (List ℕ)) (n c : ℕ) : Prop :=
  ∀ s ∈ col2imShapes (colAxes imageShape blockShape strides pads dilations) blockShape imageShape
    n c, Readable s

instance (imageShape blockShape : List ℕ) (strides : Option (List ℕ))
    (pads : Option (List (ℤ × ℤ))) (dilations : Option (List ℕ)) (n c : ℕ) :
    Decidable (ColumnsReadable imageShape blockShape strides pads dilations n c) :=
  inferInstanceAs (Decidable (∀ _ ∈ _, _))

section Columns

variable {shape imageShape blockShape : List ℕ} {strides : Option (List ℕ)}
  {pads : Option (List (ℤ × ℤ))} {dilations : Option (List ℕ)} {n c : ℕ}

theorem colAxes_image : (colAxes imageShape blockShape strides pads dilations).map (·.image)
    = imageShape := by
  simp only [colAxes, List.map_map]
  refine List.ext_getElem (by simp) fun d h₁ h₂ => ?_
  simp [List.getElem?_eq_getElem h₂]

theorem ColumnsOf.blocks (h : ColumnsOf shape imageShape blockShape strides pads dilations n c) :
    (colAxes imageShape blockShape strides pads dilations).map (·.block) = blockShape := by
  simp only [colAxes, List.map_map]
  refine List.ext_getElem (by simp [h.block_length]) fun d h₁ h₂ => ?_
  simp [List.getElem?_eq_getElem h₂]

theorem ColumnsOf.block_pos (h : ColumnsOf shape imageShape blockShape strides pads dilations n c) :
    0 < blockShape.prod := by
  rw [← h.blocks]
  refine Nat.pos_of_ne_zero fun h0 => ?_
  obtain ⟨a, ha, h0⟩ := List.mem_map.mp (List.prod_eq_zero_iff.mp h0)
  have := (h.valid a ha).block_pos
  omega

end Columns

/-- The padded coordinates of an image position. -/
def padCoords (axes : List ColAxis) (p : List ℕ) : List ℕ :=
  List.zipWith (fun a x => a.padBefore.toNat + x) axes p

theorem padCoords_inBounds (h : ∀ a ∈ axes, a.Valid) (hp : InBounds p (axes.map (·.image))) :
    InBounds (padCoords axes p) (axes.map (·.padded)) := by
  induction axes generalizing p with
  | nil => simp [padCoords]
  | cons a axes ih =>
    obtain _ | ⟨x, p⟩ := p
    · simp at hp
    obtain ⟨hx, hps⟩ := List.forall₂_cons.mp hp
    refine .cons ?_ (ih (fun a ha => h a (by simp [ha])) hps)
    have ha := h a (by simp)
    have hb := ha.padBefore_nonneg
    have he := ha.padAfter_nonneg
    change x < a.image at hx
    show a.padBefore.toNat + x < a.padded
    simp only [ColAxis.padded]
    omega

/-- The entries of the columns that the code adds at an image position. -/
def addedAt [AddCommMonoid α] (t : NdArray α) (axes : List ColAxis) (blockShape : List ℕ)
    (ni ci : ℕ) (x : List ℕ) : α :=
  ((coords blockShape).map fun k =>
    ((hits (axes.zip k) x).map fun l =>
      t.get [ni, ci * blockShape.prod + ravel blockShape k,
        ravel (axes.map (·.positions)) l]).getD 0).sum

variable {imageShape blockShape : List ℕ} {strides : Option (List ℕ)}
  {pads : Option (List (ℤ × ℤ))} {dilations : Option (List ℕ)} {n c : ℕ}

/-- Where the slices broadcast, `col2im` adds their entries at clipped coordinates. -/
theorem col2im_ok [AddCommMonoid α] (t : NdArray α)
    (h : ColumnsOf t.shape imageShape blockShape strides pads dilations n c)
    (hreads : ColumnsReadable imageShape blockShape strides pads dilations n c)
    (hbroadcasts : Broadcasts (colAxes imageShape blockShape strides pads dilations)) :
    ∃ u, col2im t imageShape blockShape strides pads dilations = .ok u ∧
      u.shape = n :: c :: imageShape ∧
      ∀ ni ci p, ni < n → ci < c → InBounds p imageShape →
        u.get (ni :: ci :: p) =
          addedAt t (colAxes imageShape blockShape strides pads dilations) blockShape ni ci
            (clip (colAxes imageShape blockShape strides pads dilations)
              (padCoords (colAxes imageShape blockShape strides pads dilations) p)) := by
  have hblocks := h.blocks
  have himages : (colAxes imageShape blockShape strides pads dilations).map (·.image)
    = imageShape := colAxes_image
  have hvalid := h.valid
  have hshape := h.shape_eq
  have hbl := h.block_pos
  unfold ColumnsReadable at hreads
  generalize hax : colAxes imageShape blockShape strides pads dilations = axes at *
  have hc : c * blockShape.prod / blockShape.prod = c := Nat.mul_div_cancel _ hbl
  have hn : t.shape.getD 0 0 = n := by rw [hshape]; rfl
  have hcb : t.shape.getD 1 0 = c * blockShape.prod := by rw [hshape]; rfl
  obtain ⟨data, hdata, hdAgree⟩ := tryReshape_ok t
    (n * c :: blockShape ++ axes.map (·.positions)) (by
      rw [hshape]
      simp [Nat.mul_assoc])
  have hdshape : data.shape = n * c :: axes.map (·.block) ++ axes.map (·.positions) := by
    rw [hdAgree.shape_eq, hblocks]
    rfl
  obtain ⟨sum, hsum, hsshape, hsget⟩ := foldlM_slices hvalid hbroadcasts hblocks hdshape
    (List.range blockShape.prod) (fun be hbe => List.mem_range.mp hbe)
    (zeros (n * c :: axes.map (·.padded))) rfl
  -- the crop
  have hfits : List.Forall₂ ShrinkRange.Fits
      (.isize 0 (n * c : ℕ) :: axes.map fun a => .isize a.padBefore (a.padBefore + a.image))
      sum.shape := by
    rw [hsshape]
    refine .cons ⟨⟨Int.le_refl _, Int.natCast_nonneg _⟩, Nat.zero_le _, Nat.le_refl _⟩
      (List.forall₂_map_left_iff.mpr (List.forall₂_map_right_iff.mpr
        (List.forall₂_same.mpr fun a ha => ?_)))
    have hb := (hvalid a ha).padBefore_nonneg
    have he := (hvalid a ha).padAfter_nonneg
    refine ⟨⟨hb, by omega⟩, ?_, ?_⟩ <;> simp only [ShrinkRange.bounds, ColAxis.padded] <;> omega
  obtain ⟨crop, hcrop, hcAgree⟩ := tryShrink_ok sum hfits
  have hoffsets : List.zipWith (fun (r : ShrinkRange) s => (r.bounds s).1)
      (.isize 0 (n * c : ℕ) :: axes.map fun a => .isize a.padBefore (a.padBefore + a.image))
      sum.shape = 0 :: axes.map (·.padBefore.toNat) := by
    rw [hsshape, List.zipWith_cons_cons]
    congr 1
    refine List.ext_getElem (by simp) fun d _ _ => by simp [ShrinkRange.bounds]
  have hsizes : List.zipWith (fun (r : ShrinkRange) s => (r.bounds s).2 - (r.bounds s).1)
      (.isize 0 (n * c : ℕ) :: axes.map fun a => .isize a.padBefore (a.padBefore + a.image))
      sum.shape = n * c :: imageShape := by
    rw [hsshape, List.zipWith_cons_cons, ← himages]
    congr 1
    refine List.ext_getElem (by simp) fun d hd _ => ?_
    have hd' : d < axes.length := by simpa using hd
    have hb := (hvalid axes[d] (List.getElem_mem hd')).padBefore_nonneg
    simp only [List.getElem_zipWith, List.getElem_map, ShrinkRange.bounds]
    omega
  rw [hoffsets, hsizes] at hcAgree
  obtain ⟨u, hu, huAgree⟩ := tryReshape_ok crop (n :: c :: imageShape) (by
    rw [hcAgree.shape_eq]
    simp [NdArray.shrink, Nat.mul_assoc])
  refine ⟨u, ?_, huAgree.shape_eq, fun ni ci p hni hci hp => ?_⟩
  · rw [col2im]
    simp only [hax, hn, hcb, hc]
    rw [ensure_of_true (Dvd.intro_left c rfl), bind_ok rfl, ensure_of_true hreads, bind_ok rfl,
      bind_ok hdata, bind_ok hsum, bind_ok hcrop]
    exact hu
  · have hmerge : SamePosition ([n * c] ++ imageShape) ([ni * c + ci] ++ p)
        ([n, c] ++ imageShape) ([ni, ci] ++ p) :=
      (SamePosition.merge hni hci).symm.append (.refl hp)
    have hx₀ : ni * c + ci < n * c := (List.forall₂_cons.mp hmerge.inBounds).1
    have hpadded := padCoords_inBounds hvalid (himages ▸ hp)
    have hread : u.get (ni :: ci :: p) = sum.get ((ni * c + ci) :: padCoords axes p) := by
      calc u.get (ni :: ci :: p)
          = (crop.reshape (n :: c :: imageShape)).get (ni :: ci :: p) :=
            huAgree.get_eq _ hmerge.inBounds'
        _ = crop.get ((ni * c + ci) :: p) := by
            refine crop.reshape_get ?_
            rw [hcAgree.shape_eq]
            exact hmerge
        _ = sum.get (List.zipWith (· + ·) (0 :: axes.map (·.padBefore.toNat))
              ((ni * c + ci) :: p)) := hcAgree.get_eq _ hmerge.inBounds
        _ = sum.get ((ni * c + ci) :: padCoords axes p) := by
            rw [List.zipWith_cons_cons, Nat.zero_add, List.zipWith_map_left]
            rfl
    rw [hread, hsget _ _ hx₀ hpadded, addedAt, coords, List.map_map]
    refine (zero_add _).trans (congrArg List.sum (List.map_congr_left fun be hbe => ?_))
    have hk := unravel_inBounds (List.mem_range.mp hbe)
    simp only [Function.comp_apply, contribution]
    cases hhits : hits (axes.zip (unravel blockShape be)) (clip axes (padCoords axes p)) with
    | none => rfl
    | some l =>
      have hl := hits_inBounds hvalid (hblocks ▸ hk)
        (by rw [(clip_inBounds hbroadcasts hpadded).length_eq, List.length_map]) hhits
      simp only [Option.map_some, Option.getD_some]
      -- the same element of the columns, in the shape of the data and in their own
      have hpos : SamePosition t.shape
          [ni, ci * blockShape.prod + ravel blockShape (unravel blockShape be),
            ravel (axes.map (·.positions)) l]
          (n * c :: blockShape ++ axes.map (·.positions))
          ((ni * c + ci) :: unravel blockShape be ++ l) := by
        have hchannel : SamePosition [n, c * blockShape.prod]
            [ni, ci * blockShape.prod + ravel blockShape (unravel blockShape be)]
            ([n * c] ++ blockShape) ([ni * c + ci] ++ unravel blockShape be) := by
          have h₁ := (SamePosition.merge hni hci).symm.append (.flat hk)
          have h₂ := (SamePosition.refl (.cons hni .nil)).append
            (SamePosition.merge hci (ravel_lt hk)).symm
          exact h₂.trans h₁.symm
        rw [hshape]
        exact hchannel.append (SamePosition.flat hl).symm
      exact (hdAgree.get_eq _ hpos.inBounds').trans (t.reshape_get hpos)

/-! ## The reference -/

/-- Image position of sliding position `l` of kernel position `k`. -/
def entryPosition (axes : List ColAxis) (k l : List ℕ) : List ℤ :=
  List.zipWith (fun c l => ((l * c.1.stride + c.2 * c.1.dilation : ℕ) : ℤ) - c.1.padBefore)
    (axes.zip k) l

/-- `u` holds at each image position the sum of the entries that lie there. -/
structure IsCol2im [AddCommMonoid α] (u t : NdArray α) (axes : List ColAxis)
    (imageShape blockShape : List ℕ) (n c : ℕ) : Prop where
  shape_eq : u.shape = n :: c :: imageShape
  get_eq : ∀ ni ci p, ni < n → ci < c → InBounds p imageShape →
    u.get (ni :: ci :: p) =
      ((coords blockShape).map fun k => ((coords (axes.map (·.positions))).map fun l =>
        if entryPosition axes k l = p.map (↑) then
          t.get [ni, ci * blockShape.prod + ravel blockShape k,
            ravel (axes.map (·.positions)) l]
        else 0).sum).sum

/-- An entry lies at an image position when it lands on its padded coordinates. -/
theorem entryPosition_eq_iff {k l p : List ℕ} (h : ∀ a ∈ axes, a.Valid)
    (hk : k.length = axes.length) (hl : l.length = axes.length) (hp : p.length = axes.length) :
    entryPosition axes k l = p.map (↑) ↔ landing (axes.zip k) l = padCoords axes p := by
  induction axes generalizing k l p with
  | nil => simp_all [entryPosition, landing, padCoords]
  | cons a axes ih =>
    obtain _ | ⟨k₀, k⟩ := k
    · simp at hk
    obtain _ | ⟨l₀, l⟩ := l
    · simp at hl
    obtain _ | ⟨x, p⟩ := p
    · simp at hp
    have hrest := ih (k := k) (l := l) (p := p) (fun b hb => h b (by simp [hb]))
      (by simpa using hk) (by simpa using hl) (by simpa using hp)
    have hpad := (h a (by simp)).padBefore_nonneg
    simp only [entryPosition, landing, padCoords, List.zip_cons_cons, List.zipWith_cons_cons,
      List.map_cons, List.cons.injEq] at hrest ⊢
    rw [hrest]
    refine and_congr_left fun _ => ?_
    omega

theorem sum_map_eq_zero {ι β : Type} [AddCommMonoid β] {L : List ι} {f : ι → β}
    (h : ∀ x ∈ L, f x = 0) : (L.map f).sum = 0 := by
  induction L with
  | nil => rfl
  | cons x L ih =>
    rw [List.map_cons, List.sum_cons, h x (by simp), ih fun y hy => h y (by simp [hy]), zero_add]

/-- A sum whose terms vanish except at one element. -/
theorem sum_map_eq_single {ι β : Type} [AddCommMonoid β] {L : List ι} {f : ι → β} {a : ι}
    (hnodup : L.Nodup) (ha : a ∈ L) (h : ∀ x ∈ L, x ≠ a → f x = 0) : (L.map f).sum = f a := by
  induction L with
  | nil => simp at ha
  | cons x L ih =>
    obtain ⟨hx, hnodup⟩ := List.nodup_cons.mp hnodup
    rw [List.map_cons, List.sum_cons]
    by_cases hxa : x = a
    · subst hxa
      rw [sum_map_eq_zero fun y hy => h y (by simp [hy]) fun hyx => hx (hyx ▸ hy), add_zero]
    · rw [h x (by simp) hxa, zero_add]
      refine ih hnodup ?_ fun y hy => h y (by simp [hy])
      rcases List.mem_cons.mp ha with rfl | ha
      · exact absurd rfl hxa
      · exact ha

/-- At most one sliding position of a kernel position lands on given coordinates. -/
theorem sum_landing [AddCommMonoid α] {k x : List ℕ} (hvalid : ∀ a ∈ axes, a.Valid)
    (hk : InBounds k (axes.map (·.block))) (hx : x.length = axes.length) (f : List ℕ → α) :
    ((coords (axes.map (·.positions))).map fun l =>
        if landing (axes.zip k) l = x then f l else 0).sum
      = ((hits (axes.zip k) x).map f).getD 0 := by
  have hlen : k.length = axes.length := by simpa using hk.length_eq
  have hiff : ∀ l, hits (axes.zip k) x = some l ↔
      InBounds l (axes.map (·.positions)) ∧ landing (axes.zip k) l = x := by
    intro l
    have := hits_eq_some (l := l) (cellsValid_zip hvalid hk) (x := x) (by simp [hx, hlen])
    rwa [map_zip_fst hlen] at this
  cases hhits : hits (axes.zip k) x with
  | none =>
    refine sum_map_eq_zero fun l hl => if_neg fun hland => ?_
    have := (hiff l).mpr ⟨mem_coords.mp hl, hland⟩
    simp [hhits] at this
  | some l₀ =>
    obtain ⟨hin, hland⟩ := (hiff l₀).mp hhits
    rw [sum_map_eq_single (coords_nodup _) (mem_coords.mpr hin), if_pos hland]
    · rfl
    · intro l hl hne
      refine if_neg fun hland' => hne ?_
      have := (hiff l).mpr ⟨mem_coords.mp hl, hland'⟩
      rw [hhits] at this
      exact (Option.some.inj this).symm

/-- The reference sum, in terms of the positions found at padded coordinates. -/
theorem reference_eq_addedAt [AddCommMonoid α] (t : NdArray α) {blockShape p : List ℕ}
    (hvalid : ∀ a ∈ axes, a.Valid) (hblocks : axes.map (·.block) = blockShape)
    (hp : InBounds p (axes.map (·.image))) (ni ci : ℕ) :
    ((coords blockShape).map fun k => ((coords (axes.map (·.positions))).map fun l =>
        if entryPosition axes k l = p.map (↑) then
          t.get [ni, ci * blockShape.prod + ravel blockShape k,
            ravel (axes.map (·.positions)) l]
        else 0).sum).sum
      = addedAt t axes blockShape ni ci (padCoords axes p) := by
  refine congrArg List.sum (List.map_congr_left fun k hk => ?_)
  have hk' : InBounds k (axes.map (·.block)) := hblocks ▸ mem_coords.mp hk
  have hpl : p.length = axes.length := by simpa using hp.length_eq
  have hxl : (padCoords axes p).length = axes.length := by simp [padCoords, hpl]
  rw [← sum_landing hvalid hk' hxl]
  refine congrArg List.sum (List.map_congr_left fun l hl => ?_)
  have hll : l.length = axes.length := by simpa using (mem_coords.mp hl).length_eq
  have hiff := entryPosition_eq_iff hvalid (by simpa using hk'.length_eq) hll hpl
  by_cases hland : landing (axes.zip k) l = padCoords axes p
  · rw [if_pos hland, if_pos (hiff.mpr hland)]
  · rw [if_neg hland, if_neg (mt hiff.mp hland)]

/-! ## Slices that do not fit -/

/-- A shape that is not read back. -/
theorem col2im_error_of_not_readable [AddCommMonoid α] (t : NdArray α)
    (h : ColumnsOf t.shape imageShape blockShape strides pads dilations n c)
    (hreads : ¬ ColumnsReadable imageShape blockShape strides pads dilations n c) :
    col2im t imageShape blockShape strides pads dilations = .error .shapeUnknown := by
  have hc : c * blockShape.prod / blockShape.prod = c := Nat.mul_div_cancel _ h.block_pos
  have hn : t.shape.getD 0 0 = n := by rw [h.shape_eq]; rfl
  have hcb : t.shape.getD 1 0 = c * blockShape.prod := by rw [h.shape_eq]; rfl
  unfold ColumnsReadable at hreads
  rw [col2im]
  simp only [hn, hcb, hc]
  rw [ensure_of_true (Dvd.intro_left c rfl), bind_ok rfl, ensure_of_false hreads]
  rfl

/-- A slice that is neither as long as the padded image nor a single element is refused. -/
theorem col2im_error [AddCommMonoid α] (t : NdArray α)
    (h : ColumnsOf t.shape imageShape blockShape strides pads dilations n c)
    (hreads : ColumnsReadable imageShape blockShape strides pads dilations n c)
    (hbroadcasts : ¬ Broadcasts (colAxes imageShape blockShape strides pads dilations)) :
    ∃ e, col2im t imageShape blockShape strides pads dilations = .error e := by
  have hblocks := h.blocks
  have hvalid := h.valid
  have hshape := h.shape_eq
  have hbl := h.block_pos
  unfold ColumnsReadable at hreads
  generalize hax : colAxes imageShape blockShape strides pads dilations = axes at *
  have hc : c * blockShape.prod / blockShape.prod = c := Nat.mul_div_cancel _ hbl
  have hn : t.shape.getD 0 0 = n := by rw [hshape]; rfl
  have hcb : t.shape.getD 1 0 = c * blockShape.prod := by rw [hshape]; rfl
  obtain ⟨data, hdata, hdAgree⟩ := tryReshape_ok t
    (n * c :: blockShape ++ axes.map (·.positions)) (by
      rw [hshape]
      simp [Nat.mul_assoc])
  have hdshape : data.shape = n * c :: axes.map (·.block) ++ axes.map (·.positions) := by
    rw [hdAgree.shape_eq, hblocks]
    rfl
  -- the first slice already fails to be added
  have hkpos : InBounds (unravelBlock blockShape 0) (axes.map (·.block)) := by
    rw [unravelBlock_eq hbl, hblocks]
    exact unravel_inBounds hbl
  obtain ⟨slice, hs, hss, -⟩ := col2imSlice_ok data hvalid hkpos hdshape
  simp only [Broadcasts] at hbroadcasts
  push Not at hbroadcasts
  obtain ⟨a, ha, hwp, hw1⟩ := hbroadcasts
  have hle := ColAxis.width_le_padded (hvalid a ha)
  have hwpos : 1 ≤ a.width := by simp only [ColAxis.width]; omega
  have hmem : (a.padded, a.width) ∈
      (zeros (n * c :: axes.map (·.padded)) : NdArray α).shape.zip slice.shape := by
    simp only [zeros]
    rw [hss, List.zip_cons_cons, List.zip_map']
    exact List.mem_cons_of_mem _ (List.mem_map.mpr ⟨a, ha, rfl⟩)
  obtain ⟨e, he⟩ := tryBinary_error (· + ·)
    (a := zeros (n * c :: axes.map (·.padded))) (by simp [zeros, hss]) hmem (Ne.symm hwp)
    (by simp only; omega) hw1
  have hrange : List.range blockShape.prod
      = 0 :: (List.range (blockShape.prod - 1)).map (· + 1) := by
    rw [← Nat.succ_pred_eq_of_pos hbl, List.range_succ_eq_map]
    rfl
  refine ⟨e, ?_⟩
  rw [col2im]
  simp only [hax, hn, hcb, hc]
  rw [ensure_of_true (Dvd.intro_left c rfl), bind_ok rfl, ensure_of_true hreads, bind_ok rfl,
    bind_ok hdata, hrange, List.foldlM_cons, bind_ok hs]
  simp only [tryAdd]
  rw [he]
  rfl

/-! ## When every entry lands in its place -/

namespace ColAxis

/-- A single block entry with a single position. -/
def Single (a : ColAxis) : Prop := a.block = 1 ∧ a.positions = 1

/-- No entry lies inside the image on this axis. -/
def Missed (a : ColAxis) : Prop :=
  a.image = 0 ∨ a.Divides ∧ ∀ k < a.block, ∀ l < a.positions,
    ¬ (a.padBefore ≤ (l * a.stride + k * a.dilation : ℕ) ∧
      ((l * a.stride + k * a.dilation : ℕ) : ℤ) < a.padBefore + a.image)

/-- The image shows the first position of the padded axis only. -/
def FirstOnly (a : ColAxis) : Prop := a.padBefore = 0 ∧ a.image ≤ 1

end ColAxis

/-- Every slice fits the padded image, or is a single element that is repeated where no image
    position shows it twice. -/
def ColumnsLand (axes : List ColAxis) (n c : ℕ) : Prop :=
  (∀ a ∈ axes, a.Divides ∨ a.Single) ∧
    (n * c = 0 ∨ (∃ a ∈ axes, a.Missed) ∨ ∀ a ∈ axes, a.Divides ∨ a.FirstOnly)

theorem broadcasts_iff (h : ∀ a ∈ axes, a.Valid) :
    Broadcasts axes ↔ ∀ a ∈ axes, a.Divides ∨ a.Single :=
  forall₂_congr fun a ha => or_congr (ColAxis.width_eq_padded_iff (h a ha))
    (ColAxis.width_eq_one_iff (h a ha))

/-- Clipping changes nothing the image shows. -/
theorem clip_padCoords (h : ∀ a ∈ axes, a.Valid) (hland : ∀ a ∈ axes, a.Divides ∨ a.FirstOnly)
    (hp : InBounds p (axes.map (·.image))) : clip axes (padCoords axes p) = padCoords axes p := by
  induction axes generalizing p with
  | nil => simp [clip, padCoords]
  | cons a axes ih =>
    obtain _ | ⟨x, p⟩ := p
    · simp at hp
    obtain ⟨hx, hps⟩ := List.forall₂_cons.mp hp
    have hrest := ih (fun b hb => h b (by simp [hb])) (fun b hb => hland b (by simp [hb])) hps
    have ha := h a (by simp)
    have hhead : (if a.width = 1 then 0 else a.padBefore.toNat + x) = a.padBefore.toNat + x := by
      have hbefore := ha.padBefore_nonneg
      have hafter := ha.padAfter_nonneg
      change x < a.image at hx
      split
      · rename_i hw
        rcases hland a (by simp) with hd | ⟨hp0, hi⟩
        · have hpw := (ColAxis.width_eq_padded_iff ha).mpr hd
          rw [hw] at hpw
          simp only [ColAxis.padded] at hpw
          omega
        · omega
      · rfl
    simp only [clip, padCoords, List.zipWith_cons_cons, hhead] at hrest ⊢
    rw [hrest]

/-- On a missed axis nothing is found, whatever the clipping. -/
theorem hits_of_missed (h : ∀ a ∈ axes, a.Valid) (hmissed : ∃ a ∈ axes, a.Missed) {k p : List ℕ}
    (hk : InBounds k (axes.map (·.block))) (hp : InBounds p (axes.map (·.image))) :
    hits (axes.zip k) (clip axes (padCoords axes p)) = none ∧
      hits (axes.zip k) (padCoords axes p) = none := by
  induction axes generalizing k p with
  | nil => simp at hmissed
  | cons a axes ih =>
    obtain _ | ⟨x, p⟩ := p
    · simp at hp
    obtain _ | ⟨k₀, k⟩ := k
    · simp at hk
    obtain ⟨hx, hps⟩ := List.forall₂_cons.mp hp
    obtain ⟨hk₀, hks⟩ := List.forall₂_cons.mp hk
    have ha := h a (by simp)
    simp only [clip, padCoords, List.zip_cons_cons, List.zipWith_cons_cons, hits]
    obtain ⟨b, hb, hmb⟩ := hmissed
    rcases List.mem_cons.mp hb with rfl | hb
    · rcases hmb with h0 | ⟨hd, hmiss⟩
      · change x < b.image at hx
        omega
      · have hbefore := ha.padBefore_nonneg
        have hafter := ha.padAfter_nonneg
        change x < b.image at hx
        change k₀ < b.block at hk₀
        have hhead : (if b.width = 1 then 0 else b.padBefore.toNat + x)
            = b.padBefore.toNat + x := by
          have hpw := (ColAxis.width_eq_padded_iff ha).mpr hd
          simp only [ColAxis.padded] at hpw
          split <;> omega
        have hnone : b.hit k₀ (b.padBefore.toNat + x) = none := by
          rw [Option.eq_none_iff_forall_ne_some]
          intro l hl
          obtain ⟨hlt, heq⟩ := (ColAxis.hit_eq_some ha).mp hl
          exact hmiss k₀ hk₀ l hlt (by omega)
        rw [hhead, hnone]
        exact ⟨rfl, rfl⟩
    · obtain ⟨h₁, h₂⟩ := ih (fun b hb => h b (by simp [hb])) ⟨b, hb, hmb⟩ hks hps
      simp only [clip, padCoords] at h₁ h₂
      rw [h₁, h₂]
      simp

/-- On an axis that is not missed, an entry the code adds inside the image; where a repeated slice
    shows elsewhere, an entry that does not lie there. -/
theorem ColAxis.exists_added {a : ColAxis} (h : a.Valid) (hfit : a.Divides ∨ a.Single)
    (hmissed : ¬ a.Missed) : ∃ k l x, k < a.block ∧ l < a.positions ∧ x < a.image ∧
      a.hit k (if a.width = 1 then 0 else a.padBefore.toNat + x) = some l ∧
      (¬ (a.Divides ∨ a.FirstOnly) →
        l * a.stride + k * a.dilation ≠ a.padBefore.toNat + x) := by
  have hbefore := h.padBefore_nonneg
  have hafter := h.padAfter_nonneg
  rw [Missed, not_or] at hmissed
  obtain ⟨himage, hmissed⟩ := hmissed
  by_cases hd : a.Divides
  · -- some entry lies inside the image, and the slice is not clipped there
    have hreach : ∃ k < a.block, ∃ l < a.positions,
        a.padBefore ≤ (l * a.stride + k * a.dilation : ℕ) ∧
          ((l * a.stride + k * a.dilation : ℕ) : ℤ) < a.padBefore + a.image := by
      by_contra hno
      push Not at hno
      exact hmissed ⟨hd, fun k hk l hl hin => absurd hin.2 (not_lt.mpr (hno k hk l hl hin.1))⟩
    obtain ⟨k, hk, l, hl, hge, hlt⟩ := hreach
    refine ⟨k, l, l * a.stride + k * a.dilation - a.padBefore.toNat, hk, hl, by omega, ?_,
      fun hbad => absurd (.inl hd) hbad⟩
    have hx : a.padBefore.toNat + (l * a.stride + k * a.dilation - a.padBefore.toNat)
        = l * a.stride + k * a.dilation := by omega
    have hhead : (if a.width = 1 then 0 else l * a.stride + k * a.dilation)
        = l * a.stride + k * a.dilation := by
      have hpw := (ColAxis.width_eq_padded_iff h).mpr hd
      simp only [ColAxis.padded] at hpw
      split <;> omega
    rw [hx, hhead]
    exact (ColAxis.hit_eq_some h).mpr ⟨hl, rfl⟩
  · -- the single element is repeated over the whole axis
    have hsingle : a.Single := hfit.resolve_left hd
    have hw : a.width = 1 := (ColAxis.width_eq_one_iff h).mpr hsingle
    have hhit : a.hit 0 0 = some 0 :=
      (ColAxis.hit_eq_some h).mpr ⟨by rw [hsingle.2]; decide, by simp⟩
    by_cases hp : a.padBefore = 0
    · refine ⟨0, 0, a.image - 1, by rw [hsingle.1]; decide, by rw [hsingle.2]; decide, by omega,
        by rw [if_pos hw]; exact hhit, fun hbad => ?_⟩
      have : ¬ a.image ≤ 1 := fun hi => hbad (.inr ⟨hp, hi⟩)
      omega
    · refine ⟨0, 0, 0, by rw [hsingle.1]; decide, by rw [hsingle.2]; decide, by omega,
        by rw [if_pos hw]; exact hhit, fun _ => ?_⟩
      omega

/-- The same on all axes. -/
theorem exists_added {axes : List ColAxis} (h : ∀ a ∈ axes, a.Valid)
    (hfit : ∀ a ∈ axes, a.Divides ∨ a.Single) (hmissed : ∀ a ∈ axes, ¬ a.Missed) :
    ∃ k l p, InBounds k (axes.map (·.block)) ∧ InBounds l (axes.map (·.positions)) ∧
      InBounds p (axes.map (·.image)) ∧
      hits (axes.zip k) (clip axes (padCoords axes p)) = some l ∧
      ((∃ a ∈ axes, ¬ (a.Divides ∨ a.FirstOnly)) →
        landing (axes.zip k) l ≠ padCoords axes p) := by
  induction axes with
  | nil => exact ⟨[], [], [], .nil, .nil, .nil, rfl, fun ⟨a, ha, _⟩ => absurd ha (by simp)⟩
  | cons a axes ih =>
    obtain ⟨k₀, l₀, x, hk₀, hl₀, hx, hhit, hne⟩ :=
      ColAxis.exists_added (h a (by simp)) (hfit a (by simp)) (hmissed a (by simp))
    obtain ⟨k, l, p, hk, hl, hp, hhits, hnes⟩ := ih (fun b hb => h b (by simp [hb]))
      (fun b hb => hfit b (by simp [hb])) fun b hb => hmissed b (by simp [hb])
    refine ⟨k₀ :: k, l₀ :: l, x :: p, .cons hk₀ hk, .cons hl₀ hl, .cons hx hp, ?_, ?_⟩
    · simp only [clip, padCoords] at hhits
      simp only [clip, padCoords, List.zip_cons_cons, List.zipWith_cons_cons, hits, hhit, hhits]
      rfl
    · rintro ⟨b, hb, hbad⟩ heq
      simp only [landing, padCoords, List.zip_cons_cons, List.zipWith_cons_cons,
        List.cons.injEq] at heq
      rcases List.mem_cons.mp hb with rfl | hb
      · exact hne hbad heq.1
      · exact hnes ⟨b, hb, hbad⟩ heq.2

/-- The columns whose only entry is at kernel position `k` and sliding position `l` of the first
    channel. -/
def unitColumns (shape : List ℕ) (e : List ℕ) : NdArray ℤ := ⟨shape, fun c => if c = e then 1 else 0⟩

theorem isCol2im_of_columnsLand [AddCommMonoid α] (t : NdArray α)
    (h : ColumnsOf t.shape imageShape blockShape strides pads dilations n c)
    (hreads : ColumnsReadable imageShape blockShape strides pads dilations n c)
    (hland : ColumnsLand (colAxes imageShape blockShape strides pads dilations) n c) :
    ∃ u, col2im t imageShape blockShape strides pads dilations = .ok u ∧
      IsCol2im u t (colAxes imageShape blockShape strides pads dilations) imageShape blockShape
        n c := by
  obtain ⟨u, hu, hushape, huget⟩ := col2im_ok t h hreads ((broadcasts_iff h.valid).mpr hland.1)
  refine ⟨u, hu, hushape, fun ni ci p hni hci hp => ?_⟩
  have hp' : InBounds p
      ((colAxes imageShape blockShape strides pads dilations).map (·.image)) := by
    rw [colAxes_image]
    exact hp
  rw [huget ni ci p hni hci hp, reference_eq_addedAt t h.valid h.blocks hp' ni ci]
  rcases hland.2 with h0 | hmissed | hfirst
  · have : 0 < n * c := Nat.mul_pos (by omega) (by omega)
    omega
  · simp only [addedAt]
    refine congrArg List.sum (List.map_congr_left fun k hk => ?_)
    obtain ⟨h₁, h₂⟩ := hits_of_missed h.valid hmissed (h.blocks ▸ mem_coords.mp hk) hp'
    rw [h₁, h₂]
  · rw [clip_padCoords h.valid hfirst hp']

/-- The value the code gives a lone entry where it adds it. -/
theorem addedAt_unitColumns {k l x : List ℕ} (hblocks : axes.map (·.block) = blockShape)
    (hk : InBounds k (axes.map (·.block))) (hhits : hits (axes.zip k) x = some l) (shape : List ℕ) :
    addedAt (unitColumns shape [0, ravel blockShape k, ravel (axes.map (·.positions)) l]) axes
      blockShape 0 0 x = 1 := by
  rw [addedAt, sum_map_eq_single (coords_nodup _) (mem_coords.mpr (hblocks ▸ hk)), hhits]
  · simp [unitColumns]
  · intro k' hk' hne
    have hk'' := mem_coords.mp hk'
    have hne' : ravel blockShape k' ≠ ravel blockShape k := by
      intro heq
      refine hne ?_
      rw [← unravel_ravel hk'', heq, unravel_ravel (hblocks ▸ hk)]
    cases hits (axes.zip k') x with
    | none => rfl
    | some l' => simp [unitColumns, hne']

/-- `col2im` puts every entry in its place, for all columns of a shape, exactly when they land. -/
theorem col2im_iff {shape : List ℕ}
    (h : ColumnsOf shape imageShape blockShape strides pads dilations n c) :
    (∀ (R : Type) [CommRing R] (t : NdArray R), t.shape = shape →
      ∃ u, col2im t imageShape blockShape strides pads dilations = .ok u ∧
        IsCol2im u t (colAxes imageShape blockShape strides pads dilations) imageShape blockShape
          n c) ↔
      ColumnsReadable imageShape blockShape strides pads dilations n c ∧
        ColumnsLand (colAxes imageShape blockShape strides pads dilations) n c := by
  constructor
  · intro hall
    have hreads : ColumnsReadable imageShape blockShape strides pads dilations n c := by
      by_contra hno
      obtain ⟨u, hu, -⟩ := hall ℤ (zeros shape) rfl
      rw [col2im_error_of_not_readable (zeros shape : NdArray ℤ) h hno] at hu
      cases hu
    refine ⟨hreads, ?_⟩
    have hblocks := h.blocks
    have hfit : ∀ a ∈ colAxes imageShape blockShape strides pads dilations,
        a.Divides ∨ a.Single := by
      rw [← broadcasts_iff h.valid]
      by_contra hno
      obtain ⟨u, hu, -⟩ := hall ℤ (zeros shape) rfl
      obtain ⟨e, he⟩ := col2im_error (zeros shape : NdArray ℤ) h hreads hno
      rw [he] at hu
      cases hu
    refine ⟨hfit, ?_⟩
    by_contra hno
    simp only [not_or, not_exists, not_and] at hno
    obtain ⟨hnc, hmissed, hbad⟩ := hno
    push Not at hbad
    obtain ⟨k, l, p, hk, hl, hp, hhits, hne⟩ := exists_added h.valid hfit hmissed
    -- the columns with this entry alone
    let t := unitColumns shape [0, ravel blockShape k,
      ravel ((colAxes imageShape blockShape strides pads dilations).map (·.positions)) l]
    have hbroadcasts := (broadcasts_iff h.valid).mpr hfit
    obtain ⟨u, hu, hcol⟩ := hall ℤ t rfl
    obtain ⟨u', hu', -, hget⟩ := col2im_ok t h hreads hbroadcasts
    obtain rfl : u = u' := Except.ok.inj (hu.symm.trans hu')
    have hn : 0 < n := Nat.pos_of_ne_zero fun h0 => hnc (by simp [h0])
    have hc : 0 < c := Nat.pos_of_ne_zero fun h0 => hnc (by simp [h0])
    have hp' : InBounds p imageShape := by rwa [colAxes_image] at hp
    have hone := hget 0 0 p hn hc hp'
    rw [addedAt_unitColumns hblocks hk hhits] at hone
    have hzero := hcol.get_eq 0 0 p hn hc hp'
    rw [hone, sum_map_eq_zero] at hzero
    · exact one_ne_zero hzero
    intro k' hk'
    refine sum_map_eq_zero fun l' hl' => ?_
    by_cases hpos : entryPosition (colAxes imageShape blockShape strides pads dilations) k' l'
      = p.map (↑)
    swap
    · exact if_neg hpos
    rw [if_pos hpos]
    refine if_neg fun heq => ?_
    -- the entry itself, which does not lie there
    simp only [Nat.zero_mul, Nat.zero_add, List.cons.injEq, and_true, true_and] at heq
    have hkeq : k' = k := by
      rw [← unravel_ravel (mem_coords.mp hk'), heq.1, unravel_ravel (hblocks ▸ hk)]
    have hleq : l' = l := by
      rw [← unravel_ravel (mem_coords.mp hl'), heq.2, unravel_ravel hl]
    subst hkeq hleq
    refine hne ?_ ((entryPosition_eq_iff h.valid (by simpa using hk.length_eq)
      (by simpa using hl.length_eq) (by simpa using hp.length_eq)).mp hpos)
    obtain ⟨a, ha, hd, hf⟩ := hbad
    exact ⟨a, ha, not_or.mpr ⟨hd, hf⟩⟩
  · intro hland R _ t ht
    exact isCol2im_of_columnsLand t (ht ▸ h) hland.1 hland.2

/-! ## The windows -/

/-- `u` holds the windows of `t` over its last `kernel.length` axes. -/
structure IsPool (u t : NdArray α) (kernel stride dilation : List ℕ) : Prop where
  /-- Batch dimensions, window counts, kernel. -/
  shape_eq : u.shape = t.shape.take (t.shape.length - kernel.length) ++
    (List.range kernel.length).map (fun j =>
      (t.shape.getD (t.shape.length - kernel.length + j) 0
        - dilation.getD j 0 * (kernel.getD j 0 - 1)) ⌈/⌉ stride.getD j 0) ++ kernel
  get_eq : ∀ b o k, b.length = t.shape.length - kernel.length → o.length = kernel.length →
    k.length = kernel.length → InBounds (b ++ o ++ k) u.shape →
    u.get (b ++ o ++ k) = t.get (b ++ (List.range kernel.length).map fun j =>
      o.getD j 0 * stride.getD j 0 + k.getD j 0 * dilation.getD j 0)

/-- The parameters of a window extraction: one of each for every spatial axis, at least one, and
    the dilated kernel fits the input. -/
structure PoolInput (shape kernel stride dilation : List ℕ) : Prop where
  kernel_length : kernel.length ≤ shape.length
  stride_length : stride.length = kernel.length
  dilation_length : dilation.length = kernel.length
  dilation_pos : ∀ d ∈ dilation, 1 ≤ d
  valid : ∀ a ∈ poolAxes shape kernel stride dilation, a.Valid

section Windows

variable {shape kernel stride dilation : List ℕ}

theorem PoolInput.shape_split (h : PoolInput shape kernel stride dilation) :
    shape = shape.take (shape.length - kernel.length) ++
      (poolAxes shape kernel stride dilation).map (·.i) := by
  have hk := h.kernel_length
  refine List.ext_getElem (by simp [poolAxes]; omega) fun d h₁ h₂ => ?_
  by_cases hd : d < shape.length - kernel.length
  · rw [List.getElem_append_left (by simp; omega), List.getElem_take]
  · rw [List.getElem_append_right (by simp; omega)]
    have hlen : (shape.take (shape.length - kernel.length)).length
        = shape.length - kernel.length := by simp
    have hsum : shape.length - kernel.length + (d - (shape.length - kernel.length)) = d := by omega
    simp only [poolAxes, List.map_map, List.getElem_map, List.getElem_range, Function.comp_apply,
      hlen, hsum]
    rw [List.getD_eq_getElem _ _ h₁]

theorem poolAxes_kernel : (poolAxes shape kernel stride dilation).map (·.kernel) = kernel := by
  simp only [poolAxes, List.map_map]
  refine List.ext_getElem (by simp) fun d h₁ h₂ => ?_
  simp [List.getElem?_eq_getElem h₂]

theorem poolAxes_length : (poolAxes shape kernel stride dilation).length = kernel.length := by
  simp [poolAxes]

theorem poolAxes_o : (poolAxes shape kernel stride dilation).map (·.o)
    = (List.range kernel.length).map fun j =>
      (shape.getD (shape.length - kernel.length + j) 0
        - dilation.getD j 0 * (kernel.getD j 0 - 1)) ⌈/⌉ stride.getD j 0 := by
  simp only [poolAxes, List.map_map]
  refine List.map_congr_left fun j _ => ?_
  simp only [Function.comp_apply, PoolAxis.o, ceildiv, Nat.ceilDiv_eq_add_pred_div]

/-- The checks of `pool` pass. -/
theorem pool_eq_poolSteps (t : NdArray α) (h : PoolInput t.shape kernel stride dilation) :
    pool t kernel stride dilation =
      poolSteps t (t.shape.take (t.shape.length - kernel.length))
        (poolAxes t.shape kernel stride dilation) := by
  have hfits : (poolAxes t.shape kernel stride dilation).forM (fun a => do
      let kernel := a.kernel
      let dilated := a.dilation * (a.kernel - 1) + 1
      let i := a.i
      ensure a.Fits
        (ErrorKind.irConstruction s!"kernel size {kernel} (dilated {dilated}) > input size {i}"))
      = .ok () :=
    forM_ok fun a ha => ensure_of_true (h.valid a ha).fits _
  rw [pool]
  simp only [hfits]
  rw [ensure_of_true h.kernel_length, bind_ok rfl, ensure_of_true h.stride_length.symm,
    bind_ok rfl, ensure_of_true h.dilation_length.symm, bind_ok rfl, bind_ok rfl]

/-- The repeated input fits the machine words. -/
def PoolReadable (shape kernel stride dilation : List ℕ) : Prop :=
  Readable (shape.take (shape.length - kernel.length) ++
    (poolAxes shape kernel stride dilation).map (·.repeated))

instance (shape kernel stride dilation : List ℕ) :
    Decidable (PoolReadable shape kernel stride dilation) := inferInstanceAs (Decidable (Readable _))

/-- `pool` extracts the windows, unless its output has exactly 64 dimensions or the input it
    repeats is too large. -/
theorem pool_iff (t : NdArray α) (h : PoolInput t.shape kernel stride dilation) :
    (∃ u, pool t kernel stride dilation = .ok u ∧ IsPool u t kernel stride dilation) ↔
      PoolReadable t.shape kernel stride dilation ∧ t.shape.length + kernel.length ≠ 64 := by
  have hsplit := h.shape_split
  have hk := h.kernel_length
  have hbatch : (t.shape.take (t.shape.length - kernel.length)).length
      = t.shape.length - kernel.length := by simp
  have hrank : (t.shape.take (t.shape.length - kernel.length)).length
      + (poolAxes t.shape kernel stride dilation).length * 2
        = t.shape.length + kernel.length := by
    rw [hbatch, poolAxes_length]
    omega
  rw [pool_eq_poolSteps t h]
  constructor
  · rintro ⟨u, hu, -⟩
    by_contra hcon
    obtain ⟨e, he⟩ := poolSteps_error t hsplit h.valid (by
      rw [hrank]
      exact (not_and_or.mp hcon).imp_right not_not.mp)
    rw [he] at hu
    cases hu
  · rintro ⟨hread, h64⟩
    obtain ⟨u, hu, hushape, huget⟩ := poolSteps_ok t hsplit h.valid hread (hrank ▸ h64)
    have hushape' := hushape
    rw [poolAxes_o, poolAxes_kernel] at hushape'
    refine ⟨u, hu, hushape', fun b o k hb ho hkl hin => ?_⟩
    rw [hushape] at hin
    obtain ⟨hbo, hkin⟩ := InBounds.of_append (by simp [hb, ho, poolAxes_length]) hin
    obtain ⟨hbin, hoin⟩ := InBounds.of_append (by simp [hb]) hbo
    -- one window and one kernel position on each axis
    let cells : List WindowEntry := (List.range kernel.length).map fun j =>
      ⟨⟨t.shape.getD (t.shape.length - kernel.length + j) 0, kernel.getD j 0, stride.getD j 0,
        dilation.getD j 0⟩, o.getD j 0, k.getD j 0⟩
    have hmap : ∀ l : List ℕ, l.length = kernel.length →
        (List.range kernel.length).map (l.getD · 0) = l := by
      intro l hl
      refine List.ext_getElem (by simp [hl]) fun d h₁ h₂ => ?_
      rw [List.getElem_map, List.getElem_range, List.getD_eq_getElem _ _ h₂]
    have haxes : cells.map (·.axis) = poolAxes t.shape kernel stride dilation := by
      simp only [cells, poolAxes, List.map_map]
      rfl
    have hos : cells.map (·.o) = o := by
      simp only [cells, List.map_map]
      exact hmap o ho
    have hks : cells.map (·.k) = k := by
      simp only [cells, List.map_map]
      exact hmap k hkl
    have hrange : ∀ e ∈ cells, e.InRange := by
      rw [← haxes, List.map_map] at hoin hkin
      rw [← hos] at hoin
      rw [← hks] at hkin
      have hsame : ∀ (f g : WindowEntry → ℕ), InBounds (cells.map f) (cells.map g) →
          ∀ e ∈ cells, f e < g e := fun f g hfg =>
        List.forall₂_same.mp (List.forall₂_map_right_iff.mp (List.forall₂_map_left_iff.mp hfg))
      exact fun e he => ⟨hsame _ _ hoin e he, hsame _ _ hkin e he⟩
    have hget := huget b cells hbin haxes hrange
    rw [hos, hks] at hget
    rw [hget]
    simp only [cells, List.map_map]
    rfl

end Windows

/-! ## Windows and their adjoint -/

/-- `pool` extracts exactly the windows unless its output has 64 dimensions, and `col2im` adds
    every entry at its place and nothing else exactly when the columns land; both within the
    machine words. -/
theorem pool_col2im_exact_iff (α : Type) (t : NdArray α) (kernel stride dilation : List ℕ)
    (shape imageShape blockShape : List ℕ) (strides : Option (List ℕ))
    (pads : Option (List (ℤ × ℤ))) (dilations : Option (List ℕ)) (n c : ℕ) :
    (PoolInput t.shape kernel stride dilation →
      ((∃ u, pool t kernel stride dilation = .ok u ∧ IsPool u t kernel stride dilation) ↔
        PoolReadable t.shape kernel stride dilation ∧ t.shape.length + kernel.length ≠ 64)) ∧
    (ColumnsOf shape imageShape blockShape strides pads dilations n c →
      ((∀ (R : Type) [CommRing R] (t : NdArray R), t.shape = shape →
          ∃ u, col2im t imageShape blockShape strides pads dilations = .ok u ∧
            IsCol2im u t (colAxes imageShape blockShape strides pads dilations) imageShape
              blockShape n c) ↔
        ColumnsReadable imageShape blockShape strides pads dilations n c ∧
          ColumnsLand (colAxes imageShape blockShape strides pads dilations) n c)) :=
  ⟨pool_iff t, col2im_iff⟩

/-- Blocks of two with stride two tile an image of four. -/
theorem pool_col2im_exact_tiled :
    (∃ u, pool (zeros [4] : NdArray ℤ) [2] [2] [1] = .ok u ∧
      IsPool u (zeros [4] : NdArray ℤ) [2] [2] [1]) ∧
    ∀ (R : Type) [CommRing R] (t : NdArray R), t.shape = [1, 2, 2] →
      ∃ u, col2im t [4] [2] (some [2]) none none = .ok u ∧
        IsCol2im u t (colAxes [4] [2] (some [2]) none none) [4] [2] 1 1 := by
  refine ⟨((pool_col2im_exact_iff ℤ (zeros [4]) [2] [2] [1] [1, 2, 2] [4] [2] (some [2]) none none
      1 1).1 ⟨by decide, rfl, rfl, by decide, fun a ha => ?_⟩).mpr (by decide),
    ((pool_col2im_exact_iff ℤ (zeros [4]) [2] [2] [1] [1, 2, 2] [4] [2] (some [2]) none none
      1 1).2 ⟨rfl, by simp, by simp, by simp, fun a ha => ?_, by decide⟩).mpr
      ⟨by decide, fun a ha => ?_, .inr (.inr fun a ha => ?_)⟩⟩
  · obtain rfl : a = ⟨4, 2, 2, 1⟩ := by simpa [poolAxes, zeros] using ha
    exact ⟨by decide, by decide, by decide⟩
  all_goals obtain rfl : a = ⟨4, 2, 2, 1, 0, 0⟩ := by simpa [colAxes] using ha
  · exact ⟨by decide, by decide, by decide, by decide, by decide, by decide⟩
  · exact .inl (by decide)
  · exact .inl (by decide)

/-- One entry, one position, stride two: the entry fills both positions of the image. -/
theorem col2im_repeats_entry :
    ¬ ∃ u, col2im (⟨[1, 1, 1], fun _ => 1⟩ : NdArray ℤ) [2] [1] (some [2]) none none = .ok u ∧
      IsCol2im u (⟨[1, 1, 1], fun _ => 1⟩ : NdArray ℤ) (colAxes [2] [1] (some [2]) none none)
        [2] [1] 1 1 := by
  rintro ⟨u, hu, hcol⟩
  have hone : (col2im (⟨[1, 1, 1], fun _ => 1⟩ : NdArray ℤ) [2] [1] (some [2]) none none).toOption.map
      (fun u => u.get [0, 0, 1]) = some 1 := by decide
  rw [hu] at hone
  have hget : u.get [0, 0, 1] = 1 := by simpa [Except.toOption] using hone
  have hzero := hcol.get_eq 0 0 [1] (by decide) (by decide) (.cons (by decide) .nil)
  rw [hget] at hzero
  revert hzero
  decide

end Svod.Tensor.Nd
