/-
  Svod.Tensor.NdIndexingSound

  Gather and scatter by index tuples.

  A tuple is flattened with the strides of the axes it indexes; its flat position
  is the row-major position of those axes, narrowed to 32 bits.  The array is
  viewed as rows, one for each position, and the one-axis rules say what is read
  and written there.  They count the rows, so that no row has a wider number.
-/

import Svod.Tensor.SelectionSound

namespace Svod.Tensor.Nd

open Svod.Lib Svod.Ir

variable {α : Type} {τ ι : IntType} {s : List ℕ}

/-! ## Flat positions -/

/-- Component `k` of the tuples of an index. -/
theorem component_returns {t : NdArray (TypedInt ι)} {n k : ℕ}
    {g : List ℕ → ℕ → TypedInt ι}
    (h : t.Holds (s ++ [n]) (onSlots s.length g)) (hk : k < n) :
    Returns (component t k) s fun c => g c k := by
  have hranges : (t.shape.map fun s : ℕ => ShrinkRange.isize 0 s).set (t.shape.length - 1)
      (.isize k (k + 1 : ℕ)) = (s.map fun s : ℕ => .isize 0 s) ++ [.isize k (k + 1 : ℕ)] := by
    rw [h.shape_eq, List.map_append, List.length_append, List.length_singleton, Nat.add_sub_cancel,
      List.set_append_right _ _ (by rw [List.length_map]), List.length_map, Nat.sub_self]
    rfl
  have hfit : List.Forall₂ ShrinkRange.Fits
      ((s.map fun s : ℕ => .isize 0 s) ++ [.isize k (k + 1 : ℕ)]) (s ++ [n]) := by
    refine List.rel_append ?_ (.cons ⟨⟨Int.natCast_nonneg _, Int.natCast_nonneg _⟩, ?_, ?_⟩ .nil)
    · refine List.forall₂_map_left_iff.mpr (List.forall₂_same.mpr fun x _ => ?_)
      exact ⟨⟨le_refl _, Int.natCast_nonneg _⟩, Nat.zero_le _, le_refl _⟩
    · exact Nat.le_succ k
    · exact hk
  have hshape : List.zipWith (fun (r : ShrinkRange) n => (r.bounds n).2 - (r.bounds n).1)
      ((s.map fun s : ℕ => .isize 0 s) ++ [.isize k (k + 1 : ℕ)]) (s ++ [n]) = s ++ [1] := by
    rw [List.zipWith_append (by simp), List.zipWith_map_left, List.zipWith_self]
    simp [ShrinkRange.bounds]
  have hoffset : List.zipWith (fun (r : ShrinkRange) n => (r.bounds n).1)
      ((s.map fun s : ℕ => .isize 0 s) ++ [.isize k (k + 1 : ℕ)]) (s ++ [n]) =
        List.replicate s.length 0 ++ [k] := by
    rw [List.zipWith_append (by simp), List.zipWith_map_left, List.zipWith_self]
    simp [ShrinkRange.bounds]
  unfold component
  simp only [hranges]
  have hshrink := tryShrink_returns h hfit
  rw [hshape, hoffset] at hshrink
  refine hshrink.bind fun slice hslice => ?_
  refine (squeeze_slots hslice).congr fun c hc => ?_
  have hlen := InBounds.length hc
  rw [List.zipWith_append (by simp [hlen]), ← hlen, zipWith_add_zero]
  simp only [List.zipWith_cons_cons, List.zipWith_nil_right, Nat.add_zero]
  rw [hlen, onSlots_concat _ hlen]

/-- One component, times its stride, is added. -/
theorem addComponent_returns {indices : NdArray (TypedInt ι)} {flat : NdArray (TypedInt int64)}
    {n k stride : ℕ} {idx : List ℕ → ℕ → TypedInt ι} {s' : List ℕ} {p : List ℕ → TypedInt int64}
    (hindices : indices.Holds (s ++ [n]) (onSlots s.length idx)) (hk : k < n)
    (hflat : flat.Holds s' p) (hs' : BroadcastsTo s' s) :
    Returns (addComponent indices flat (stride, k)) s fun c =>
      p (broadcastCoords s' c) + (.ofInt (idx c k).val * .ofInt stride : TypedInt int64) := by
  have hcommon : CommonShape [s', s] s :=
    CommonShape.of_mem (by simp) (by simpa using ⟨hs', broadcastsTo_self s⟩)
  unfold addComponent
  refine (component_returns hindices hk).bind fun idxK hidxK => ?_
  have hwide : (cast (fun v => (TypedInt.ofInt v.val : TypedInt int64)) idxK).Holds s
      fun c => .ofInt (idx c k).val := cast_holds _ hidxK
  have hmul : Returns (tryMul (cast (fun v => (TypedInt.ofInt v.val : TypedInt int64)) idxK)
      (const (.ofInt stride))) s fun c => .ofInt (idx c k).val * .ofInt stride :=
    tryBinary_returns_scalar _ hwide _
  refine hmul.bind fun scaled hscaled => ?_
  refine (tryBinary_returns (· + ·) hflat hscaled hcommon).congr fun c hc => ?_
  rw [broadcastCoords_self hc]

/-- The components that are left, added to a flat position. -/
theorem foldlM_addComponent {indices : NdArray (TypedInt ι)} {flat : NdArray (TypedInt int64)}
    {n : ℕ} {idx : List ℕ → ℕ → TypedInt ι} {p : List ℕ → TypedInt int64}
    (hindices : indices.Holds (s ++ [n]) (onSlots s.length idx)) (hflat : flat.Holds s p)
    (xs : List (ℕ × ℕ)) (hxs : ∀ x ∈ xs, x.2 < n) :
    Returns (xs.foldlM (addComponent indices) flat) s fun c =>
      p c + (xs.map fun x => (.ofInt (idx c x.2).val * .ofInt x.1 : TypedInt int64)).sum := by
  induction xs generalizing flat p with
  | nil =>
    refine Returns.ok (hflat.congr fun c _ => ?_)
    rw [List.map_nil, List.sum_nil, add_zero]
  | cons x xs ih =>
    rw [List.foldlM_cons]
    refine (addComponent_returns hindices (hxs x (by simp)) hflat (broadcastsTo_self s)).bind
      fun flat' hflat' => ?_
    refine (ih hflat' fun y hy => hxs y (by simp [hy])).congr fun c hc => ?_
    rw [broadcastCoords_self hc, List.map_cons, List.sum_cons, add_assoc]

theorem tupleStrides_cons (d : ℕ) (depth : List ℕ) :
    tupleStrides (d :: depth) = depth.prod :: tupleStrides depth := by
  rw [tupleStrides, List.length_cons, List.range_succ_eq_map, List.map_cons, List.map_map]
  rfl

/-- The strides give the row-major position. -/
theorem sum_tupleStrides (depth : List ℕ) (v : ℕ → ℕ) (o : ℕ) :
    (((tupleStrides depth).zipIdx o).map fun x =>
      (.ofInt (v x.2 : ℤ) * .ofInt (x.1 : ℤ) : TypedInt int64)).sum =
      .ofInt (ravel depth ((List.range' o depth.length).map v) : ℕ) := by
  induction depth generalizing o with
  | nil => rfl
  | cons d depth ih =>
    rw [tupleStrides_cons, List.zipIdx_cons, List.map_cons, List.sum_cons, ih, List.length_cons,
      List.range'_succ, List.map_cons, ravel, ← TypedInt.ofInt_mul, ← TypedInt.ofInt_add]
    push_cast
    rfl

/-- The tuple of an index at coordinates off its last axis. -/
def tupleOf (idx : List ℕ → ℕ → TypedInt ι) (n : ℕ) (c : List ℕ) : List ℕ :=
  (List.range n).map fun k => (idx c k).val.toNat

/-- The flat positions of tuples of at least one component. -/
theorem flattenTuples_returns {indices : NdArray (TypedInt ι)} {depth : List ℕ}
    {idx : List ℕ → ℕ → TypedInt ι}
    (hindices : indices.Holds (s ++ [depth.length]) (onSlots s.length idx))
    (hnonneg : ∀ c k, InBounds c s → k < depth.length → 0 ≤ (idx c k).val) (hne : depth ≠ []) :
    Returns (flattenTuples indices (tupleStrides depth)) s fun c =>
      .ofInt (ravel depth (tupleOf idx depth.length c) : ℕ) := by
  have hmem : ∀ x ∈ (tupleStrides depth).zipIdx, x.2 < depth.length := by
    intro x hx
    have := (List.mem_zipIdx' hx).1
    simpa [tupleStrides] using this
  have hsum : ∀ c, InBounds c s → ((tupleStrides depth).zipIdx.map fun x =>
      (.ofInt (idx c x.2).val * .ofInt x.1 : TypedInt int64)).sum =
        .ofInt (ravel depth (tupleOf idx depth.length c) : ℕ) := by
    intro c hc
    rw [tupleOf, List.range_eq_range', ← sum_tupleStrides depth (fun k => (idx c k).val.toNat)]
    refine congrArg List.sum (List.map_congr_left fun x hx => ?_)
    rw [Int.toNat_of_nonneg (hnonneg c x.2 hc (hmem x hx))]
  unfold flattenTuples
  obtain ⟨d, depth', rfl⟩ := List.exists_cons_of_ne_nil hne
  rw [tupleStrides_cons, List.zipIdx_cons] at hmem hsum ⊢
  simp only [List.map_cons, List.sum_cons] at hsum
  rw [List.foldlM_cons]
  refine (addComponent_returns hindices (hmem _ List.mem_cons_self) (const_holds 0)
    (broadcastsTo_nil s)).bind fun flat hflat => ?_
  refine (foldlM_addComponent hindices hflat _ fun x hx =>
    hmem x (List.mem_cons_of_mem _ hx)).congr fun c hc => ?_
  rw [zero_add, hsum c hc]

/-! ## Rows -/

/-- The axes of a shape viewed as two, those of `a` as the rows. -/
theorem rows_returns {t : NdArray α} {a b : List ℕ} {n r : ℕ} {f : List ℕ → α}
    (h : t.Holds (a ++ b) f) (ha : a.prod = n) (hb : b.prod = r) :
    Returns (tryReshape t ([n, r].map .const)) [n, r] fun c =>
      f (unravel a (c.getD 0 0) ++ unravel b (c.getD 1 0)) := by
  subst ha hb
  refine tryReshape_returns h (by simp) _ fun c hc => ?_
  obtain _ | ⟨x, _ | ⟨y, _ | _⟩⟩ := c <;> simp at hc
  exact (samePosition_flat (.cons hc.1 .nil)).append (samePosition_flat (.cons hc.2 .nil))

/-- Two axes viewed as those of a shape. -/
theorem unrows_returns {t : NdArray α} {a b : List ℕ} {f : List ℕ → α}
    (h : t.Holds [a.prod, b.prod] f) :
    Returns (tryReshape t ((a ++ b).map .const)) (a ++ b) fun c =>
      f [ravel a (c.take a.length), ravel b (c.drop a.length)] := by
  refine tryReshape_returns h (by simp) _ fun c hc => ?_
  obtain ⟨c₁, c₂, rfl, h₁, h₂⟩ := InBounds.split hc
  rw [List.take_left' (InBounds.length h₁), List.drop_left' (InBounds.length h₁)]
  exact (SamePosition.flat h₁).symm.append (SamePosition.flat h₂).symm

/-- The narrowing of a flat position forgets that it was 64 bits wide. -/
theorem ofInt_int64_val (x : ℤ) :
    (.ofInt (.ofInt x : TypedInt int64).val : TypedInt int32) = .ofInt x := by
  refine TypedInt.ofInt_congr ?_
  have h := (IntType.dvd_sub_wrap (t := int64) x).neg_right
  rw [neg_sub] at h
  exact (pow_dvd_pow (2 : ℤ) (by decide : int32.bits ≤ int64.bits)).trans h

/-- The flat positions in another shape; a tuple of no components is one position only. -/
theorem flatView_returns {indices : NdArray (TypedInt ι)} {depth v : List ℕ}
    {idx : List ℕ → ℕ → TypedInt ι}
    (hindices : indices.Holds (s ++ [depth.length]) (onSlots s.length idx))
    (hnonneg : ∀ c k, InBounds c s → k < depth.length → 0 ≤ (idx c k).val)
    (hv : v.prod = s.prod) (hone : depth ≠ [] ∨ s.prod = 1) :
    ∃ flat u, flattenTuples indices (tupleStrides depth) = .ok flat ∧
      tryReshape flat (v.map .const) = .ok u ∧ u.Holds v fun c =>
        .ofInt (ravel depth (tupleOf idx depth.length (unravel s (ravel v c))) : ℕ) := by
  by_cases hne : depth = []
  · subst hne
    have hprod : [].prod = v.prod := by rw [hv, hone.resolve_left (not_not.mpr rfl), List.prod_nil]
    obtain ⟨u, hu, hholds⟩ := tryReshape_returns (const_holds (0 : TypedInt int64)) hprod
      (fun _ => []) fun c hc => ⟨.nil, hc, hprod, by
        have := ravel_lt hc
        rw [← hprod, List.prod_nil] at this
        rw [Nat.lt_one_iff.mp this]
        rfl⟩
    exact ⟨_, u, rfl, hu, hholds.congr fun c _ => rfl⟩
  · obtain ⟨flat, hflat, hholds⟩ := flattenTuples_returns hindices hnonneg hne
    obtain ⟨u, hu, hview⟩ := tryReshape_returns hholds hv.symm (fun c => unravel s (ravel v c))
      fun c hc => by
        have hlt : ravel v c < s.prod := hv ▸ ravel_lt hc
        exact ⟨unravel_inBounds hlt, hc, hv.symm, ravel_unravel hlt⟩
    exact ⟨flat, u, hflat, hu, hview⟩

theorem flatColumn_returns {indices : NdArray (TypedInt ι)} {depth : List ℕ}
    {idx : List ℕ → ℕ → TypedInt ι}
    (hindices : indices.Holds (s ++ [depth.length]) (onSlots s.length idx))
    (hnonneg : ∀ c k, InBounds c s → k < depth.length → 0 ≤ (idx c k).val)
    (hone : depth ≠ [] ∨ s.prod = 1) :
    ∃ flat column, flattenTuples indices (tupleStrides depth) = .ok flat ∧
      tryReshape flat ([s.prod, 1].map .const) = .ok column ∧ column.Holds [s.prod, 1] fun c =>
        .ofInt (ravel depth (tupleOf idx depth.length (unravel s (c.getD 0 0))) : ℕ) := by
  obtain ⟨flat, column, hflat, hcolumn, hcol⟩ := flatView_returns (v := [s.prod, 1]) hindices
    hnonneg (by simp) hone
  refine ⟨flat, column, hflat, hcolumn, hcol.congr fun c hc => ?_⟩
  obtain _ | ⟨x, _ | ⟨y, _ | _⟩⟩ := c <;> simp at hc
  simp [ravel, hc.2]

/-- No components, and another number of positions than one: the scalar is not reshaped. -/
theorem flatView_error (indices : NdArray (TypedInt ι)) {v : List ℕ} (hv : v.prod ≠ 1) :
    ∃ flat e, flattenTuples indices (tupleStrides []) = .ok flat ∧
      tryReshape flat (v.map .const) = .error e := by
  have hprod : (const (0 : TypedInt int64)).shape.prod ≠ v.prod := by
    rw [show (const (0 : TypedInt int64)).shape = [] from rfl, List.prod_nil]
    exact hv.symm
  obtain ⟨e, he⟩ := tryReshape_error _ hprod
  exact ⟨_, e, rfl, he⟩

/-- One flat position for each row, repeated along the rows and narrowed. -/
theorem rowIndex_returns {column : NdArray (TypedInt int64)} {n : ℕ} (r : ℕ) {p : ℕ → ℕ}
    (h : column.Holds [n, 1] fun c => .ofInt (p (c.getD 0 0) : ℕ)) :
    ∃ rows, tryExpand column ([n, r].map .const) = .ok rows ∧
      (castInt32 rows).Holds [n, r] fun c => .ofInt (p (c.getD 0 0) : ℕ) := by
  have hdims : List.Forall₂ (fun s n => s = n ∨ s = 1) [n, 1] [n, r] :=
    .cons (.inl rfl) (.cons (.inr rfl) .nil)
  obtain ⟨rows, hexpand, hrows⟩ := Returns.of_agrees
    (tryExpand_ok column (h.shape_eq.symm ▸ hdims)) (h.expand hdims)
  refine ⟨rows, hexpand, (cast_holds _ hrows).congr fun c hc => ?_⟩
  obtain _ | ⟨x, _ | ⟨y, _ | _⟩⟩ := c <;> simp at hc
  have hx : (if n = 1 then 0 else x) = x := by
    split <;> omega
  simp only [ofInt_int64_val, List.zipWith_cons_cons, List.getD_cons_zero, hx]

/-! ## Gather -/

theorem gatherShapes_rows (a n r : ℕ) : GatherShapes [a, r] [n, r] 0 where
  rank := rfl
  fits := by
    intro e he hne
    obtain rfl : e = 1 := by
      simp only [List.length_cons, List.length_nil] at he
      omega
    exact le_refl r

/-- The element of row `x`, or zero where there is none. -/
def rowOr [Zero α] (a : ℕ) (g : ℕ → α) (x : ℤ) : α := if 0 ≤ x ∧ x < a then g x.toNat else 0

/-- The rows at the flat positions. -/
theorem gatherRows_returns [AddMonoid α] {x2d : NdArray α} {a r n : ℕ} {g : ℕ → ℕ → α}
    {index : NdArray (TypedInt int32)} {q : ℕ → TypedInt int32} {outer rest : List ℕ}
    (hx : x2d.Holds [a, r] fun c => g (c.getD 0 0) (c.getD 1 0))
    (hindex : index.Holds [n, r] fun c => q (c.getD 0 0)) (hn : outer.prod = n)
    (hr : rest.prod = r) (ha : a < 2 ^ 31) :
    Returns (do
      let result ← gather x2d 0 index
      tryReshape result ((outer ++ rest).map .const)) (outer ++ rest) fun c =>
        rowOr a (fun x => g x (ravel rest (c.drop outer.length)))
          (q (ravel outer (c.take outer.length))).val := by
  subst hn hr
  have haxis : IsAxis 0 [a, rest.prod].length 0 := rfl
  refine (gather_elements hx hindex (gatherShapes_rows _ _ _) haxis (by simp) ha).bind
    fun result hresult => ?_
  refine (unrows_returns hresult).congr fun c hc => ?_
  simp [rowOr]

section Gather

variable [AddMonoid α] {t : NdArray α} {f : List ℕ → α} {indices : NdArray (TypedInt ι)}
  {idx : List ℕ → ℕ → TypedInt ι} {depth rest outer batch : List ℕ}

theorem lastExtent_concat (op : String) (s : List ℕ) (n : ℕ) : lastExtent op (s ++ [n]) = .ok n := by
  simp [lastExtent]

/-- The row a tuple reads when its flat position is narrowed to 32 bits. -/
def narrowed (p : ℕ) : ℤ := (.ofInt p : TypedInt int32).val

/-- Everything after the checks, without batches. -/
theorem gatherNd_flat_steps (ht : t.shape = depth ++ rest)
    (hindices : indices.shape = outer ++ [depth.length]) :
    gatherNd t indices 0 = (do
      let flatIdx ← flattenTuples indices (tupleStrides depth)
      let xFlat ← tryReshape t ([depth.prod, rest.prod].map .const)
      let column ← tryReshape flatIdx ([outer.prod, 1].map .const)
      let flatIdx2d ← tryExpand column ([outer.prod, rest.prod].map .const)
      ensure (Readable [outer.prod, rest.prod]) .shapeUnknown
      let result ← gather xFlat 0 (castInt32 flatIdx2d)
      tryReshape result ((outer ++ rest).map .const)) := by
  have htake : (depth ++ rest).take depth.length = depth := List.take_left' rfl
  have hdrop : (depth ++ rest).drop depth.length = rest := List.drop_left' rfl
  have hle : depth.length ≤ (depth ++ rest).length := by simp
  unfold gatherNd
  simp only [ht, hindices, lastExtent_concat]
  rw [bind_ok rfl]
  simp only [if_true, sliceDims, ensure_of_true hle, htake, hdrop, List.dropLast_concat]
  rw [bind_ok rfl]

/-- The row a tuple names: its position behind those of its batch. -/
def rowOf (batch depth : List ℕ) (idx : List ℕ → ℕ → TypedInt ι) (c : List ℕ) : ℕ :=
  ravel (batch ++ depth) (c.take batch.length ++ tupleOf idx depth.length c)

/-- The call gathers rows: the array is one view of its rows, every index has the number of its
    row. -/
def GathersRows (t : NdArray α) (indices : NdArray (TypedInt ι)) (batch depth outer rest : List ℕ)
    (f : List ℕ → α) (idx : List ℕ → ℕ → TypedInt ι) : Prop :=
  ∃ x2d index, gatherNd t indices batch.length = (do
      ensure (Readable [(batch ++ outer).prod, rest.prod]) .shapeUnknown
      let result ← gather x2d 0 index
      tryReshape result ((batch ++ outer ++ rest).map .const)) ∧
    (x2d.Holds [(batch ++ depth).prod, rest.prod] fun c =>
      f (unravel (batch ++ depth) (c.getD 0 0) ++ unravel rest (c.getD 1 0))) ∧
    index.Holds [(batch ++ outer).prod, rest.prod] fun c =>
      (.ofInt (rowOf batch depth idx (unravel (batch ++ outer) (c.getD 0 0)) : ℕ) :
        TypedInt int32)

/-- Without batches the array is viewed as rows and the tuples as their numbers. -/
theorem gatherNd_rows_flat (ht : t.Holds (depth ++ rest) f)
    (hindices : indices.Holds (outer ++ [depth.length]) (onSlots outer.length idx))
    (hnonneg : ∀ c k, InBounds c outer → k < depth.length → 0 ≤ (idx c k).val)
    (hone : depth ≠ [] ∨ outer.prod = 1) : GathersRows t indices [] depth outer rest f idx := by
  obtain ⟨flat, column, hflat, hcolumn, hcol⟩ := flatColumn_returns hindices hnonneg hone
  obtain ⟨rows, hrows, hindex⟩ := rowIndex_returns rest.prod
    (p := fun x => ravel depth (tupleOf idx depth.length (unravel outer x))) hcol
  obtain ⟨xFlat, hxFlat, hx⟩ := rows_returns ht rfl rfl
  refine ⟨xFlat, castInt32 rows, ?_, hx, hindex⟩
  show gatherNd t indices 0 = _
  rw [gatherNd_flat_steps ht.shape_eq hindices.shape_eq, bind_ok hflat, bind_ok hxFlat,
    bind_ok hcolumn, bind_ok hrows]
  rfl

/-- The number of batches is counted in 32 bits. -/
def batchCount (b : ℕ) : ℕ := arangeCount (int32.wrap b)

theorem batchCount_lt (b : ℕ) : batchCount b < 2 ^ 31 := by
  have h := (int32.wrap_contains b).2
  have hmax : int32.max = 2 ^ 31 - 1 := by decide
  have hf : f64OfInt (int32.wrap b) ≤ 2 ^ 31 - 1 := by
    have hmin := (int32.wrap_contains b).1
    have hbound : int32.min = -2 ^ 31 := by decide
    rw [f64OfInt_of_lt (by omega)]
    omega
  unfold batchCount arangeCount
  omega

theorem batchCount_of_lt {b : ℕ} (hb : b < 2 ^ 31) : batchCount b = b := by
  have hwrap := int32_ofInt_natCast hb
  rw [TypedInt.val_ofInt] at hwrap
  rw [batchCount, hwrap, arangeCount_of_lt hb]

theorem batchCount_ne {b : ℕ} (hb : ¬ b < 2 ^ 31) : batchCount b ≠ b :=
  fun h => hb (h ▸ batchCount_lt b)

/-- The offsets of the batches that are counted. -/
theorem offsets_returns (b stride : ℕ) :
    ∃ batches offsets, arange 0 b = .ok batches ∧
      tryMul (cast (fun v => TypedInt.ofInt v.val) batches) (full [1] (.ofInt stride)) =
        .ok offsets ∧
      offsets.Holds [batchCount b] fun c => (.ofInt (c.headD 0 * stride : ℕ) : TypedInt int64) := by
  obtain ⟨batches, harange, hbatches⟩ := arangeWithDtype_returns (t := int32) (n := b) rfl
    (batchCount_lt b)
  have hwide : (cast (fun v => (TypedInt.ofInt v.val : TypedInt int64)) batches).Holds
      [batchCount b] fun c => .ofInt (c.headD 0) := (cast_holds _ hbatches).congr fun c hc => by
    obtain ⟨x, c, rfl, hx, -⟩ := inBounds_cons hc
    rw [List.headD_cons, int32_ofInt_natCast (hx.trans (batchCount_lt b))]
  have hcommon : CommonShape [[batchCount b], [1]] [batchCount b] :=
    CommonShape.of_mem (by simp) (by
      have hone : BroadcastsTo ([] ++ [1]) ([] ++ [batchCount b]) :=
        broadcastsTo_concat (broadcastsTo_nil []) (.inr rfl)
      simpa using ⟨broadcastsTo_self [batchCount b], hone⟩)
  have hmul : Returns (tryMul (cast (fun v => (TypedInt.ofInt v.val : TypedInt int64)) batches)
      (full [1] (.ofInt stride))) [batchCount b] fun c => .ofInt (c.headD 0 * stride : ℕ) :=
    (tryBinary_returns _ hwide (full_holds [1] _) hcommon).congr fun c hc => by
      rw [broadcastCoords_self hc, ← TypedInt.ofInt_mul]
      push_cast
      rfl
  obtain ⟨offsets, hoffsets, ho⟩ := hmul
  exact ⟨batches, offsets, harange, hoffsets, ho⟩

/-- The offset of each batch, at every one of its tuples. -/
theorem batchOffset_returns {offsets : NdArray (TypedInt int64)} {b stride : ℕ} (g : ℕ)
    (h : offsets.Holds [b] fun c => .ofInt (c.headD 0 * stride : ℕ)) :
    ∃ column expanded, tryReshape offsets ([b, 1].map .const) = .ok column ∧
      tryExpand column ([b, g].map .const) = .ok expanded ∧
      expanded.Holds [b, g] fun c => .ofInt (c.getD 0 0 * stride : ℕ) := by
  obtain ⟨column, hcolumn, hcol⟩ := rows_returns (a := [b]) (b := []) (n := b) h (by simp) rfl
  have hdims : List.Forall₂ (fun s n => s = n ∨ s = 1) [b, 1] [b, g] :=
    .cons (.inl rfl) (.cons (.inr rfl) .nil)
  obtain ⟨expanded, hexpanded, he⟩ := Returns.of_agrees
    (tryExpand_ok column (hcol.shape_eq.symm ▸ hdims)) (hcol.expand hdims)
  refine ⟨column, expanded, hcolumn, hexpanded, he.congr fun c hc => ?_⟩
  obtain _ | ⟨x, _ | ⟨y, _ | _⟩⟩ := c <;> simp at hc
  have hx : (if b = 1 then 0 else x) = x := by
    split <;> omega
  simp [unravel, hx]

omit [AddMonoid α] in
/-- The array with the batches as one axis. -/
theorem batchArray_returns (ht : t.Holds (batch ++ (depth ++ rest)) f) :
    Returns (tryReshape t ((batch.prod :: (depth ++ rest)).map .const))
      ((batch.prod :: depth) ++ rest) fun c => f (unravel batch (c.headD 0) ++ c.tail) :=
  tryReshape_returns ht (by simp) _ fun c hc => by
    obtain ⟨x, c, rfl, hx, hc⟩ := inBounds_cons hc
    exact (samePosition_flat (.cons hx .nil)).append (.refl hc)

theorem batchIndex_nonneg {n : ℕ}
    (hnonneg : ∀ c k, InBounds c (batch ++ outer) → k < n → 0 ≤ (idx c k).val) :
    ∀ c k, InBounds c (batch.prod :: outer) → k < n →
      0 ≤ (idx (unravel batch (c.headD 0) ++ c.tail) k).val := by
  intro c k hc hk
  obtain ⟨x, c, rfl, hx, hc⟩ := inBounds_cons hc
  exact hnonneg _ k ((unravel_inBounds hx).append hc) hk

/-- The tuples with the batches as one axis. -/
theorem batchIndex_returns {n : ℕ}
    (hindices : indices.Holds (batch ++ outer ++ [n]) (onSlots (batch ++ outer).length idx)) :
    Returns (tryReshape indices ((batch.prod :: (outer ++ [n])).map .const))
      ((batch.prod :: outer) ++ [n]) (onSlots (batch.prod :: outer).length
        fun c k => idx (unravel batch (c.headD 0) ++ c.tail) k) := by
  have hread : ∀ c, InBounds c (batch.prod :: (outer ++ [n])) → SamePosition
      (batch ++ outer ++ [n]) (unravel batch (c.headD 0) ++ c.tail)
      (batch.prod :: (outer ++ [n])) c := by
    intro c hc
    obtain ⟨x, c, rfl, hx, hc⟩ := inBounds_cons hc
    rw [List.append_assoc]
    exact (samePosition_flat (.cons hx .nil)).append (.refl hc)
  have hstep := tryReshape_returns hindices (by simp) _ hread
  refine Returns.congr_slots (s := batch.prod :: outer) hstep fun c k hc _ => ?_
  obtain ⟨x, c, rfl, hx, hc⟩ := inBounds_cons hc
  have hlen : (unravel batch x ++ c).length = (batch ++ outer).length := by
    rw [List.length_append, unravel_length, List.length_append, InBounds.length hc]
  have hsplit := onSlots_concat idx hlen k
  rw [List.append_assoc] at hsplit
  exact hsplit

/-- Everything after the checks, with batches. -/
theorem gatherNd_batch_steps (ht : t.shape = batch ++ (depth ++ rest))
    (hindices : indices.shape = batch ++ outer ++ [depth.length]) (hne : batch ≠ []) :
    gatherNd t indices batch.length = (do
      let xFlat ← tryReshape t ((batch.prod :: (depth ++ rest)).map .const)
      let idxFlat ← tryReshape indices ((batch.prod :: (outer ++ [depth.length])).map .const)
      let flatIdx ← flattenTuples idxFlat (tupleStrides depth)
      let batches ← arange 0 batch.prod
      let batchOffsetArr ← tryMul (cast (fun v => TypedInt.ofInt v.val) batches)
        (full [1] (.ofInt depth.prod))
      let flatIdx ← tryReshape flatIdx ([batch.prod, outer.prod].map .const)
      let offsetColumn ← tryReshape batchOffsetArr ([batch.prod, 1].map .const)
      let batchOffset ← tryExpand offsetColumn ([batch.prod, outer.prod].map .const)
      let flatIdx ← tryAdd flatIdx batchOffset
      let x2d ← tryReshape xFlat ([batch.prod * depth.prod, rest.prod].map .const)
      let column ← tryReshape flatIdx ([batch.prod * outer.prod, 1].map .const)
      let fi ← tryExpand column ([batch.prod * outer.prod, rest.prod].map .const)
      ensure (Readable [batch.prod * outer.prod, rest.prod]) .shapeUnknown
      let result ← gather x2d 0 (castInt32 fi)
      tryReshape result ((batch ++ outer ++ rest).map .const)) := by
  have hzero : ¬ batch.length = 0 := fun h => hne (List.length_eq_zero_iff.mp h)
  have htake : (batch ++ (depth ++ rest)).take batch.length = batch := List.take_left' rfl
  have hdrop : (batch ++ (depth ++ rest)).drop batch.length = depth ++ rest := List.drop_left' rfl
  have hdrop' : (batch ++ outer ++ [depth.length]).drop batch.length = outer ++ [depth.length] := by
    rw [List.append_assoc, List.drop_left' rfl]
  have htakeD : (depth ++ rest).take depth.length = depth := List.take_left' rfl
  have hdropD : (depth ++ rest).drop depth.length = rest := List.drop_left' rfl
  have hle : batch.length ≤ (batch ++ (depth ++ rest)).length := by simp
  have hle' : batch.length ≤ (batch ++ outer ++ [depth.length]).length := by
    simp only [List.length_append]
    omega
  have hleD : depth.length ≤ (depth ++ rest).length := by simp
  unfold gatherNd
  simp only [ht, hindices, lastExtent_concat]
  rw [bind_ok rfl]
  simp only [if_neg hzero, sliceDims, ensure_of_true hle, ensure_of_true hle', htake, hdrop,
    hdrop', lastExtent_concat, List.dropLast_concat]
  rw [bind_ok rfl, bind_ok rfl]
  simp only [bind_ok rfl, ensure_of_true hleD, htakeD, hdropD]

/-- With batches the rows of a batch follow those of the batches before it. -/
theorem gatherNd_rows_batch (ht : t.Holds (batch ++ (depth ++ rest)) f)
    (hindices : indices.Holds (batch ++ outer ++ [depth.length])
      (onSlots (batch ++ outer).length idx))
    (hnonneg : ∀ c k, InBounds c (batch ++ outer) → k < depth.length → 0 ≤ (idx c k).val)
    (hone : depth ≠ [] ∨ (batch ++ outer).prod = 1) (hne : batch ≠ [])
    (hb : batch.prod < 2 ^ 31) : GathersRows t indices batch depth outer rest f idx := by
  obtain ⟨xFlat, hxFlat, hx⟩ := batchArray_returns ht
  obtain ⟨idxFlat, hidxFlat, hi⟩ := batchIndex_returns hindices
  obtain ⟨flat, view, hflat, hview, hv⟩ := flatView_returns (v := [batch.prod, outer.prod]) hi
    (batchIndex_nonneg hnonneg) (by simp) (by simpa using hone)
  obtain ⟨batches, offsets, hbatches, hoffsets, ho⟩ := offsets_returns batch.prod depth.prod
  rw [batchCount_of_lt hb] at ho
  obtain ⟨column, expanded, hcolumn, hexpanded, he⟩ := batchOffset_returns outer.prod ho
  let position (x y : ℕ) : ℕ := ravel (batch ++ depth)
    (unravel batch x ++ tupleOf idx depth.length (unravel batch x ++ unravel outer y))
  have hadd : Returns (tryAdd view expanded) [batch.prod, outer.prod] fun c =>
      .ofInt (position (c.getD 0 0) (c.getD 1 0) : ℕ) := by
    refine (tryBinary_returns_same (· + ·) hv he).congr fun c hc => ?_
    obtain _ | ⟨x, _ | ⟨y, _ | _⟩⟩ := c <;> simp at hc
    have hflat : unravel (batch.prod :: outer) (ravel [batch.prod, outer.prod] [x, y]) =
        x :: unravel outer y := by
      have hpos : 0 < outer.prod := by omega
      have hravel : ravel [batch.prod, outer.prod] [x, y] = y + outer.prod * x := by
        simp [ravel]
        ring
      rw [hravel, unravel, Nat.add_mul_div_left _ _ hpos, Nat.div_eq_of_lt hc.2, Nat.zero_add,
        Nat.add_mul_mod_self_left, Nat.mod_eq_of_lt hc.2]
    have hposition : position x y = ravel depth (tupleOf idx depth.length
        (unravel batch x ++ unravel outer y)) + x * depth.prod := by
      have h := ravel_append (unravel_length batch x) depth
        (tupleOf idx depth.length (unravel batch x ++ unravel outer y))
      rw [ravel_unravel hc.1] at h
      rw [Nat.add_comm]
      exact h
    simp only [hflat, List.getD_cons_zero, List.getD_cons_succ]
    rw [hposition, ← TypedInt.ofInt_add]
    push_cast
    rfl
  obtain ⟨flatIdx, hflatIdx, hf⟩ := hadd
  obtain ⟨column', hcolumn', hcol⟩ := rows_returns (a := [batch.prod, outer.prod]) (b := [])
    (n := batch.prod * outer.prod) (r := 1) hf (by simp) rfl
  have hcol' : column'.Holds [batch.prod * outer.prod, 1] fun c =>
      .ofInt (position (c.getD 0 0 / outer.prod) (c.getD 0 0 % outer.prod) : ℕ) :=
    hcol.congr fun c _ => by simp [unravel]
  obtain ⟨rows, hrows, hindex⟩ := rowIndex_returns rest.prod
    (p := fun z => position (z / outer.prod) (z % outer.prod)) hcol'
  obtain ⟨x2d, hx2d, hx'⟩ := rows_returns (n := batch.prod * depth.prod) hx (by simp) rfl
  refine ⟨x2d, castInt32 rows, ?_, ?_, ?_⟩
  · rw [gatherNd_batch_steps ht.shape_eq hindices.shape_eq hne, bind_ok hxFlat, bind_ok hidxFlat,
      bind_ok hflat, bind_ok hbatches, bind_ok hoffsets, bind_ok hview, bind_ok hcolumn,
      bind_ok hexpanded, bind_ok hflatIdx, bind_ok hx2d, bind_ok hcolumn', bind_ok hrows,
      List.prod_append]
  · rw [List.prod_append]
    refine hx'.congr fun c hc => ?_
    obtain ⟨x, c, rfl, hx, -⟩ := inBounds_cons hc
    rw [List.getD_cons_zero, unravel_append (by rwa [List.prod_append]), List.append_assoc]
    rfl
  · rw [List.prod_append]
    refine hindex.congr fun c hc => ?_
    obtain ⟨x, c, rfl, hx, -⟩ := inBounds_cons hc
    rw [List.getD_cons_zero, unravel_append (by rwa [List.prod_append])]
    simp only [rowOf, position, List.take_left' (unravel_length batch _)]

theorem gatherNd_rows (ht : t.Holds (batch ++ (depth ++ rest)) f)
    (hindices : indices.Holds (batch ++ outer ++ [depth.length])
      (onSlots (batch ++ outer).length idx))
    (hnonneg : ∀ c k, InBounds c (batch ++ outer) → k < depth.length → 0 ≤ (idx c k).val)
    (hone : depth ≠ [] ∨ (batch ++ outer).prod = 1) (hb : batch = [] ∨ batch.prod < 2 ^ 31) :
    GathersRows t indices batch depth outer rest f idx := by
  by_cases hne : batch = []
  · subst hne
    exact gatherNd_rows_flat ht hindices hnonneg hone
  · exact gatherNd_rows_batch ht hindices hnonneg hone hne (hb.resolve_left hne)

/-- The rows named by the tuples, their numbers narrowed to 32 bits. -/
theorem gatherNd_returns (ht : t.Holds (batch ++ (depth ++ rest)) f)
    (hindices : indices.Holds (batch ++ outer ++ [depth.length])
      (onSlots (batch ++ outer).length idx))
    (hnonneg : ∀ c k, InBounds c (batch ++ outer) → k < depth.length → 0 ≤ (idx c k).val)
    (hone : depth ≠ [] ∨ (batch ++ outer).prod = 1) (hb : batch = [] ∨ batch.prod < 2 ^ 31)
    (hn : (batch ++ depth).prod < 2 ^ 31) (hread : Readable [(batch ++ outer).prod, rest.prod]) :
    Returns (gatherNd t indices batch.length) (batch ++ outer ++ rest) fun c =>
      rowOr (batch ++ depth).prod
        (fun x => f (unravel (batch ++ depth) x ++ c.drop (batch ++ outer).length))
        (narrowed (rowOf batch depth idx (c.take (batch ++ outer).length))) := by
  obtain ⟨x2d, index, hcall, hx, hindex⟩ := gatherNd_rows ht hindices hnonneg hone hb
  rw [hcall, ensure_of_true hread, bind_ok rfl]
  refine (gatherRows_returns (g := fun x y => f (unravel (batch ++ depth) x ++ unravel rest y))
    (q := fun x => .ofInt (rowOf batch depth idx (unravel (batch ++ outer) x) : ℕ))
    hx hindex rfl rfl hn).congr fun c hc => ?_
  obtain ⟨c₁, c₂, rfl, h₁, h₂⟩ := InBounds.split hc
  rw [List.take_left' (InBounds.length h₁), List.drop_left' (InBounds.length h₁),
    unravel_ravel h₁, unravel_ravel h₂]
  rfl

/-- A scalar position for other than one tuple, rows that are not counted, or an index whose
    elements are not. -/
theorem gatherNd_error (ht : t.Holds (batch ++ (depth ++ rest)) f)
    (hindices : indices.Holds (batch ++ outer ++ [depth.length])
      (onSlots (batch ++ outer).length idx))
    (hnonneg : ∀ c k, InBounds c (batch ++ outer) → k < depth.length → 0 ≤ (idx c k).val)
    (hsize : (batch ++ depth).prod < 2 ^ 63)
    (h : ¬ (depth ≠ [] ∨ (batch ++ outer).prod = 1) ∨ 2 ^ 31 ≤ (batch ++ depth).prod ∨
      ¬ Readable [(batch ++ outer).prod, rest.prod]) :
    ∃ e, gatherNd t indices batch.length = .error e := by
  by_cases hrows : (depth ≠ [] ∨ (batch ++ outer).prod = 1) ∧
      (batch = [] ∨ batch.prod < 2 ^ 31)
  · obtain ⟨hone, hb⟩ := hrows
    obtain ⟨x2d, index, hcall, hx, hindex⟩ := gatherNd_rows ht hindices hnonneg hone hb
    rw [hcall]
    by_cases hread : Readable [(batch ++ outer).prod, rest.prod]
    swap
    · exact ⟨.shapeUnknown, by rw [ensure_of_false hread, bind_error rfl]⟩
    have hge := (h.resolve_left (not_not.mpr hone)).resolve_right (not_not.mpr hread)
    obtain ⟨e, he⟩ := gather_error hx hindex (gatherShapes_rows _ _ _)
      (show IsAxis 0 [(batch ++ depth).prod, rest.prod].length 0 from rfl) hsize (.inr hge)
    exact ⟨e, by rw [ensure_of_true hread, bind_ok rfl, bind_error he]⟩
  by_cases hne : batch = []
  · -- only the first check is left
    subst hne
    have hone : ¬ (depth ≠ [] ∨ outer.prod = 1) := fun hone => hrows ⟨hone, .inl rfl⟩
    simp only [not_or, not_not] at hone
    obtain ⟨rfl, hprod⟩ := hone
    obtain ⟨flat, e, hflat, he⟩ := flatView_error indices (v := [outer.prod, 1])
      (by simpa using hprod)
    have hts : t.shape = [] ++ rest := ht.shape_eq
    have his : indices.shape = outer ++ [([] : List ℕ).length] := hindices.shape_eq
    obtain ⟨xFlat, hxFlat, -⟩ := rows_returns (show t.Holds ([] ++ rest) f from ht) rfl rfl
    refine ⟨e, ?_⟩
    rw [List.length_nil, gatherNd_flat_steps hts his, bind_ok hflat, bind_ok hxFlat, bind_error he]
  obtain ⟨xFlat, hxFlat, -⟩ := batchArray_returns ht
  obtain ⟨idxFlat, hidxFlat, hi⟩ := batchIndex_returns hindices
  obtain ⟨batches, offsets, hbatches, hoffsets, ho⟩ := offsets_returns batch.prod depth.prod
  rw [gatherNd_batch_steps ht.shape_eq hindices.shape_eq hne]
  by_cases hone : depth ≠ [] ∨ (batch ++ outer).prod = 1
  · obtain ⟨flat, view, hflat, hview, -⟩ := flatView_returns (v := [batch.prod, outer.prod]) hi
      (batchIndex_nonneg hnonneg) (by simp) (by simpa using hone)
    have hprod : offsets.shape.prod ≠ [batch.prod, 1].prod := by
      rw [ho.shape_eq, List.prod_singleton, List.prod_cons, List.prod_singleton, mul_one]
      exact batchCount_ne fun hb => hrows ⟨hone, .inr hb⟩
    obtain ⟨e, he⟩ := tryReshape_error offsets hprod
    refine ⟨e, ?_⟩
    rw [bind_ok hxFlat, bind_ok hidxFlat, bind_ok hflat, bind_ok hbatches, bind_ok hoffsets,
      bind_ok hview, bind_error he]
  · simp only [not_or, not_not] at hone
    obtain ⟨rfl, hprod⟩ := hone
    obtain ⟨flat, e, hflat, he⟩ := flatView_error idxFlat (v := [batch.prod, outer.prod])
      (by simpa using hprod)
    refine ⟨e, ?_⟩
    rw [bind_ok hxFlat, bind_ok hidxFlat, bind_ok hflat, bind_ok hbatches, bind_ok hoffsets,
      bind_error he]

end Gather

/-! ## Scatter -/

section Scatter

variable {t updates : NdArray (TypedInt τ)} {f g : List ℕ → TypedInt τ}
  {indices : NdArray (TypedInt ι)} {idx : List ℕ → ℕ → TypedInt ι} {depth rest outer : List ℕ}

/-- Everything after the checks. -/
theorem scatterNd_steps (ht : t.shape = depth ++ rest)
    (hindices : indices.shape = outer ++ [depth.length]) (hupdates : updates.shape = outer ++ rest)
    (hrest : rest.prod ≠ 0) (reduction : Option ScatterReduction) :
    scatterNd t indices updates reduction = (do
      let xFlat ← tryReshape t ([depth.prod, rest.prod].map .const)
      let flatIdx ← flattenTuples indices (tupleStrides depth)
      let updFlat ← tryReshape updates ([outer.prod, rest.prod].map .const)
      let column ← tryReshape flatIdx ([outer.prod, 1].map .const)
      let flatIdx2d ← tryExpand column ([outer.prod, rest.prod].map .const)
      ensure (Readable [outer.prod, rest.prod]) .shapeUnknown
      let result ← match reduction with
        | none => scatter xFlat 0 (castInt32 flatIdx2d) updFlat
        | some reduce => scatterReduce xFlat 0 (castInt32 flatIdx2d) updFlat reduce true
      tryReshape result ((depth ++ rest).map .const)) := by
  have htake : (depth ++ rest).take depth.length = depth := List.take_left' rfl
  have hdrop : (depth ++ rest).drop depth.length = rest := List.drop_left' rfl
  have hle : depth.length ≤ (depth ++ rest).length := by simp
  have houter : (depth ++ rest).prod / rest.prod = depth.prod := by
    rw [List.prod_append, Nat.mul_div_cancel _ (Nat.pos_of_ne_zero hrest)]
  have hupd : (outer ++ rest).take ((outer ++ rest).length - ((depth ++ rest).length - depth.length)) =
      outer := by
    refine List.take_left' ?_
    simp only [List.length_append]
    omega
  unfold scatterNd
  simp only [ht, hindices, hupdates, lastExtent_concat]
  rw [bind_ok rfl]
  simp only [sliceDims, ensure_of_true hle, htake, hdrop, if_neg hrest, houter, hupd]
  refine (bind_ok rfl _).trans ?_
  cases reduction <;> rfl

theorem scatterShapes_rows (a n r : ℕ) : ScatterShapes [a, r] [n, r] [n, r] 0 where
  toGatherShapes := gatherShapes_rows a n r
  srcRank := rfl
  srcFits := fun _ _ => le_refl _

/-- What a position holds after the sources that name it are written. -/
def writtenAt (reduction : Option ScatterReduction) (own : TypedInt τ) (filled : Bool)
    (sources : List (TypedInt τ)) : TypedInt τ :=
  match reduction with
  | none => sources.getLast?.getD own
  | some reduce =>
    let folded := foldValues reduce.op own (foldedValues own true sources)
    if filled then reduce.op reduce.fill folded else folded

/-- Tuple number `k` names the row of the position. -/
def names (depth outer : List ℕ) (idx : List ℕ → ℕ → TypedInt ι) (c : List ℕ) (k : ℕ) : Bool :=
  decide (narrowed (rowOf [] depth idx (unravel outer k)) = ravel depth (c.take depth.length))

theorem names_eq {c c₁ : List ℕ} (h : c.take depth.length = c₁) :
    names depth outer idx c = fun k =>
      decide ((.ofInt (rowOf [] depth idx (unravel outer k) : ℕ) : TypedInt int32).val =
        ravel depth c₁) := by
  subst h
  rfl

/-- The rows written, their numbers narrowed to 32 bits. -/
theorem scatterNd_returns (ht : t.Holds (depth ++ rest) f)
    (hindices : indices.Holds (outer ++ [depth.length]) (onSlots outer.length idx))
    (hupdates : updates.Holds (outer ++ rest) g) (hrest : rest.prod ≠ 0)
    (hnonneg : ∀ c k, InBounds c outer → k < depth.length → 0 ≤ (idx c k).val)
    (hone : depth ≠ [] ∨ outer.prod = 1) (hn : depth.prod < 2 ^ 31)
    (hread : Readable [outer.prod, rest.prod])
    (reduction : Option ScatterReduction) (hpos : reduction = none → outer.prod ≠ 0) :
    Returns (scatterNd t indices updates reduction) (depth ++ rest) fun c =>
      writtenAt reduction (f c) (fillTakesPart (names depth outer idx c) (List.range outer.prod) true)
        (((List.range outer.prod).filter (names depth outer idx c)).map fun k =>
          g (unravel outer k ++ c.drop depth.length)) := by
  obtain ⟨xFlat, hxFlat, hx⟩ := rows_returns ht rfl rfl
  obtain ⟨flat, column, hflat, hcolumn, hcol⟩ := flatColumn_returns hindices hnonneg hone
  obtain ⟨rows, hrows, hindex⟩ := rowIndex_returns rest.prod
    (p := fun x => rowOf [] depth idx (unravel outer x)) hcol
  obtain ⟨updFlat, hupdFlat, hu⟩ := rows_returns hupdates rfl rfl
  rw [scatterNd_steps ht.shape_eq hindices.shape_eq hupdates.shape_eq hrest, bind_ok hxFlat,
    bind_ok hflat, bind_ok hupdFlat, bind_ok hcolumn, bind_ok hrows, ensure_of_true hread,
    bind_ok rfl]
  have haxis : IsAxis 0 [depth.prod, rest.prod].length 0 := rfl
  cases reduction with
  | none =>
    have hwritten := scatter_returns hx hindex hu (scatterShapes_rows _ _ _) haxis (by simp) hn rfl
      (hpos rfl)
    refine hwritten.bind fun result hresult => ?_
    refine (unrows_returns hresult).congr fun c hc => ?_
    obtain ⟨c₁, c₂, rfl, h₁, h₂⟩ := InBounds.split hc
    have htake : (c₁ ++ c₂).take depth.length = c₁ := List.take_left' (InBounds.length h₁)
    have hdrop : (c₁ ++ c₂).drop depth.length = c₂ := List.drop_left' (InBounds.length h₁)
    simp only [writtenAt, slotsAt, names_eq htake, htake, hdrop, List.set_cons_zero,
      List.getD_cons_zero, List.getD_cons_succ, unravel_ravel h₁, unravel_ravel h₂]
  | some reduce =>
    have hwritten := scatterReduce_returns hx hindex hu (scatterShapes_rows _ _ _) haxis (by simp)
      hn rfl reduce true
    refine hwritten.bind fun result hresult => ?_
    refine (unrows_returns hresult).congr fun c hc => ?_
    obtain ⟨c₁, c₂, rfl, h₁, h₂⟩ := InBounds.split hc
    have htake : (c₁ ++ c₂).take depth.length = c₁ := List.take_left' (InBounds.length h₁)
    have hdrop : (c₁ ++ c₂).drop depth.length = c₂ := List.drop_left' (InBounds.length h₁)
    simp only [writtenAt, slotsAt, names_eq htake, htake, hdrop, List.set_cons_zero,
      List.getD_cons_zero, List.getD_cons_succ, unravel_ravel h₁, unravel_ravel h₂]

/-- A scalar position for other than one tuple, rows that are not counted, an index whose elements
    are not, or no tuple to write. -/
theorem scatterNd_error (ht : t.Holds (depth ++ rest) f)
    (hindices : indices.Holds (outer ++ [depth.length]) (onSlots outer.length idx))
    (hupdates : updates.Holds (outer ++ rest) g) (hrest : rest.prod ≠ 0)
    (hnonneg : ∀ c k, InBounds c outer → k < depth.length → 0 ≤ (idx c k).val)
    (hsize : depth.prod < 2 ^ 63) (reduction : Option ScatterReduction)
    (h : ¬ (depth ≠ [] ∨ outer.prod = 1) ∨ 2 ^ 31 ≤ depth.prod ∨
      ¬ Readable [outer.prod, rest.prod] ∨ (reduction = none ∧ outer.prod = 0)) :
    ∃ e, scatterNd t indices updates reduction = .error e := by
  rw [scatterNd_steps ht.shape_eq hindices.shape_eq hupdates.shape_eq hrest]
  obtain ⟨xFlat, hxFlat, hx⟩ := rows_returns ht rfl rfl
  obtain ⟨updFlat, hupdFlat, hu⟩ := rows_returns hupdates rfl rfl
  by_cases hone : depth ≠ [] ∨ outer.prod = 1
  swap
  · simp only [not_or, not_not] at hone
    obtain ⟨rfl, hprod⟩ := hone
    obtain ⟨flat, e, hflat, he⟩ := flatView_error indices (v := [outer.prod, 1]) (by simpa using hprod)
    refine ⟨e, ?_⟩
    rw [bind_ok hxFlat, bind_ok hflat, bind_ok hupdFlat, bind_error he]
  obtain ⟨flat, column, hflat, hcolumn, hcol⟩ := flatColumn_returns hindices hnonneg hone
  obtain ⟨rows, hrows, hindex⟩ := rowIndex_returns rest.prod
    (p := fun x => rowOf [] depth idx (unravel outer x)) hcol
  have haxis : IsAxis 0 [depth.prod, rest.prod].length 0 := rfl
  have hshapes := scatterShapes_rows depth.prod outer.prod rest.prod
  rw [bind_ok hxFlat, bind_ok hflat, bind_ok hupdFlat, bind_ok hcolumn, bind_ok hrows]
  by_cases hread : Readable [outer.prod, rest.prod]
  swap
  · exact ⟨.shapeUnknown, by rw [ensure_of_false hread, bind_error rfl]⟩
  rw [ensure_of_true hread, bind_ok rfl]
  have hleft : 2 ^ 31 ≤ depth.prod ∨ reduction = none ∧ outer.prod = 0 :=
    (h.resolve_left (not_not.mpr hone)).imp_right fun h => h.resolve_left (not_not.mpr hread)
  cases reduction with
  | none =>
    obtain ⟨e, he⟩ := scatter_error hx hindex hu hshapes haxis hsize (.inr (hleft.elim .inl
      fun hzero => .inr (.inr hzero.2)))
    exact ⟨e, bind_error he _⟩
  | some reduce =>
    obtain ⟨e, he⟩ := scatterReduce_error hx hindex hu hshapes haxis hsize (.inr (hleft.elim .inl
      fun hzero => absurd hzero.1 (Option.some_ne_none _))) reduce true
    exact ⟨e, bind_error he _⟩

end Scatter

/-! ## The definitions and where they are met -/

section Definitions

variable {indices : NdArray (TypedInt ι)} {batch depth rest outer : List ℕ}

/-- The tuple of an index at coordinates off its last axis. -/
def tupleAt (indices : NdArray (TypedInt ι)) (n : ℕ) (c : List ℕ) : List ℕ :=
  tupleOf (fun c k => indices.get (c ++ [k])) n c

/-- An index of tuples inside the axes `depth`, one for each coordinate of the batches and the
    outer axes. -/
structure TupleIndex (indices : NdArray (TypedInt ι)) (batch outer depth : List ℕ) : Prop where
  shape : indices.shape = batch ++ outer ++ [depth.length]
  nonneg : ∀ c k, InBounds c (batch ++ outer) → k < depth.length → 0 ≤ (indices.get (c ++ [k])).val
  inRange : ∀ c, InBounds c (batch ++ outer) → InBounds (tupleAt indices depth.length c) depth

/-- Gather is the slice of its batch at each tuple. -/
def GatherNdMeets [Add α] [Zero α] (t : NdArray α) (indices : NdArray (TypedInt ι))
    (batch outer depth rest : List ℕ) : Prop :=
  Returns (gatherNd t indices batch.length) (batch ++ outer ++ rest) fun c =>
    t.get (c.take batch.length ++ tupleAt indices depth.length (c.take (batch ++ outer).length) ++
      c.drop (batch ++ outer).length)

theorem slots_self {t : NdArray α} {n : ℕ} (h : t.shape = s ++ [n]) :
    t.Holds (s ++ [n]) (onSlots s.length fun c k => t.get (c ++ [k])) := by
  refine ⟨h, fun c hc => ?_⟩
  obtain ⟨c, k, rfl, hc, -⟩ := inBounds_concat hc
  rw [onSlots_concat _ (InBounds.length hc)]

theorem narrowed_of_lt {p : ℕ} (h : p < 2 ^ 31) : narrowed p = p := int32_ofInt_natCast h

/-- The coordinates of a tuple, behind those of its batch. -/
theorem TupleIndex.inBounds (h : TupleIndex indices batch outer depth) {c : List ℕ}
    (hc : InBounds c (batch ++ outer)) :
    InBounds (c.take batch.length ++ tupleAt indices depth.length c) (batch ++ depth) := by
  obtain ⟨cb, co, rfl, hcb, hco⟩ := InBounds.split hc
  have htake : (cb ++ co).take batch.length = cb := List.take_left' (InBounds.length hcb)
  rw [htake]
  exact hcb.append (h.inRange _ hc)

section Gather

variable [AddMonoid α]

/-- What gather needs of the shapes. -/
def GatherNdFits (batch outer depth rest : List ℕ) : Prop :=
  (depth ≠ [] ∨ (batch ++ outer).prod = 1) ∧ (batch ++ depth).prod < 2 ^ 31 ∧
    Readable [(batch ++ outer).prod, rest.prod]

theorem GatherNdMeets.fits {t : NdArray α} (hindex : TupleIndex indices batch outer depth)
    (ht : t.shape = batch ++ (depth ++ rest)) (hsize : (batch ++ depth).prod < 2 ^ 63)
    (h : GatherNdMeets t indices batch outer depth rest) : GatherNdFits batch outer depth rest := by
  by_contra hcon
  have hself : t.Holds (batch ++ (depth ++ rest)) t.get := ht ▸ .self t
  refine h.not_error (gatherNd_error hself (slots_self hindex.shape) hindex.nonneg hsize ?_)
  by_contra hor
  rw [not_or, not_not, not_or, not_le, not_not] at hor
  exact hcon hor

theorem prod_ne_zero {s : List ℕ} (h : ∀ n ∈ s, n ≠ 0) : s.prod ≠ 0 := by
  simpa [List.prod_eq_zero_iff] using fun hz => h 0 hz rfl

/-- The rows are read as they are: there are fewer than `2 ^ 31`. -/
theorem gatherNdMeets_iff (hindex : TupleIndex indices batch outer depth)
    (hdepth : ∀ n ∈ depth, n ≠ 0) (hsize : (batch ++ depth).prod < 2 ^ 63)
    (t : NdArray α) (ht : t.shape = batch ++ (depth ++ rest)) :
    GatherNdMeets t indices batch outer depth rest ↔ GatherNdFits batch outer depth rest := by
  refine ⟨fun h => h.fits hindex ht hsize, fun ⟨hone, hn, hread⟩ => ?_⟩
  have hself : t.Holds (batch ++ (depth ++ rest)) t.get := ht ▸ .self t
  have hb : batch.prod < 2 ^ 31 := by
    rw [List.prod_append] at hn
    exact (Nat.le_mul_of_pos_right _ (Nat.pos_of_ne_zero (prod_ne_zero hdepth))).trans_lt hn
  refine (gatherNd_returns hself (slots_self hindex.shape) hindex.nonneg hone (.inr hb) hn
    hread).congr fun c hc => ?_
  obtain ⟨c₁, c₂, rfl, h₁, -⟩ := InBounds.split hc
  rw [List.take_left' (InBounds.length h₁), List.drop_left' (InBounds.length h₁)]
  have hin := hindex.inBounds h₁
  have hlt := ravel_lt hin
  have htake : (c₁ ++ c₂).take batch.length = c₁.take batch.length := by
    rw [List.take_append_of_le_length]
    rw [InBounds.length h₁, List.length_append]
    omega
  have hrow : narrowed (rowOf batch depth (fun c k => indices.get (c ++ [k])) c₁) =
      (ravel (batch ++ depth) (c₁.take batch.length ++ tupleAt indices depth.length c₁) : ℕ) :=
    narrowed_of_lt (hlt.trans hn)
  rw [hrow, rowOr, if_pos ⟨Int.natCast_nonneg _, by exact_mod_cast hlt⟩, Int.toNat_natCast,
    unravel_ravel hin, htake]

end Gather

section Scatter

variable {t updates : NdArray (TypedInt τ)} {reduction : Option ScatterReduction}

/-- The tuples that name a position, in row-major order. -/
def tuplesAt (indices : NdArray (TypedInt ι)) (outer depth c : List ℕ) : List (List ℕ) :=
  (coords outer).filter fun o => decide (tupleAt indices depth.length o = c.take depth.length)

/-- The updates of the tuples that name a position. -/
def updatesAt (indices : NdArray (TypedInt ι)) (updates : NdArray α) (outer depth c : List ℕ) :
    List α :=
  (tuplesAt indices outer depth c).map fun o => updates.get (o ++ c.drop depth.length)

/-- Scatter is the last update that names a position, or the fold of its values. -/
def ScatterNdMeets (t : NdArray (TypedInt τ)) (indices : NdArray (TypedInt ι))
    (updates : NdArray (TypedInt τ)) (reduction : Option ScatterReduction)
    (outer depth rest : List ℕ) : Prop :=
  Returns (scatterNd t indices updates reduction) (depth ++ rest) fun c =>
    writtenAt reduction (t.get c) false (updatesAt indices updates outer depth c)

/-- What scatter needs of the shapes. -/
def ScatterNdFits (outer depth rest : List ℕ) (reduction : Option ScatterReduction) : Prop :=
  (depth ≠ [] ∨ outer.prod = 1) ∧ depth.prod < 2 ^ 31 ∧ Readable [outer.prod, rest.prod] ∧
    (reduction = none → outer.prod ≠ 0)

/-- Where a tuple names another position some folded value is past the fill already. -/
def NdFillIsHarmless (t : NdArray (TypedInt τ)) (indices : NdArray (TypedInt ι))
    (updates : NdArray (TypedInt τ)) (reduction : Option ScatterReduction)
    (outer depth rest : List ℕ) : Prop :=
  ∀ reduce, reduction = some reduce → ∀ c, InBounds c (depth ++ rest) →
    (∃ o, InBounds o outer ∧ tupleAt indices depth.length o ≠ c.take depth.length) →
    ∃ v ∈ t.get c :: updatesAt indices updates outer depth c, reduce.op reduce.fill v = v

theorem TupleIndex.slots (h : TupleIndex indices [] outer depth) :
    indices.Holds (outer ++ [depth.length])
      (onSlots outer.length fun c k => indices.get (c ++ [k])) := slots_self h.shape

theorem ScatterNdMeets.fits (hindex : TupleIndex indices [] outer depth)
    (hrest : rest.prod ≠ 0) (hsize : depth.prod < 2 ^ 63) (ht : t.shape = depth ++ rest)
    (hupdates : updates.shape = outer ++ rest)
    (h : ScatterNdMeets t indices updates reduction outer depth rest) :
    ScatterNdFits outer depth rest reduction := by
  by_contra hcon
  have hself : t.Holds (depth ++ rest) t.get := ht ▸ .self t
  have hupd : updates.Holds (outer ++ rest) updates.get := hupdates ▸ .self updates
  refine h.not_error (scatterNd_error hself hindex.slots hupd hrest hindex.nonneg hsize
    reduction ?_)
  by_contra hor
  rw [not_or, not_not, not_or, not_le, not_or, not_not, not_and] at hor
  exact hcon hor

/-- Rows are named by their tuples only. -/
theorem names_iff (hindex : TupleIndex indices [] outer depth) (hn : depth.prod < 2 ^ 31)
    {c : List ℕ} (hc : InBounds c (depth ++ rest))
    {k : ℕ} (hk : k < outer.prod) :
    names depth outer (fun c k => indices.get (c ++ [k])) c k = true ↔
      tupleAt indices depth.length (unravel outer k) = c.take depth.length := by
  have hin := unravel_inBounds hk
  have hrow : narrowed (rowOf [] depth (fun c k => indices.get (c ++ [k])) (unravel outer k)) =
      (ravel depth (tupleAt indices depth.length (unravel outer k)) : ℕ) :=
    narrowed_of_lt ((ravel_lt (hindex.inRange _ hin)).trans hn)
  obtain ⟨c₁, c₂, rfl, h₁, -⟩ := InBounds.split hc
  rw [names, decide_eq_true_eq, hrow, List.take_left' (InBounds.length h₁), Nat.cast_inj]
  constructor
  · intro h
    rw [← unravel_ravel (hindex.inRange _ hin), h, unravel_ravel h₁]
  · intro h
    rw [h]

theorem updatesAt_eq (hindex : TupleIndex indices [] outer depth) (hn : depth.prod < 2 ^ 31)
    {c : List ℕ} (hc : InBounds c (depth ++ rest)) (updates : NdArray α) :
    ((List.range outer.prod).filter (names depth outer (fun c k => indices.get (c ++ [k])) c)).map
      (fun k => updates.get (unravel outer k ++ c.drop depth.length)) =
        updatesAt indices updates outer depth c := by
  rw [updatesAt, tuplesAt, coords, List.filter_map, List.map_map]
  refine congrArg (List.map _) (List.filter_congr fun k hk => ?_)
  rw [Bool.eq_iff_iff, names_iff hindex hn hc (List.mem_range.mp hk)]
  simp

theorem fillTakesPart_iff (hindex : TupleIndex indices [] outer depth) (hn : depth.prod < 2 ^ 31)
    {c : List ℕ} (hc : InBounds c (depth ++ rest)) :
    fillTakesPart (names depth outer (fun c k => indices.get (c ++ [k])) c) (List.range outer.prod)
      true = true ↔ ∃ o, InBounds o outer ∧ tupleAt indices depth.length o ≠ c.take depth.length := by
  simp only [fillTakesPart, Bool.not_true, Bool.false_and, Bool.or_false, Bool.not_eq_true',
    List.all_eq_false]
  constructor
  · rintro ⟨k, hk, hne⟩
    have hk' := List.mem_range.mp hk
    exact ⟨_, unravel_inBounds hk', fun heq => hne ((names_iff hindex hn hc hk').mpr heq)⟩
  · rintro ⟨o, ho, hne⟩
    refine ⟨ravel outer o, List.mem_range.mpr (ravel_lt ho), fun hname => hne ?_⟩
    rw [names_iff hindex hn hc (ravel_lt ho), unravel_ravel ho] at hname
    exact hname

/-- The rows are written as they are, but for the fill. -/
theorem scatterNdMeets_iff (hindex : TupleIndex indices [] outer depth) (hrest : rest.prod ≠ 0)
    (hsize : depth.prod < 2 ^ 63) (ht : t.shape = depth ++ rest)
    (hupdates : updates.shape = outer ++ rest) :
    ScatterNdMeets t indices updates reduction outer depth rest ↔
      ScatterNdFits outer depth rest reduction ∧
        NdFillIsHarmless t indices updates reduction outer depth rest := by
  by_cases hfits : ScatterNdFits outer depth rest reduction
  swap
  · exact iff_of_false (fun h => hfits (h.fits hindex hrest hsize ht hupdates)) fun h => hfits h.1
  obtain ⟨hone, hn, hread, hpos⟩ := hfits
  have hself : t.Holds (depth ++ rest) t.get := ht ▸ .self t
  have hupd : updates.Holds (outer ++ rest) updates.get := hupdates ▸ .self updates
  have hcode := scatterNd_returns hself hindex.slots hupd hrest hindex.nonneg hone hn hread
    reduction hpos
  constructor
  · intro h
    refine ⟨⟨hone, hn, hread, hpos⟩, fun reduce hreduce c hc hother => ?_⟩
    subst hreduce
    have heq := hcode.unique h hc
    rw [updatesAt_eq hindex hn hc updates,
      (fillTakesPart_iff hindex hn hc).mpr hother] at heq
    exact (fill_absorbed_iff reduce _ (List.cons_ne_nil _ _)).mp heq
  · rintro ⟨-, hfill⟩
    refine hcode.congr fun c hc => ?_
    rw [updatesAt_eq hindex hn hc updates]
    cases hpart : fillTakesPart (names depth outer (fun c k => indices.get (c ++ [k])) c)
      (List.range outer.prod) true with
    | false => rfl
    | true =>
      cases reduction with
      | none => rfl
      | some reduce =>
        exact (fill_absorbed_iff reduce _ (List.cons_ne_nil _ _)).mpr
          (hfill reduce rfl c hc ((fillTakesPart_iff hindex hn hc).mp hpart))

end Scatter

/-- Exactly where gather and scatter by tuples meet their definitions. -/
theorem nd_meet_iff [AddMonoid α] (hindex : TupleIndex indices batch outer depth)
    (hdims : ∀ n ∈ depth ++ rest, n ≠ 0) (hsize : (batch ++ depth).prod < 2 ^ 63) :
    (∀ t : NdArray α, t.shape = batch ++ (depth ++ rest) →
      (GatherNdMeets t indices batch outer depth rest ↔ GatherNdFits batch outer depth rest)) ∧
    (batch = [] → ∀ (reduction : Option ScatterReduction) (t updates : NdArray (TypedInt τ)),
      t.shape = depth ++ rest → updates.shape = outer ++ rest →
        (ScatterNdMeets t indices updates reduction outer depth rest ↔
          ScatterNdFits outer depth rest reduction ∧
            NdFillIsHarmless t indices updates reduction outer depth rest)) := by
  refine ⟨gatherNdMeets_iff hindex (fun n hn => hdims n (List.mem_append_left _ hn)) hsize, ?_⟩
  rintro rfl reduction t updates ht hupdates
  exact scatterNdMeets_iff hindex
    (prod_ne_zero fun n hn => hdims n (List.mem_append_right _ hn)) hsize ht hupdates

end Definitions

/-- One tuple, which names the first row. -/
def firstRow : NdArray (TypedInt int32) := ⟨[1, 1], fun _ => 0⟩

theorem tupleIndex_firstRow (n : ℕ) (hn : 0 < n) : TupleIndex firstRow [] [1] [n] where
  shape := rfl
  nonneg := fun _ _ _ _ => show 0 ≤ (0 : TypedInt int32).val by decide
  inRange := fun _ _ => .cons (by exact hn) .nil

/-- Two tuples for each batch, which name the last row of two axes and the first. -/
def cornerRows (batch : List ℕ) : NdArray (TypedInt int32) :=
  ⟨batch ++ [2, 2], fun c => if c.getD batch.length 0 = 0 then 1 else 0⟩

theorem tupleIndex_cornerRows (batch : List ℕ) :
    TupleIndex (cornerRows batch) batch [2] [2, 2] where
  shape := by simp [cornerRows]
  nonneg := fun c k _ _ => by
    simp only [cornerRows]
    split <;> decide
  inRange := fun c hc => by
    have hlen := InBounds.length hc
    have htuple : tupleAt (cornerRows batch) 2 c = [1, 1] ∨
        tupleAt (cornerRows batch) 2 c = [0, 0] := by
      have hread : ∀ k, (c ++ [k]).getD batch.length 0 = c.getD batch.length 0 := fun k =>
        List.getD_append _ _ _ _ (by rw [hlen]; simp)
      simp only [tupleAt, tupleOf, cornerRows, hread]
      split
      · exact .inl rfl
      · exact .inr rfl
    rcases htuple with h | h
    · exact h ▸ by decide
    · exact h ▸ by decide

/-- The elements are their row-major positions. -/
def counted (shape : List ℕ) : NdArray (TypedInt int32) := ⟨shape, fun c => .ofInt (ravel shape c)⟩

theorem nd_meet_iff_cornerRows :
    GatherNdMeets (counted [2, 2, 2, 3]) (cornerRows [2]) [2] [2] [2, 2] [3] ∧
      ScatterNdMeets (counted [2, 2, 3]) (cornerRows []) (counted [2, 3]) (some .sum) [2] [2, 2]
        [3] := by
  have hfill : NdFillIsHarmless (counted [2, 2, 3]) (cornerRows []) (counted [2, 3]) (some .sum) [2]
      [2, 2] [3] := by
    rintro reduce hreduce c - -
    obtain rfl := Option.some.inj hreduce
    exact ⟨_, List.mem_cons_self, zero_add _⟩
  have hgather := (nd_meet_iff (α := TypedInt int32) (τ := int32)
    (tupleIndex_cornerRows [2]) (by decide) (by decide)).1 (counted [2, 2, 2, 3])
    (show _ = [2] ++ ([2, 2] ++ [3]) from rfl)
  have hscatter := (nd_meet_iff (α := TypedInt int32) (τ := int32)
    (tupleIndex_cornerRows []) (by decide) (by decide)).2 rfl (some .sum) (counted [2, 2, 3])
      (counted [2, 3]) (show _ = [2, 2] ++ [3] from rfl) rfl
  exact ⟨hgather.mpr ⟨.inl (by decide), by decide, by decide⟩,
    hscatter.mpr ⟨⟨.inl (by decide), by decide, by decide, by decide⟩, hfill⟩⟩

/-- A maximum of negative numbers: the row no tuple names becomes `0`, the 64-bit fill in 32
    bits. -/
theorem scatterNd_unnamed_row :
    TupleIndex firstRow [] [1] [2] ∧
      ¬ ScatterNdMeets (lineOf [-5, -5]) firstRow (lineOf [-3]) (some .amax) [1] [2] [] := by
  have hindex := tupleIndex_firstRow 2 (by decide)
  refine ⟨hindex, fun h => ?_⟩
  obtain ⟨-, hfill⟩ := (scatterNdMeets_iff hindex (by decide) (by decide) rfl rfl).mp h
  obtain ⟨v, hv, hpast⟩ := hfill .amax rfl [1] (by decide) ⟨[0], by decide, by decide⟩
  have hnone : updatesAt firstRow (lineOf [-3]) [1] [2] [1] = [] := by decide
  rw [hnone] at hv
  obtain rfl := List.mem_singleton.mp hv
  revert hpast
  decide

end Svod.Tensor.Nd
