/-
  Svod.Tensor.IndexingSound

  What gather and scatter compute.

  The chains put one slot of the index at each position of a new last axis.
  `onSlots` describes such an array by the coordinates off that axis and the
  slot; the rules of the chain then are a line each, and the folds over the slots
  are facts about lists.
-/

import Svod.Tensor.Indexing

namespace Svod.Tensor.Nd

open Svod.Lib Svod.Ir

variable {α β γ : Type} {τ ι : IntType}

/-! ## Slots -/

theorem inBounds_concat {c s : List ℕ} {n : ℕ} (h : InBounds c (s ++ [n])) :
    ∃ c' k, c = c' ++ [k] ∧ InBounds c' s ∧ k < n := by
  obtain ⟨c', k, rfl, h₁, h₂⟩ := InBounds.split h
  obtain _ | ⟨x, _ | _⟩ := k <;> simp at h₂
  exact ⟨c', x, rfl, h₁, h₂⟩

theorem InBounds.concat {c s : List ℕ} {k n : ℕ} (hc : InBounds c s) (hk : k < n) :
    InBounds (c ++ [k]) (s ++ [n]) :=
  InBounds.append hc (.cons hk .nil)

/-- Elements by the coordinates off the last axis, of `r` axes, and the slot on it. -/
def onSlots (r : ℕ) (g : List ℕ → ℕ → α) (c : List ℕ) : α := g (c.take r) (c.getD r 0)

@[simp] theorem onSlots_concat (g : List ℕ → ℕ → α) {c : List ℕ} {r : ℕ} (h : c.length = r)
    (k : ℕ) : onSlots r g (c ++ [k]) = g c k := by
  subst h
  simp [onSlots]

variable {t : NdArray α} {s : List ℕ} {n : ℕ} {f : List ℕ → α} {g g' : List ℕ → ℕ → α}

/-- Slots are compared position by position. -/
theorem Returns.congr_slots {x : Except ErrorKind (NdArray α)} {h : List ℕ → α}
    (hx : Returns x (s ++ [n]) h)
    (hg : ∀ c k, InBounds c s → k < n → h (c ++ [k]) = g c k) :
    Returns x (s ++ [n]) (onSlots s.length g) :=
  hx.congr fun c hc => by
    obtain ⟨c, k, rfl, hc, hk⟩ := inBounds_concat hc
    rw [onSlots_concat g (InBounds.length hc), hg c k hc hk]

theorem isAxis_concat (s : List ℕ) (n : ℕ) : IsAxis (-1) (s ++ [n]).length s.length := by
  have hpos : 0 < (s ++ [n]).length := by simp
  simpa using isAxis_last hpos

theorem unsqueeze_slots (h : t.Holds s f) :
    Returns (tryUnsqueeze t (-1)) (s ++ [1]) (onSlots s.length fun c _ => f c) := by
  have hstep := tryUnsqueeze_last h
  rw [List.insertIdx_length_self] at hstep
  refine hstep.congr_slots fun c k hc _ => ?_
  rw [List.eraseIdx_append_of_length_le (by rw [InBounds.length hc]), InBounds.length hc,
    Nat.sub_self, List.eraseIdx_zero, List.tail_cons, List.append_nil]

theorem swapIdx_concat {l : List ℕ} {d : ℕ} (hd : d < l.length) (x : ℕ) :
    swapIdx (l ++ [x]) l.length d = l.set d x ++ [l.getD d 0] := by
  have hlast : (l ++ [x]).getD l.length 0 = x := by simp
  have hget : (l ++ [x]).getD d 0 = l.getD d 0 := by
    rw [List.getD_append _ _ _ _ hd]
  rw [swapIdx, hlast, hget, List.set_append_right _ _ (le_refl _), Nat.sub_self,
    List.set_cons_zero, List.set_append_left _ _ hd]

/-- The slot axis exchanged with axis `d`. -/
theorem transpose_slots {d : ℕ} (h : t.Holds (s ++ [n]) (onSlots s.length g)) (hd : d < s.length)
    (hr : s.length ≠ 63) :
    Returns (tryTranspose t (-1) d) (s.set d n ++ [s.getD d 0])
      (onSlots s.length fun c k => g (c.set d k) (c.getD d 0)) := by
  have hlt : d < (s ++ [n]).length := by
    simp only [List.length_append, List.length_cons, List.length_nil]
    omega
  have hstep := tryTranspose_returns h (isAxis_concat s n) (isAxis_natCast hlt) (by
    simp only [List.length_append, List.length_cons, List.length_nil]
    omega)
  rw [swapIdx_concat hd] at hstep
  have hlen : (s.set d n).length = s.length := List.length_set
  rw [← hlen]
  refine hstep.congr_slots fun c k hc _ => ?_
  have hc' : c.length = s.length := by rw [InBounds.length hc, hlen]
  have hswap := swapIdx_concat (l := c) (hc' ▸ hd) k
  rw [hc'] at hswap
  rw [hswap, onSlots_concat _ (by rw [List.length_set, hc'])]

theorem transpose_slots_error {d : ℕ} (h : t.Holds (s ++ [n]) f) (hd : d < s.length)
    (hr : s.length = 63) : ∃ e, tryTranspose t (-1) d = .error e := by
  have hlen : (s ++ [n]).length = 64 := by simp [hr]
  have hs := h.shape_eq
  refine tryTranspose_error (i := s.length) (j := d) ?_ ?_ (hs ▸ hlen)
  · rw [hs]
    exact isAxis_concat s n
  · rw [hs]
    exact isAxis_natCast (by omega)

/-- A fold over the slots. -/
theorem reduce_slots (op : α → α → α) {e : α} (hid : ∀ x, op x e = x)
    (h : t.Holds (s ++ [n]) (onSlots s.length g)) (hr : s.length ≠ 63) :
    Returns (reduceInternal op e t (.single (-1))) s fun c =>
      ((List.range n).map (g c)).foldr op e := by
  have hstep := reduceInternal_last op hid (s := s) (n := n) (f := onSlots s.length g)
    (by rw [List.insertIdx_length_self]; exact h) hr
  refine hstep.congr fun c hc => congrArg (List.foldr op e) (List.map_congr_left fun x _ => ?_)
  rw [← InBounds.length hc, List.insertIdx_length_self, onSlots_concat _ rfl]

/-! ## One-hot masks -/

theorem broadcastsTo_concat {s target : List ℕ} {a b : ℕ} (h : BroadcastsTo s target)
    (hab : a = b ∨ a = 1) : BroadcastsTo (s ++ [a]) (target ++ [b]) := by
  refine ⟨by simpa using h.1, ?_⟩
  have hsub : (target ++ [b]).length - (s ++ [a]).length = target.length - s.length := by simp
  rw [hsub, List.drop_append_of_le_length (by omega)]
  exact List.rel_append h.2 (.cons hab .nil)

theorem commonShape_slots (s : List ℕ) (m : ℕ) : CommonShape [s ++ [1], [m]] (s ++ [m]) where
  broadcasts := by
    have hlast : BroadcastsTo ([] ++ [m]) (s ++ [m]) :=
      broadcastsTo_concat (broadcastsTo_nil s) (.inl rfl)
    simpa using ⟨broadcastsTo_concat (broadcastsTo_self s) (.inr rfl), hlast⟩
  rank := ⟨s ++ [1], by simp, by simp⟩
  dims := by
    intro i hi
    by_cases hlt : i < s.length
    · refine ⟨s ++ [1], by simp, ?_⟩
      rw [alignLeft_self (by simp), List.getD_append _ _ _ _ hlt, List.getD_append _ _ _ _ hlt]
    · obtain rfl : i = s.length := by
        simp only [List.length_append, List.length_cons, List.length_nil] at hi
        omega
      exact ⟨[m], by simp, by simp [Movement.alignLeft]⟩

theorem broadcastCoords_concat {s c : List ℕ} {a k : ℕ} (h : s.length ≤ c.length) :
    broadcastCoords (s ++ [a]) (c ++ [k]) =
      broadcastCoords s c ++ [if a = 1 then 0 else k] := by
  have hsub : (c ++ [k]).length - (s ++ [a]).length = c.length - s.length := by simp
  rw [broadcastCoords, hsub, List.drop_append_of_le_length (by omega),
    List.zipWith_append (by rw [List.length_drop]; omega)]
  rfl

/-- An operand without slots against a vector of slots. -/
theorem tryBinary_slots (op : α → β → γ) {a : NdArray α} {b : NdArray β} {h : ℕ → β}
    (ha : a.Holds (s ++ [1]) (onSlots s.length fun c _ => f c))
    (hb : b.Holds [n] fun c => h (c.headD 0)) :
    Returns (tryBinary op a b) (s ++ [n]) (onSlots s.length fun c k => op (f c) (h k)) := by
  refine (tryBinary_returns op ha hb (commonShape_slots s n)).congr_slots fun c k hc hk => ?_
  have hlast : broadcastCoords [n] (c ++ [k]) = [k] := by
    have hstep := broadcastCoords_concat (s := []) (c := c) (a := n) (k := k) (Nat.zero_le _)
    rw [List.nil_append] at hstep
    rw [hstep]
    have hnil : broadcastCoords [] c = [] := by simp [broadcastCoords]
    rw [hnil, List.nil_append]
    split <;> [exact congrArg (· :: []) (by omega); rfl]
  rw [hlast, broadcastCoords_concat (by rw [InBounds.length hc]), broadcastCoords_self hc,
    onSlots_concat _ (InBounds.length hc), List.headD_cons]

/-- The slots an index names: the positions equal to its element. -/
theorem compare_slots {index : NdArray (TypedInt ι)} {idx : List ℕ → TypedInt ι}
    {arange : NdArray ℤ} {h : ℕ → ℤ}
    (hindex : index.Holds (s ++ [1]) (onSlots s.length fun c _ => idx c))
    (harange : arange.Holds [n] fun c => h (c.headD 0)) :
    Returns (tryEq (cast (·.val) index) arange) (s ++ [n])
      (onSlots s.length fun c k => decide ((idx c).val = h k)) :=
  tryBinary_slots (f := fun c => (idx c).val) _ (cast_holds (·.val) hindex) harange

/-! ## Gather -/

/-- The checks of `gather`. -/
structure GatherShapes (s si : List ℕ) (d : ℕ) : Prop where
  rank : si.length = s.length
  fits : ∀ e < s.length, e ≠ d → si.getD e 0 ≤ s.getD e 0

theorem getD_set_ne {l : List ℕ} {d e : ℕ} (h : e ≠ d) (x : ℕ) : (l.set d x).getD e 0 = l.getD e 0 := by
  simp [List.getD_eq_getElem?_getD, List.getElem?_set_ne (Ne.symm h)]

theorem getD_set_self {l : List ℕ} {d : ℕ} (hd : d < l.length) (x : ℕ) :
    (l.set d x).getD d 0 = x := by
  rw [List.getD_eq_getElem _ _ (by rwa [List.length_set]), List.getElem_set_self]

/-- The shrink to the index's size on every axis but one. -/
theorem shrink_off_axis {si : List ℕ} {d : ℕ} (h : t.Holds s f) (hshapes : GatherShapes s si d)
    (hd : d < s.length) :
    Returns (tryShrink t ((List.range s.length).map fun e =>
      if e = d then .none else .sint 0 (si.getD e 0))) (si.set d (s.getD d 0)) f := by
  have hbounds : List.zipWith (fun (r : ShrinkRange) n => r.bounds n)
      ((List.range s.length).map fun e => if e = d then .none else .sint 0 (si.getD e 0)) s =
        (si.set d (s.getD d 0)).map fun n => (0, n) := by
    refine List.ext_getElem (by simp [hshapes.rank]) fun e h₁ h₂ => ?_
    have he : e < s.length := by simpa [hshapes.rank] using h₂
    simp only [List.getElem_zipWith, List.getElem_map, List.getElem_range, List.getElem_set]
    by_cases hed : e = d
    · subst hed
      simp only [if_true, ShrinkRange.bounds, List.getD_eq_getElem _ _ he]
    · rw [if_neg hed, if_neg (Ne.symm hed), List.getD_eq_getElem _ _ (by rwa [hshapes.rank])]
      rfl
  refine tryShrink_start h ?_ hbounds
  refine List.forall₂_iff_get.mpr ⟨by simp, fun e h₁ h₂ => ?_⟩
  simp only [List.get_eq_getElem, List.getElem_map, List.getElem_range]
  by_cases hed : e = d
  · rw [if_pos hed]
    exact ⟨trivial, Nat.zero_le _, le_refl _⟩
  · rw [if_neg hed]
    refine ⟨trivial, Nat.zero_le _, ?_⟩
    have := hshapes.fits e h₂ hed
    rwa [List.getD_eq_getElem _ _ h₂] at this

theorem commonShape_slotAxis {si : List ℕ} {d : ℕ} :
    CommonShape [si ++ [n], si.set d 1 ++ [n], []] (si ++ [n]) := by
  refine CommonShape.of_mem (by simp) ?_
  have hset : BroadcastsTo (si.set d 1) si := by
    refine ⟨by simp, ?_⟩
    rw [List.length_set, Nat.sub_self, List.drop_zero]
    refine List.forall₂_iff_get.mpr ⟨by simp, fun e h₁ h₂ => ?_⟩
    simp only [List.get_eq_getElem, List.getElem_set]
    split
    · exact .inr rfl
    · exact .inl rfl
  simpa using ⟨broadcastsTo_self _, broadcastsTo_concat hset (.inl rfl), broadcastsTo_nil _⟩

theorem broadcastCoords_set_one {c s : List ℕ} {d : ℕ} (hc : InBounds c s) :
    broadcastCoords (s.set d 1) c = c.set d 0 := by
  have hlen := InBounds.length hc
  rw [broadcastCoords, List.length_set, hlen, Nat.sub_self, List.drop_zero]
  refine List.ext_getElem (by simp [hlen]) fun e h₁ h₂ => ?_
  rw [List.getElem_zipWith, List.getElem_set, List.getElem_set]
  by_cases hed : d = e
  · simp [hed]
  · rw [if_neg hed, if_neg hed]
    split
    · next hone =>
      have := hc.get (by simpa using h₂) (by simpa [hlen] using h₂)
      simp only [List.get_eq_getElem] at this
      omega
    · rfl

/-- The one summand an index names. -/
theorem sum_oneHot [AddMonoid α] (h : ℕ → α) {x : ℤ} {n : ℕ} (hx : 0 ≤ x) (hxn : x < n) :
    ((List.range n).map fun k : ℕ => if decide (x = (k : ℤ)) then h k else 0).sum = h x.toNat := by
  have hsplit : List.range n =
      List.range x.toNat ++ ((0 :: (List.range (n - x.toNat - 1)).map Nat.succ).map (x.toNat + ·)) := by
    rw [← List.range_succ_eq_map, ← List.range_add]
    congr 1
    omega
  have hzero : ∀ l : List ℕ, (∀ k ∈ l, x ≠ (k : ℤ)) →
      (l.map fun k : ℕ => if decide (x = (k : ℤ)) then h k else 0).sum = 0 := by
    intro l hl
    refine List.sum_eq_zero fun y hy => ?_
    obtain ⟨k, hk, rfl⟩ := List.mem_map.mp hy
    rw [decide_eq_false (hl k hk), if_neg (by simp)]
  rw [hsplit, List.map_append, List.sum_append, hzero _ (fun k hk => by
    have := List.mem_range.mp hk
    omega), zero_add, List.map_cons, List.map_cons, List.sum_cons, hzero _ (fun k hk => by
    simp only [List.map_map, List.mem_map, List.mem_range, Function.comp_apply] at hk
    obtain ⟨j, -, rfl⟩ := hk
    omega), add_zero, Nat.add_zero]
  rw [decide_eq_true (by omega : x = (x.toNat : ℤ)), if_pos rfl]

/-- Everything before the selection. -/
theorem gather_steps [AddMonoid α] {index : NdArray (TypedInt ι)} {si : List ℕ}
    {idx : List ℕ → TypedInt ι} {axis : ℤ} {d : ℕ} (ht : t.Holds s f) (hindex : index.Holds si idx)
    (hshapes : GatherShapes s si d) (haxis : IsAxis axis s.length d) :
    gather t axis index = (do
      let x ← tryShrink t ((List.range s.length).map fun e =>
        if e = d then .none else .sint 0 (si.getD e 0))
      let x ← tryUnsqueeze x (-1)
      let x ← tryTranspose x (-1) d
      let arange ← indexArange (s.getD d 0) ι
      let index ← tryUnsqueeze index (-1)
      let mask ← tryEq (cast (·.val) index) arange
      let selected ← where_ x mask (const 0)
      sum selected (.single (-1))) := by
  have hts := ht.shape_eq
  have his := hindex.shape_eq
  subst hts his
  have hchecks : ∀ x ∈ (t.shape.zip index.shape).zipIdx, x.2 = d ∨ x.1.2 ≤ x.1.1 := by
    intro x hx
    obtain ⟨hlt, hval⟩ := List.mem_zipIdx' hx
    have hlt' : x.2 < t.shape.length := by
      rw [List.length_zip] at hlt
      omega
    by_cases hd : x.2 = d
    · exact .inl hd
    · have := hshapes.fits x.2 hlt' hd
      rw [List.getD_eq_getElem _ _ hlt', List.getD_eq_getElem _ _ (by rwa [hshapes.rank])] at this
      rw [List.getElem_zip] at hval
      rw [hval]
      exact .inr this
  unfold gather
  rw [bind_ok haxis]
  simp only [ensure_of_true hshapes.rank, ensure_of_true hchecks]
  rfl

/-- Entries that name no position are masked out everywhere. -/
theorem sum_oneHot_outside [AddMonoid α] (h : ℕ → α) {x : ℤ} {n : ℕ} (hx : ¬ (0 ≤ x ∧ x < n)) :
    ((List.range n).map fun k : ℕ => if decide (x = (k : ℤ)) then h k else 0).sum = 0 := by
  refine List.sum_eq_zero fun y hy => ?_
  obtain ⟨k, hk, rfl⟩ := List.mem_map.mp hy
  have hlt := List.mem_range.mp hk
  rw [decide_eq_false (by omega), if_neg (by simp)]

/-- Gather reads the array at the index entries, and zero where an entry is out of range. -/
theorem gather_elements [AddMonoid α] {index : NdArray (TypedInt ι)} {si : List ℕ}
    {idx : List ℕ → TypedInt ι} {axis : ℤ} {d : ℕ} (ht : t.Holds s f) (hindex : index.Holds si idx)
    (hshapes : GatherShapes s si d) (haxis : IsAxis axis s.length d)
    (hr : s.length ≠ 63) (hn : s.getD d 0 < 2 ^ 31) :
    Returns (gather t axis index) si fun c =>
      if 0 ≤ (idx c).val ∧ (idx c).val < s.getD d 0 then f (c.set d (idx c).val.toNat) else 0 := by
  have hd := haxis.lt
  have hdi : d < si.length := hshapes.rank ▸ hd
  rw [gather_steps ht hindex hshapes haxis]
  refine (shrink_off_axis ht hshapes hd).bind fun x₁ h₁ => ?_
  refine (unsqueeze_slots h₁).bind fun x₂ h₂ => ?_
  have htranspose := transpose_slots h₂ (d := d) (by rwa [List.length_set])
    (by rw [List.length_set, hshapes.rank]; exact hr)
  rw [List.set_set, getD_set_self hdi, List.length_set] at htranspose
  refine htranspose.bind fun x₃ h₃ => ?_
  refine (indexArange_returns hn ι).bind fun arange harange => ?_
  refine (unsqueeze_slots hindex).bind fun index' hindex' => ?_
  refine (compare_slots hindex' harange).bind fun mask hmask => ?_
  have hsel := where_returns hmask h₃ (const_holds 0) commonShape_slotAxis
  have hsel' := hsel.congr_slots (g := fun c k =>
      if decide ((idx c).val = (k : ℤ)) then f (c.set d k) else 0) fun c k hc hk => by
    have hlen := InBounds.length hc
    have hself : broadcastCoords (si ++ [s.getD d 0]) (c ++ [k]) = c ++ [k] :=
      broadcastCoords_self (InBounds.concat hc hk)
    have hset : broadcastCoords (si.set d 1 ++ [s.getD d 0]) (c ++ [k]) = c.set d 0 ++ [k] := by
      have hk' : (if s.getD d 0 = 1 then 0 else k) = k := by
        split <;> omega
      rw [broadcastCoords_concat (by rw [List.length_set, hlen]), broadcastCoords_set_one hc, hk']
    rw [hself, hset, onSlots_concat _ hlen, onSlots_concat _ (by rw [List.length_set, hlen]),
      List.set_set]
  refine hsel'.bind fun x₄ h₄ => ?_
  refine (reduce_slots (· + ·) add_zero h₄ (hshapes.rank ▸ hr)).congr fun c hc => ?_
  split
  · next hin => exact sum_oneHot (fun k => f (c.set d k)) hin.1 hin.2
  · next hout => exact sum_oneHot_outside (fun k => f (c.set d k)) hout

/-- Gather reads the array at the index entries, from any array that is read. -/
theorem gather_returns [AddMonoid α] {index : NdArray (TypedInt ι)} {si : List ℕ}
    {idx : List ℕ → TypedInt ι} {axis : ℤ} {d : ℕ} (ht : t.Holds s f) (hindex : index.Holds si idx)
    (hshapes : GatherShapes s si d) (haxis : IsAxis axis s.length d)
    (hrange : ∀ c, InBounds c si → 0 ≤ (idx c).val ∧ (idx c).val < s.getD d 0)
    (hr : s.length ≠ 63) (hn : s.getD d 0 < 2 ^ 31) :
    Returns (gather t axis index) si fun c => f (c.set d (idx c).val.toNat) := by
  refine (gather_elements ht hindex hshapes haxis hr hn).congr fun c hc => ?_
  rw [if_pos (hrange c hc)]

/-- A rank of 63 or an extent whose positions are not counted. -/
theorem gather_error [AddMonoid α] {index : NdArray (TypedInt ι)} {si : List ℕ}
    {idx : List ℕ → TypedInt ι} {axis : ℤ} {d : ℕ} (ht : t.Holds s f) (hindex : index.Holds si idx)
    (hshapes : GatherShapes s si d) (haxis : IsAxis axis s.length d) (hsize : s.getD d 0 < 2 ^ 63)
    (h : s.length = 63 ∨ 2 ^ 31 ≤ s.getD d 0) : ∃ e, gather t axis index = .error e := by
  have hd := haxis.lt
  have hdi : d < si.length := hshapes.rank ▸ hd
  rw [gather_steps ht hindex hshapes haxis]
  obtain ⟨x₁, hx₁, h₁⟩ := shrink_off_axis ht hshapes hd
  obtain ⟨x₂, hx₂, h₂⟩ := unsqueeze_slots h₁
  by_cases hr : s.length = 63
  · obtain ⟨e, he⟩ := transpose_slots_error h₂ (d := d) (by rwa [List.length_set])
      (by rw [List.length_set, hshapes.rank, hr])
    exact ⟨e, by rw [bind_ok hx₁, bind_ok hx₂, bind_error he]⟩
  · obtain ⟨x₃, hx₃, h₃⟩ := transpose_slots h₂ (d := d) (by rwa [List.length_set])
      (by rw [List.length_set, hshapes.rank]; exact hr)
    obtain ⟨e, he⟩ := indexArange_error (h.resolve_left hr) hsize ι
    exact ⟨e, by rw [bind_ok hx₁, bind_ok hx₂, bind_ok hx₃, bind_error he]⟩

/-! ## The slots of a scatter -/

/-- The checks of `_pre_scatter`. -/
structure ScatterShapes (s si ss : List ℕ) (d : ℕ) : Prop extends GatherShapes s si d where
  srcRank : ss.length = s.length
  srcFits : ∀ e < s.length, si.getD e 0 ≤ ss.getD e 0

/-- The index has the shape of the array off the axis. -/
def SameOffAxis (s si : List ℕ) (d : ℕ) : Prop := si = s.set d (si.getD d 0)

instance (s si : List ℕ) (d : ℕ) : Decidable (SameOffAxis s si d) :=
  inferInstanceAs (Decidable (_ = _))

variable {index : NdArray (TypedInt ι)} {src : NdArray α} {si ss : List ℕ}
  {idx : List ℕ → TypedInt ι} {axis : ℤ} {d : ℕ}

theorem shrink_to {s' : List ℕ} (h : t.Holds s f) (hrank : s'.length = s.length)
    (hle : ∀ e < s.length, s'.getD e 0 ≤ s.getD e 0) :
    Returns (tryShrink t (s'.map fun d : ℕ => .isize 0 d)) s' f := by
  refine tryShrink_start h ?_ ?_
  · refine List.forall₂_iff_get.mpr ⟨by simpa using hrank, fun e h₁ h₂ => ?_⟩
    have hle' := hle e h₂
    have he : e < s'.length := by simpa using h₁
    rw [List.getD_eq_getElem _ _ h₂, List.getD_eq_getElem _ _ he] at hle'
    simp only [List.get_eq_getElem, List.getElem_map]
    exact ⟨⟨le_refl _, Int.natCast_nonneg _⟩, Nat.zero_le _, hle'⟩
  · refine List.ext_getElem (by simp [hrank]) fun e h₁ h₂ => ?_
    simp [ShrinkRange.bounds]

/-- The elements repeated over the slots. -/
theorem expand_slots (h : t.Holds (s ++ [1]) (onSlots s.length fun c _ => f c)) :
    Returns (tryExpand t ((s ++ [n]).map .const)) (s ++ [n]) (onSlots s.length fun c _ => f c) := by
  have hdims : List.Forall₂ (fun s n => s = n ∨ s = 1) (s ++ [1]) (s ++ [n]) :=
    List.rel_append (List.forall₂_same.mpr fun _ _ => .inl rfl) (.cons (.inr rfl) .nil)
  refine Returns.congr_slots (Returns.of_agrees (tryExpand_ok t (h.shape_eq.symm ▸ hdims))
    (h.expand hdims)) fun c k hc _ => ?_
  rw [List.zipWith_append (by rw [InBounds.length hc]), NdArray.expandCoords_self hc]
  exact onSlots_concat _ (InBounds.length hc) _

/-- The source at each slot. -/
theorem shrink_src (hsrc : src.Holds ss f) (hshapes : ScatterShapes s si ss d) :
    Returns (tryShrink src (si.map fun d : ℕ => .isize 0 d)) si f :=
  shrink_to hsrc (hshapes.rank.trans hshapes.srcRank.symm) fun e he =>
    hshapes.srcFits e (hshapes.srcRank ▸ he)

theorem oneHotAlongDim_returns (hindex : index.Holds (s ++ [1]) (onSlots s.length fun c _ => idx c))
    (hn : n < 2 ^ 31) :
    Returns (oneHotAlongDim index n (-1)) (s ++ [n])
      (onSlots s.length fun c k => decide ((idx c).val = k)) := by
  have hs := hindex.shape_eq
  have haxis : normalizeAxis (-1) index.shape.length = .ok s.length := by
    rw [hs]
    exact isAxis_concat s 1
  have hoffset : index.shape.length - s.length - 1 = 0 := by simp [hs]
  unfold oneHotAlongDim
  rw [bind_ok haxis]
  simp only [hoffset, List.replicate_zero]
  refine (indexArange_returns hn ι).bind fun u hu => ?_
  refine (tryReshape_returns hu (r := [n]) rfl id fun c hc => .refl hc).bind fun u' hu' => ?_
  exact compare_slots hindex hu'

theorem oneHotAlongDim_error (hindex : index.Holds (s ++ [1]) (onSlots s.length fun c _ => idx c))
    (hge : 2 ^ 31 ≤ n) (hsize : n < 2 ^ 63) : ∃ e, oneHotAlongDim index n (-1) = .error e := by
  have hs := hindex.shape_eq
  have haxis : normalizeAxis (-1) index.shape.length = .ok s.length := by
    rw [hs]
    exact isAxis_concat s 1
  obtain ⟨e, he⟩ := indexArange_error hge hsize ι
  refine ⟨e, ?_⟩
  unfold oneHotAlongDim
  rw [bind_ok haxis]
  exact bind_error he _

/-- Everything after the checks. -/
theorem preScatter_steps [Zero α] (ht : t.shape = s) (hindex : index.shape = si)
    (hsrc : src.shape = ss) (hshapes : ScatterShapes s si ss d) (haxis : IsAxis axis s.length d) :
    preScatter t axis index src = (do
      let src ← tryShrink src (si.map fun d : ℕ => .isize 0 d)
      let src ← tryUnsqueeze src (-1)
      let src ← tryExpand src ((si ++ [s.getD d 0]).map .const)
      let src ← tryTranspose src (-1) d
      let mask ← tryUnsqueeze index (-1)
      let mask ← oneHotAlongDim mask (s.getD d 0) (-1)
      let mask ← tryTranspose mask (-1) d
      let padding := (List.range s.length).map fun d =>
        ((0 : ℤ), max ((s.getD d 0 : ℤ) - src.shape.getD d 0) 0)
      if padding.any (0 < ·.2) then
        let src ← tryPad src padding
        let mask ← @tryPad Bool ⟨false⟩ mask padding
        return (src, mask)
      else return (src, mask)) := by
  subst ht hindex hsrc
  have hchecks : ∀ x ∈ ((t.shape.zip index.shape).zip src.shape).zipIdx,
      (x.2 = d ∨ x.1.1.2 ≤ x.1.1.1) ∧ x.1.1.2 ≤ x.1.2 := by
    intro x hx
    obtain ⟨hlt, hval⟩ := List.mem_zipIdx' hx
    have hlt' : x.2 < t.shape.length := by
      rw [List.length_zip, List.length_zip] at hlt
      omega
    have hi : x.2 < index.shape.length := by rwa [hshapes.rank]
    have hr : x.2 < src.shape.length := by rwa [hshapes.srcRank]
    rw [List.getElem_zip, List.getElem_zip] at hval
    have hsrc := hshapes.srcFits x.2 hlt'
    rw [List.getD_eq_getElem _ _ hi, List.getD_eq_getElem _ _ hr] at hsrc
    rw [hval]
    refine ⟨?_, hsrc⟩
    by_cases hd : x.2 = d
    · exact .inl hd
    · have := hshapes.fits x.2 hlt' hd
      rw [List.getD_eq_getElem _ _ hlt', List.getD_eq_getElem _ _ hi] at this
      exact .inr this
  unfold preScatter
  rw [bind_ok haxis]
  simp only [ensure_of_true (And.intro hshapes.rank hshapes.srcRank), ensure_of_true hchecks]
  rfl

theorem padding_zero (s s' : List ℕ) (h : ∀ e < s.length, s.getD e 0 ≤ s'.getD e 0) :
    ((List.range s.length).map fun d =>
      ((0 : ℤ), max ((s.getD d 0 : ℤ) - s'.getD d 0) 0)).any (0 < ·.2) = false := by
  refine List.any_eq_false.mpr fun x hx => ?_
  obtain ⟨e, he, rfl⟩ := List.mem_map.mp hx
  have := h e (List.mem_range.mp he)
  rw [decide_eq_true_eq, not_lt]
  show max ((s.getD e 0 : ℤ) - s'.getD e 0) 0 ≤ 0
  omega

/-- The two operands of a scatter whose index has the array's shape off the axis. -/
theorem preScatter_returns [Zero α] (ht : t.shape = s) (hindex : index.Holds si idx)
    (hsrc : src.Holds ss f) (hshapes : ScatterShapes s si ss d) (haxis : IsAxis axis s.length d)
    (hr : s.length ≠ 63) (hn : s.getD d 0 < 2 ^ 31) (hsame : SameOffAxis s si d) :
    ∃ srcP maskP, preScatter t axis index src = .ok (srcP, maskP) ∧
      srcP.Holds (s ++ [si.getD d 0]) (onSlots s.length fun c k => f (c.set d k)) ∧
      maskP.Holds (s ++ [si.getD d 0]) (onSlots s.length
        fun c k => decide ((idx (c.set d k)).val = c.getD d 0)) := by
  have hd := haxis.lt
  have hlen : si.length = s.length := hshapes.rank
  have hset : si.set d (s.getD d 0) = s := by
    rw [hsame, List.set_set, List.getD_eq_getElem _ _ hd, List.set_getElem_self]
  obtain ⟨x₁, hx₁, h₁⟩ := shrink_src hsrc hshapes
  obtain ⟨x₂, hx₂, h₂⟩ := unsqueeze_slots h₁
  obtain ⟨x₃, hx₃, h₃⟩ := expand_slots (n := s.getD d 0) h₂
  obtain ⟨x₄, hx₄, h₄⟩ := transpose_slots h₃ (hlen ▸ hd) (hlen ▸ hr)
  obtain ⟨m₁, hm₁, hmask₁⟩ := unsqueeze_slots hindex
  obtain ⟨m₂, hm₂, hmask₂⟩ := oneHotAlongDim_returns hmask₁ hn
  obtain ⟨m₃, hm₃, hmask₃⟩ := transpose_slots hmask₂ (hlen ▸ hd) (hlen ▸ hr)
  rw [hset, hlen] at h₄ hmask₃
  refine ⟨x₄, m₃, ?_, h₄, hmask₃⟩
  have hpad := padding_zero s x₄.shape fun e he => by
    rw [h₄.shape_eq, List.getD_append _ _ _ _ he]
  rw [preScatter_steps ht hindex.shape_eq hsrc.shape_eq hshapes haxis, bind_ok hx₁, bind_ok hx₂,
    bind_ok hx₃, bind_ok hx₄, bind_ok hm₁, bind_ok hm₂, bind_ok hm₃]
  simp only [hpad]
  rfl

/-- A rank of 63, an extent whose positions are not counted, or an index that is smaller off
    the axis: the padding has one entry too few. -/
theorem preScatter_error [Zero α] (ht : t.shape = s) (hindex : index.Holds si idx)
    (hsrc : src.Holds ss f) (hshapes : ScatterShapes s si ss d) (haxis : IsAxis axis s.length d)
    (hsize : s.getD d 0 < 2 ^ 63)
    (h : s.length = 63 ∨ 2 ^ 31 ≤ s.getD d 0 ∨ ¬ SameOffAxis s si d) :
    ∃ e, preScatter t axis index src = .error e := by
  have hd := haxis.lt
  have hlen : si.length = s.length := hshapes.rank
  rw [preScatter_steps ht hindex.shape_eq hsrc.shape_eq hshapes haxis]
  obtain ⟨x₁, hx₁, h₁⟩ := shrink_src hsrc hshapes
  obtain ⟨x₂, hx₂, h₂⟩ := unsqueeze_slots h₁
  obtain ⟨x₃, hx₃, h₃⟩ := expand_slots (n := s.getD d 0) h₂
  by_cases hr : s.length = 63
  · obtain ⟨e, he⟩ := transpose_slots_error h₃ (hlen ▸ hd) (hlen.trans hr)
    exact ⟨e, by rw [bind_ok hx₁, bind_ok hx₂, bind_ok hx₃, bind_error he]⟩
  obtain ⟨x₄, hx₄, h₄⟩ := transpose_slots h₃ (hlen ▸ hd) (hlen ▸ hr)
  obtain ⟨m₁, hm₁, hmask₁⟩ := unsqueeze_slots hindex
  by_cases hn : s.getD d 0 < 2 ^ 31
  swap
  · obtain ⟨e, he⟩ := oneHotAlongDim_error hmask₁ (not_lt.mp hn) hsize
    exact ⟨e, by
      rw [bind_ok hx₁, bind_ok hx₂, bind_ok hx₃, bind_ok hx₄, bind_ok hm₁, bind_error he]⟩
  obtain ⟨m₂, hm₂, hmask₂⟩ := oneHotAlongDim_returns hmask₁ hn
  obtain ⟨m₃, hm₃, hmask₃⟩ := transpose_slots hmask₂ (hlen ▸ hd) (hlen ▸ hr)
  have hsame : ¬ SameOffAxis s si d := (h.resolve_left hr).resolve_left (not_le.mpr hn)
  -- an axis off which the index is smaller
  obtain ⟨e, he, hed, hlt⟩ : ∃ e < s.length, e ≠ d ∧ si.getD e 0 < s.getD e 0 := by
    by_contra hall
    refine hsame (eq_of_getD (by rw [List.length_set, hlen]) fun e he => ?_)
    rw [List.length_set] at he
    by_cases hed : e = d
    · subst hed
      rw [getD_set_self he]
    · rw [getD_set_ne hed]
      exact le_antisymm (hshapes.fits e he hed)
        (not_lt.mp fun hlt => hall ⟨e, he, hed, hlt⟩)
  let padding := (List.range s.length).map fun d =>
    ((0 : ℤ), max ((s.getD d 0 : ℤ) - x₄.shape.getD d 0) 0)
  have hpad : padding.any (0 < ·.2) = true := by
    refine List.any_eq_true.mpr ⟨_, List.mem_map_of_mem (List.mem_range.mpr he), ?_⟩
    have hdim : x₄.shape.getD e 0 = si.getD e 0 := by
      rw [h₄.shape_eq, List.getD_append _ _ _ _ (by rwa [List.length_set, hlen]), getD_set_ne hed]
    rw [hdim, decide_eq_true_eq]
    show 0 < max ((s.getD e 0 : ℤ) - si.getD e 0) 0
    omega
  have hne : padding ≠ [] := by
    intro hnil
    rw [hnil] at hpad
    cases hpad
  have hrank : ¬ padding.length = x₄.shape.length := by
    rw [h₄.shape_eq]
    simp only [padding, List.length_map, List.length_range, List.length_append, List.length_set,
      List.length_cons, List.length_nil]
    omega
  obtain ⟨err, herr⟩ : ∃ err, tryPad x₄ padding = .error err :=
    ⟨_, by rw [tryPad, if_neg hne, ensure_of_false hrank]; rfl⟩
  refine ⟨err, ?_⟩
  rw [bind_ok hx₁, bind_ok hx₂, bind_ok hx₃, bind_ok hx₄, bind_ok hm₁, bind_ok hm₂, bind_ok hm₃]
  simp only [padding] at hpad herr
  simp only [hpad, if_true]
  rw [bind_error herr]

end Svod.Tensor.Nd
