/-
  Svod.Tensor.SelectionSound

  `masked_select` returns the selected elements in order, and `nonzero` their
  coordinates.

  The index of the selection is a running sum of a histogram of the running
  counts of the mask; that it names the selected positions is the counting fact
  of `Lib.RunningCount`.
-/

import Mathlib.Algebra.BigOperators.Ring.Finset
import Svod.Lib.RunningCount
import Svod.Tensor.ScatterSound

namespace Svod.Tensor.Nd

open Svod.Lib Svod.Ir

variable {α : Type} {t : NdArray α} {s sm : List ℕ} {f : List ℕ → α} {mask : NdArray Bool}
  {m : List ℕ → Bool}

/-! ## Counts -/

theorem sum_indicator {R : Type} [AddMonoidWithOne R] (p : ℕ → Bool) (n : ℕ) :
    ((List.range n).map fun k => if p k then (1 : R) else 0).sum = ((selected p n).length : R) := by
  induction n with
  | zero => simp
  | succ n ih =>
    rw [List.range_succ, List.map_append, List.sum_append, ih, selected_succ, List.length_append,
      Nat.cast_add]
    cases hp : p n <;> simp [hp]

theorem natCast_val {n : ℕ} (h : n < 2 ^ 63) : ((n : ℕ) : TypedInt int64).val = n := by
  rw [← TypedInt.ofInt_natCast, TypedInt.val_ofInt, int64_wrap h]

/-- The running counts of a mask. -/
theorem runningCounts_returns {p : ℕ → Bool} {n : ℕ} {flat : NdArray Bool}
    (h : flat.Holds [n] fun c => p (c.headD 0)) (hn : n < 2 ^ 31) :
    Returns (cumsum (cast (fun b => if b then (1 : TypedInt int64) else 0) flat) 0) [n]
      fun c => (runningCount p (c.headD 0) : TypedInt int64) := by
  refine (cumsum_returns (cast_holds _ h) hn).congr fun c _ => ?_
  exact sum_indicator p _

/-- A sum that is scattered into zeros: the sources that name a position. -/
theorem sum_folded (sources : List (TypedInt int64)) (part : Bool) :
    (let folded := foldValues (ScatterReduction.op .sum) 0 (foldedValues 0 false sources)
      if part then ScatterReduction.op .sum (ScatterReduction.fill .sum) folded else folded) =
      sources.sum := by
  have hfold : foldValues (ScatterReduction.op .sum) 0 (foldedValues 0 false sources) =
      sources.sum := by
    cases sources with
    | nil => rfl
    | cons v vs =>
      show vs.foldl (ScatterReduction.op .sum) v = _
      rw [(ScatterReduction.foldOp .sum).foldl_eq]
      exact add_comm _ _
  rw [hfold]
  cases part with
  | true => exact zero_add _
  | false => rfl

section Index

variable {p : ℕ → Bool} {n : ℕ} {counts : NdArray (TypedInt int64)}

theorem scatterShapes_line (k n : ℕ) : ScatterShapes [k] [n] [n] 0 := by
  refine ⟨⟨rfl, fun e he hne => ?_⟩, rfl, fun e he => ?_⟩
  · simp only [List.length_singleton] at he
    omega
  · simp only [List.length_singleton] at he
    obtain rfl : e = 0 := by omega
    exact le_refl _

/-- How many positions have each running count. -/
theorem histogram_returns (hn : n < 2 ^ 31)
    (hcounts : counts.Holds [n] fun c => (runningCount p (c.headD 0) : TypedInt int64))
    {k : ℕ} (hk : k < 2 ^ 31) :
    Returns (scatterReduce (full [k] 0) 0 counts (full [n] 1) .sum false) [k] fun c =>
      ((((List.range n).filter fun j => decide (runningCount p j = c.headD 0)).length : ℕ) :
        TypedInt int64) := by
  have haxis : IsAxis 0 [k].length 0 := rfl
  refine (scatterReduce_returns (full_holds [k] 0) hcounts (full_holds [n] 1)
    (scatterShapes_line k n) haxis (by simp) hk rfl .sum false).congr fun c hc => ?_
  obtain _ | ⟨q, _ | _⟩ := c <;> simp at hc
  refine (sum_folded _ _).trans ?_
  have hslots : slotsAt (fun c => (runningCount p (c.headD 0) : TypedInt int64)) 0 ([n].getD 0 0) [q] =
      (List.range n).filter fun j => decide (runningCount p j = q) := by
    refine List.filter_congr fun j hj => ?_
    have hj' : j < n := List.mem_range.mp hj
    have hlt : runningCount p j < 2 ^ 63 := by
      have h₁ := runningCount_le (m := p) hj'
      have h₂ := selected_length_le p n
      omega
    simp only [List.set_cons_zero, List.headD_cons, List.getD_cons_zero, natCast_val hlt]
    exact decide_eq_decide.mpr Nat.cast_inj
  rw [hslots, List.map_const', List.sum_replicate, nsmul_one]
  rfl

/-- The position of each selected element. -/
theorem index_returns {histogram : NdArray (TypedInt int64)} {k : ℕ}
    (h : histogram.Holds [k] fun c =>
      ((((List.range n).filter fun j => decide (runningCount p j = c.headD 0)).length : ℕ) :
        TypedInt int64)) (hk : k < 2 ^ 31) :
    Returns (cumsum histogram 0) [k] fun c =>
      (((selected p n).getD (c.headD 0) n : ℕ) : TypedInt int64) := by
  refine (cumsum_returns h hk).congr fun c _ => ?_
  have hsum := sum_histogram (runningCount p) (List.range n) (c.headD 0)
  rw [length_runningCount_le] at hsum
  rw [← hsum, Nat.cast_list_sum, List.map_map]
  rfl

end Index

/-! ## Masked selection -/

/-- The flat positions a mask selects. -/
def selectedBy (s sm : List ℕ) (m : List ℕ → Bool) : List ℕ :=
  selected (fun k => m (broadcastCoords sm (unravel s k))) s.prod

theorem selectedBy_length_le (s sm : List ℕ) (m : List ℕ → Bool) :
    (selectedBy s sm m).length ≤ s.prod := selected_length_le _ _

/-- Everything up to the index, for a non-empty selection. -/
theorem maskedSelect_steps [AddMonoid α] (ht : t.Holds s f) (hmask : mask.Holds sm m)
    (hb : BroadcastsTo sm s) (hsize : s.prod < 2 ^ 31) :
    ∃ (x : NdArray α) (counts : NdArray (TypedInt int64)),
      (x.Holds [s.prod] fun c => f (unravel s (c.headD 0))) ∧
      (counts.Holds [s.prod] fun c => (runningCount
        (fun k => m (broadcastCoords sm (unravel s k))) (c.headD 0) : TypedInt int64)) ∧
      maskedSelect t mask =
        if (selectedBy s sm m).length = 0 then .ok (zeros [0])
        else (do
          let histogram ← scatterReduce (full [(selectedBy s sm m).length] (0 : TypedInt int64)) 0
            counts (full [s.prod] 1) .sum false
          let idxs ← cumsum histogram 0
          gather x 0 idxs) := by
  obtain ⟨x, hx, hxHolds⟩ := flatten_returns ht
  obtain ⟨mb, hmb, hmbHolds⟩ := broadcastTo_returns hmask hb
  obtain ⟨mf, hmf, hmfHolds⟩ := flatten_returns hmbHolds
  obtain ⟨counts, hcounts, hcountsHolds⟩ := runningCounts_returns
    (p := fun k => m (broadcastCoords sm (unravel s k))) hmfHolds hsize
  refine ⟨x, counts, hxHolds, hcountsHolds, ?_⟩
  have hprod : mf.shape.prod = s.prod := by
    rw [hmfHolds.shape_eq, List.prod_singleton]
  unfold maskedSelect
  rw [ht.shape_eq, bind_ok hx, bind_ok hmb, bind_ok hmf, bind_ok hcounts]
  simp only [hprod]
  by_cases hn : s.prod = 0
  · have hempty : (selectedBy s sm m).length = 0 := by
      have := selectedBy_length_le s sm m
      omega
    rw [if_pos hn, if_pos hempty]
    rfl
  · rw [if_neg hn]
    have hfit : List.Forall₂ ShrinkRange.Fits
        [.isize (s.prod - 1 : ℕ) s.prod] [s.prod] :=
      .cons ⟨⟨Int.natCast_nonneg _, Int.natCast_nonneg _⟩, Nat.sub_le _ _, le_refl _⟩ .nil
    obtain ⟨last, hlast, hlastHolds⟩ := tryShrink_returns hcountsHolds hfit
    have hone : InBounds [0] (List.zipWith (fun (r : ShrinkRange) n => (r.bounds n).2 - (r.bounds n).1)
        [.isize (s.prod - 1 : ℕ) s.prod] [s.prod]) := by
      refine .cons ?_ .nil
      simp only [ShrinkRange.bounds, Int.toNat_natCast]
      omega
    have hcount : (last.get [0]).val.toNat = (selectedBy s sm m).length := by
      rw [hlastHolds.get_eq _ hone]
      have hcoord : (List.zipWith (· + ·) (List.zipWith (fun (r : ShrinkRange) n => (r.bounds n).1)
          [.isize (s.prod - 1 : ℕ) s.prod] [s.prod]) [0]).headD 0 = s.prod - 1 := by
        simp [ShrinkRange.bounds]
      rw [hcoord, runningCount_last (by omega)]
      have hle := selected_length_le (fun k => m (broadcastCoords sm (unravel s k))) s.prod
      rw [natCast_val (by omega), Int.toNat_natCast]
      rfl
    rw [bind_ok hlast]
    simp only [hcount]
    split <;> rfl

/-- The selected elements, in order. -/
theorem maskedSelect_returns [AddMonoid α] (ht : t.Holds s f) (hmask : mask.Holds sm m)
    (hb : BroadcastsTo sm s) (hsize : s.prod < 2 ^ 31) :
    Returns (maskedSelect t mask) [(selectedBy s sm m).length] fun c =>
      f (unravel s ((selectedBy s sm m).getD (c.headD 0) 0)) := by
  obtain ⟨x, counts, hx, hcounts, hcall⟩ := maskedSelect_steps ht hmask hb hsize
  have hk : (selectedBy s sm m).length < 2 ^ 31 := (selectedBy_length_le s sm m).trans_lt hsize
  rw [hcall]
  by_cases hzero : (selectedBy s sm m).length = 0
  · rw [if_pos hzero, hzero]
    refine Returns.ok ⟨rfl, fun c hc => ?_⟩
    obtain _ | ⟨q, _ | _⟩ := c <;> simp at hc
  · rw [if_neg hzero]
    refine (histogram_returns hsize hcounts hk).bind fun histogram hhistogram => ?_
    refine (index_returns hhistogram hk).bind fun idxs hidxs => ?_
    -- each entry is a selected position
    have hentry : ∀ c, InBounds c [(selectedBy s sm m).length] →
        (((selectedBy s sm m).getD (c.headD 0) s.prod : ℕ) : TypedInt int64).val =
          (selectedBy s sm m).getD (c.headD 0) 0 ∧
        (selectedBy s sm m).getD (c.headD 0) 0 < s.prod := by
      intro c hc
      obtain _ | ⟨q, _ | _⟩ := c <;> simp only [List.forall₂_cons, List.forall₂_nil_right_iff,
        List.forall₂_nil_left_iff, reduceCtorEq, and_true, and_false] at hc
      have hlt := (mem_selected.mp (List.getElem_mem hc)).1
      rw [List.headD_cons, List.getD_eq_getElem _ _ hc, List.getD_eq_getElem _ _ hc]
      exact ⟨natCast_val (by omega), hlt⟩
    have hshapes : GatherShapes [s.prod] [(selectedBy s sm m).length] 0 :=
      ⟨rfl, fun e he hne => by
        simp only [List.length_singleton] at he
        omega⟩
    have haxis : IsAxis 0 [s.prod].length 0 := rfl
    refine (gather_returns hx hidxs hshapes haxis (fun c hc => ?_) (by simp) hsize).congr
      fun c hc => ?_
    · obtain ⟨hval, hlt⟩ := hentry c hc
      exact ⟨hval ▸ Int.natCast_nonneg _, hval ▸ by exact_mod_cast hlt⟩
    · obtain ⟨hval, -⟩ := hentry c hc
      obtain _ | ⟨q, _ | _⟩ := c <;> simp at hc
      exact congrArg (fun x : ℤ => f (unravel s x.toNat)) hval

/-- From `2 ^ 31` elements on, they are not counted. -/
theorem maskedSelect_error [AddMonoid α] (ht : t.Holds s f) (hmask : mask.Holds sm m)
    (hb : BroadcastsTo sm s) (hge : 2 ^ 31 ≤ s.prod) : ∃ e, maskedSelect t mask = .error e := by
  obtain ⟨x, hx, -⟩ := flatten_returns ht
  obtain ⟨mb, hmb, hmbHolds⟩ := broadcastTo_returns hmask hb
  obtain ⟨mf, hmf, hmfHolds⟩ := flatten_returns hmbHolds
  obtain ⟨e, he⟩ := cumsum_error
    (cast_holds (fun b => if b then (1 : TypedInt int64) else 0) hmfHolds) hge
  refine ⟨e, ?_⟩
  unfold maskedSelect
  rw [ht.shape_eq, bind_ok hx, bind_ok hmb, bind_ok hmf, bind_error he]

/-! ## Coordinates of the non-zero elements -/

/-- The flat positions of the non-zero elements. -/
def nonzeroPositions [Zero α] [DecidableEq α] (t : NdArray α) : List ℕ :=
  selected (fun k => decide (t.get (unravel t.shape k) ≠ 0)) t.shape.prod

theorem stride_dvd_prod {s : List ℕ} {a : ℕ} (ha : a < s.length) :
    (s.drop (a + 1)).prod * s.getD a 0 ∣ s.prod := by
  refine ⟨(s.take a).prod, ?_⟩
  have h := List.prod_take_mul_prod_drop s a
  rw [List.drop_eq_getElem_cons ha, List.prod_cons] at h
  rw [List.getD_eq_getElem _ _ ha, ← h]
  ring

/-- A coordinate by division and remainder. -/
theorem unravel_getD {s : List ℕ} {k a : ℕ} (hk : k < s.prod) (ha : a < s.length) :
    (unravel s k).getD a 0 = k / (s.drop (a + 1)).prod % s.getD a 0 := by
  induction s generalizing a k with
  | nil => simp at ha
  | cons d s ih =>
    rw [List.prod_cons] at hk
    have hpos : 0 < s.prod := Nat.pos_of_ne_zero fun h => by simp [h] at hk
    cases a with
    | zero =>
      simp only [unravel, List.getD_cons_zero, List.drop_one, List.tail_cons, Nat.zero_add]
      exact (Nat.mod_eq_of_lt (Nat.div_lt_of_lt_mul (by rwa [Nat.mul_comm]))).symm
    | succ a =>
      have ha' : a < s.length := by simpa using ha
      obtain ⟨q, hq⟩ := stride_dvd_prod ha'
      simp only [unravel, List.getD_cons_succ, List.drop_succ_cons]
      rw [ih (Nat.mod_lt _ hpos) ha', hq, Nat.mul_assoc, Nat.mod_mul_right_div_self,
        Nat.mod_mod_of_dvd _ (Nat.dvd_mul_right _ _)]

theorem int32_ofInt_natCast {n : ℕ} (h : n < 2 ^ 31) :
    (TypedInt.ofInt n : TypedInt int32).val = n := by
  rw [TypedInt.val_ofInt]
  refine IntType.wrap_of_contains ?_
  constructor <;> simp [int32, IntType.min, IntType.max]
  omega

theorem int64_ofInt_val {n : ℕ} (h : n < 2 ^ 63) :
    (TypedInt.ofInt n : TypedInt int64).val = n := by
  rw [TypedInt.val_ofInt, int64_wrap h]

/-- One coordinate of each selected position. -/
theorem coordinate_returns {positions : NdArray (TypedInt int64)} {n : ℕ} {g : ℕ → ℕ}
    (h : positions.Holds [n] fun c => TypedInt.ofInt (g (c.headD 0) : ℕ))
    (hg : ∀ j < n, g j < s.prod) (hsize : s.prod < 2 ^ 63) {a : ℕ} (ha : a < s.length) :
    Returns (coordinate positions s a) [n] fun c =>
      TypedInt.ofInt ((unravel s (g (c.headD 0))).getD a 0 : ℕ) := by
  have hlt : ∀ c, InBounds c [n] → g (c.headD 0) < s.prod := by
    intro c hc
    obtain _ | ⟨x, _ | _⟩ := c <;> simp at hc
    exact hg x hc
  obtain ⟨q, hq⟩ := stride_dvd_prod ha
  -- the quotient by the stride
  have hdiv : Returns (if (s.drop (a + 1)).prod = 1 then pure positions
      else tryDiv positions (const (.ofInt (s.drop (a + 1)).prod))) [n] fun c =>
        TypedInt.ofInt (g (c.headD 0) / (s.drop (a + 1)).prod : ℕ) := by
    split
    · next hone =>
      refine Returns.ok (h.congr fun c _ => ?_)
      rw [hone, Nat.div_one]
    · refine (tryBinary_returns_scalar _ h _).congr fun c hc => ?_
      have hk := hlt c hc
      have hstride : (s.drop (a + 1)).prod < 2 ^ 63 := by
        refine lt_of_le_of_lt (Nat.le_of_dvd (by omega) ?_) hsize
        exact (Dvd.intro _ rfl).trans (stride_dvd_prod ha)
      rw [int64_ofInt_val (by omega), int64_ofInt_val hstride]
      exact congrArg TypedInt.ofInt (Int.fdiv_eq_ediv_of_nonneg _ (Int.natCast_nonneg _))
  have hquot : ∀ c, InBounds c [n] → g (c.headD 0) / (s.drop (a + 1)).prod < 2 ^ 63 := fun c hc =>
    lt_of_le_of_lt (Nat.div_le_self _ _) ((hlt c hc).trans hsize)
  have hcall : coordinate positions s a =
      ((if (s.drop (a + 1)).prod = 1 then pure positions
        else tryDiv positions (const (.ofInt (s.drop (a + 1)).prod))) >>= fun coord =>
      (if a ≠ 0 then tryMod coord (const (.ofInt (s.getD a 0))) else pure coord) >>= fun coord =>
      pure (cast (fun x => .ofInt x.val) coord)) := by
    unfold coordinate
    generalize (s.drop (a + 1)).prod = stride
    by_cases hone : stride = 1 <;> by_cases hzero : a = 0 <;>
      simp only [hone, hzero, ne_eq, not_true_eq_false, not_false_eq_true, if_true, if_false]
  rw [hcall]
  refine hdiv.bind fun coord hcoord => ?_
  have hmod : Returns (if a ≠ 0 then tryMod coord (const (.ofInt (s.getD a 0))) else pure coord) [n]
      fun c => TypedInt.ofInt ((unravel s (g (c.headD 0))).getD a 0 : ℕ) := by
    split
    · refine (tryBinary_returns_scalar _ hcoord _).congr fun c hc => ?_
      have hk := hlt c hc
      have hdim : s.getD a 0 < 2 ^ 63 := by
        refine lt_of_le_of_lt (Nat.le_of_dvd (by omega) ?_) hsize
        exact (Dvd.intro_left _ rfl).trans (stride_dvd_prod ha)
      rw [int64_ofInt_val (hquot c hc), int64_ofInt_val hdim, unravel_getD hk ha]
      exact congrArg TypedInt.ofInt (Int.fmod_eq_emod_of_nonneg _ (Int.natCast_nonneg _))
    · next hzero =>
      obtain rfl : a = 0 := not_not.mp hzero
      refine Returns.ok (hcoord.congr fun c hc => ?_)
      have hk := hlt c hc
      rw [unravel_getD hk ha, Nat.mod_eq_of_lt]
      refine Nat.div_lt_of_lt_mul (lt_of_lt_of_le hk (le_of_eq ?_))
      obtain _ | ⟨d, s⟩ := s
      · simp at ha
      · simp [Nat.mul_comm]
  refine hmod.bind fun coord' hcoord' => ?_
  refine (Returns.ok (cast_holds (fun x : TypedInt int64 => (TypedInt.ofInt x.val : TypedInt int32))
    hcoord')).congr fun c hc => ?_
  have hlt' : (unravel s (g (c.headD 0))).getD a 0 < 2 ^ 63 := by
    rw [unravel_getD (hlt c hc) ha]
    exact lt_of_le_of_lt (Nat.mod_le _ _) (hquot c hc)
  rw [int64_ofInt_val hlt']

theorem mapM_returns {l : List ℕ} {k : ℕ → Except ErrorKind (NdArray α)} {g : ℕ → List ℕ → α}
    (h : ∀ a ∈ l, Returns (k a) s (g a)) :
    ∃ us, l.mapM k = .ok us ∧ List.Forall₂ (fun (u : NdArray α) a => u.Holds s (g a)) us l := by
  induction l with
  | nil => exact ⟨[], rfl, .nil⟩
  | cons a l ih =>
    obtain ⟨u, hu, hholds⟩ := h a (by simp)
    obtain ⟨us, hus, hall⟩ := ih fun b hb => h b (by simp [hb])
    refine ⟨u :: us, ?_, .cons hholds hall⟩
    rw [List.mapM_cons, hu, hus]
    rfl

section Nonzero

variable [Zero α] [DecidableEq α]

/-- The coordinates of the non-zero elements, in row-major order. -/
def NonzeroMeets (t : NdArray α) : Prop :=
  ∃ u, nonzero t = .ok u ∧ u.shape = [(nonzeroPositions t).length, t.shape.length] ∧
    ∀ j < (nonzeroPositions t).length, ∀ a < t.shape.length,
      (u.get [j, a]).val = ((unravel t.shape ((nonzeroPositions t).getD j 0)).getD a 0 : ℕ)

theorem unravel_line {n k : ℕ} : unravel [n] k = [k] := by simp [unravel]

/-- The mask of the flat counter selects the positions of the non-zero elements. -/
theorem selectedBy_line (t : NdArray α) :
    selectedBy [t.shape.prod] [t.shape.prod]
      (fun c => decide (t.get (unravel t.shape (c.headD 0)) ≠ 0)) = nonzeroPositions t := by
  unfold selectedBy nonzeroPositions selected
  rw [List.prod_singleton]
  refine List.filter_congr fun k hk => ?_
  have hin : InBounds [k] [t.shape.prod] := .cons (List.mem_range.mp hk) .nil
  rw [unravel_line, broadcastCoords_self hin]
  rfl

/-- Everything up to the coordinates, for an array that has elements. -/
theorem nonzero_steps {t : NdArray α} (hne : t.shape.prod ≠ 0) :
    ∃ mask : NdArray Bool,
      (mask.Holds [t.shape.prod] fun c => decide (t.get (unravel t.shape (c.headD 0)) ≠ 0)) ∧
      nonzero t = (do
        let flat ← arangeWithDtype int64 0 t.shape.prod
        let selected ← maskedSelect flat mask
        if t.shape.length = 0 then tryReshape (zeros [0]) ([selected.shape.prod, 0].map .const)
        else
          let coords ← (List.range t.shape.length).mapM (coordinate selected t.shape)
          stack coords (-1)) := by
  obtain ⟨nz, hnz, hnzHolds⟩ := tryBinary_returns_scalar (fun x y : α => decide (x ≠ y))
    (NdArray.Holds.self t) 0
  obtain ⟨mask, hmask, hmaskHolds⟩ := flatten_returns hnzHolds
  refine ⟨mask, hmaskHolds, ?_⟩
  unfold nonzero
  rw [tryNe, bind_ok hnz, bind_ok hmask]
  simp only [if_neg hne]

/-- A line of elements of rank zero: only the number of rows is stated. -/
theorem tryReshape_rows {τ : IntType} (k : ℕ) (r : ℕ) (hr : k * r = 0) :
    ∃ u : NdArray (TypedInt τ), tryReshape (zeros [0]) ([k, r].map .const) = .ok u ∧
      u.shape = [k, r] := by
  obtain ⟨u, hu, hagree⟩ := tryReshape_ok (zeros [0] : NdArray (TypedInt τ)) [k, r] (by
    simpa [zeros] using hr.symm)
  exact ⟨u, hu, hagree.shape_eq⟩

/-- The rows of coordinates, each narrowed to the index type. -/
theorem nonzero_coords {t : NdArray α} {picks : NdArray (TypedInt int64)}
    (hsize : t.shape.prod < 2 ^ 63) (hrank : t.shape.length ≠ 0)
    (hpicks : picks.Holds [(nonzeroPositions t).length] fun c =>
      TypedInt.ofInt ((nonzeroPositions t).getD (c.headD 0) 0 : ℕ)) :
    Returns ((List.range t.shape.length).mapM (coordinate picks t.shape) >>= fun coords =>
      stack coords (-1)) [(nonzeroPositions t).length, t.shape.length] fun c =>
        TypedInt.ofInt ((unravel t.shape ((nonzeroPositions t).getD (c.headD 0) 0)).getD
          (c.getD 1 0) 0 : ℕ) := by
  have hlt : ∀ j < (nonzeroPositions t).length, (nonzeroPositions t).getD j 0 < t.shape.prod := by
    intro j hj
    rw [List.getD_eq_getElem _ _ hj]
    exact (mem_selected.mp (List.getElem_mem hj)).1
  have hcoordinate : ∀ a ∈ List.range t.shape.length, Returns (coordinate picks t.shape a)
      [(nonzeroPositions t).length] fun c => TypedInt.ofInt
        ((unravel t.shape ((nonzeroPositions t).getD (c.headD 0) 0)).getD a 0 : ℕ) := fun a ha =>
    coordinate_returns (g := fun j => (nonzeroPositions t).getD j 0) hpicks hlt hsize
      (List.mem_range.mp ha)
  obtain ⟨coords, hcoords, hall⟩ := mapM_returns hcoordinate
  have haxis : IsAxis (-1) ([(nonzeroPositions t).length].length + 1) 1 :=
    isAxis_last (Nat.succ_pos 1)
  rw [bind_ok hcoords]
  have hne : [(nonzeroPositions t).length].length ≠ 63 := by
    rw [List.length_singleton]
    omega
  refine (stack_returns (Nat.pos_of_ne_zero hrank) hall haxis (.inr hne)).congr fun c hc => ?_
  obtain _ | ⟨j, _ | ⟨a, _ | _⟩⟩ := c <;> simp at hc
  rfl

theorem nonzeroMeets_of_empty {t : NdArray α} (hzero : t.shape.prod = 0) : NonzeroMeets t := by
  have hlen : (nonzeroPositions t).length = 0 := by
    have := selected_length_le (fun k => decide (t.get (unravel t.shape k) ≠ 0)) t.shape.prod
    unfold nonzeroPositions
    omega
  obtain ⟨u, hu, hushape⟩ := tryReshape_rows (τ := int32) 0 t.shape.length (Nat.zero_mul _)
  obtain ⟨nz, hnz, hnzHolds⟩ := tryBinary_returns_scalar (fun x y : α => decide (x ≠ y))
    (NdArray.Holds.self t) 0
  obtain ⟨mask, hmask, -⟩ := flatten_returns hnzHolds
  refine ⟨u, ?_, by rw [hushape, hlen], fun j hj => by omega⟩
  unfold nonzero
  rw [tryNe, bind_ok hnz, bind_ok hmask]
  simp only [if_pos hzero]
  exact hu

theorem nonzeroMeets_of_lt {t : NdArray α} (hne : t.shape.prod ≠ 0) (hlt : t.shape.prod < 2 ^ 31) :
    NonzeroMeets t := by
  have hcount : arangeCount (int64.wrap t.shape.prod) = t.shape.prod := by
    rw [int64_wrap (by omega), arangeCount_of_lt hlt]
  obtain ⟨mask, hmask, hcall⟩ := nonzero_steps hne
  obtain ⟨flat, hflat, hflatHolds⟩ := arangeWithDtype_returns (t := int64) hcount hlt
  have hline : [t.shape.prod].prod = t.shape.prod := List.prod_singleton
  obtain ⟨picks, hpicks, hpicksHolds⟩ := maskedSelect_returns hflatHolds hmask (broadcastsTo_self _)
    (by rwa [hline])
  rw [selectedBy_line t] at hpicksHolds
  simp only [unravel_line, List.headD_cons] at hpicksHolds
  rw [bind_ok hflat, bind_ok hpicks] at hcall
  by_cases hrank : t.shape.length = 0
  · -- one position, without coordinates
    obtain ⟨u, hu, hushape⟩ := tryReshape_rows (τ := int32) (nonzeroPositions t).length 0
      (Nat.mul_zero _)
    refine ⟨u, ?_, by rw [hushape, hrank], fun j _ a ha => by omega⟩
    rw [hcall, if_pos hrank, hpicksHolds.shape_eq, List.prod_singleton]
    exact hu
  · rw [if_neg hrank] at hcall
    obtain ⟨u, hu, huHolds⟩ := nonzero_coords (by omega) hrank hpicksHolds
    refine ⟨u, hcall.trans hu, huHolds.shape_eq, fun j hj a ha => ?_⟩
    rw [huHolds.get_eq [j, a] (.cons hj (.cons ha .nil))]
    refine int32_ofInt_natCast (lt_of_le_of_lt ?_ hlt)
    have hpos : (nonzeroPositions t).getD j 0 < t.shape.prod := by
      rw [List.getD_eq_getElem _ _ hj]
      exact (mem_selected.mp (List.getElem_mem hj)).1
    show (unravel t.shape ((nonzeroPositions t).getD j 0)).getD a 0 ≤ t.shape.prod
    rw [unravel_getD hpos ha]
    exact (Nat.mod_le _ _).trans ((Nat.div_le_self _ _).trans hpos.le)

theorem nonzeroMeets_iff (t : NdArray α) (hsize : t.shape.prod < 2 ^ 63) :
    NonzeroMeets t ↔ t.shape.prod < 2 ^ 31 := by
  constructor
  · rintro ⟨u, hu, -⟩
    by_contra hge
    obtain ⟨mask, -, hcall⟩ := nonzero_steps (t := t) (by omega)
    obtain ⟨e, he⟩ := arangeWithDtype_error (t := int64) (n := t.shape.prod) (by
      rw [int64_wrap hsize]
      exact arangeCount_ge (by omega))
    rw [hcall, bind_error he] at hu
    cases hu
  · intro hlt
    by_cases hzero : t.shape.prod = 0
    · exact nonzeroMeets_of_empty hzero
    · exact nonzeroMeets_of_lt hzero hlt

end Nonzero

section Both

/-- The elements at the selected positions, in row-major order. -/
def MaskedSelectMeets [AddMonoid α] (t : NdArray α) (mask : NdArray Bool) : Prop :=
  Returns (maskedSelect t mask) [(selectedBy t.shape mask.shape mask.get).length] fun c =>
    t.get (unravel t.shape ((selectedBy t.shape mask.shape mask.get).getD (c.headD 0) 0))

theorem maskedSelectMeets_iff [AddMonoid α] (t : NdArray α) (mask : NdArray Bool)
    (hb : BroadcastsTo mask.shape t.shape) :
    MaskedSelectMeets t mask ↔ t.shape.prod < 2 ^ 31 := by
  constructor
  · intro h
    by_contra hge
    exact h.not_error (maskedSelect_error (.self t) (.self mask) hb (not_lt.mp hge))
  · exact maskedSelect_returns (.self t) (.self mask) hb

/-- Exactly where selection by a mask and by the non-zero elements meet their definitions, and the
    count that finds each selected position. -/
theorem selection_meets_iff [AddMonoid α] [DecidableEq α] (t : NdArray α) (mask : NdArray Bool)
    (hb : BroadcastsTo mask.shape t.shape) (hsize : t.shape.prod < 2 ^ 63) :
    (MaskedSelectMeets t mask ↔ t.shape.prod < 2 ^ 31) ∧
    (∀ j, (selectedBy t.shape mask.shape mask.get).getD j t.shape.prod =
      ((List.range t.shape.prod).filter fun k => decide (runningCount
        (fun k => mask.get (broadcastCoords mask.shape (unravel t.shape k))) k ≤ j)).length) ∧
    (NonzeroMeets t ↔ t.shape.prod < 2 ^ 31) :=
  ⟨maskedSelectMeets_iff t mask hb, fun j => (length_runningCount_le _ _ j).symm,
    nonzeroMeets_iff t hsize⟩

end Both

theorem selection_meets_iff_line :
    MaskedSelectMeets (lineOf [5, 0, 7]) (const true) ∧
      (selectedBy [3] [] fun _ => true).getD 2 3 =
        ((List.range 3).filter fun k => decide (runningCount (fun _ => true) k ≤ 2)).length ∧
      NonzeroMeets (lineOf [5, 0, 7]) := by
  have hb : BroadcastsTo (const true).shape (lineOf [5, 0, 7]).shape := broadcastsTo_nil _
  obtain ⟨hselect, hcount, hnonzero⟩ :=
    selection_meets_iff (lineOf [5, 0, 7]) (const true) hb (by decide)
  exact ⟨hselect.mpr (by decide), hcount 2, hnonzero.mpr (by decide)⟩

/-- The first length that is not counted. -/
theorem selection_long_line :
    BroadcastsTo [] [2147483648] ∧ ¬ MaskedSelectMeets (zeros [2147483648] : NdArray ℤ) (const true) ∧
      ¬ NonzeroMeets (zeros [2147483648] : NdArray ℤ) := by
  have hb : BroadcastsTo [] [2147483648] := broadcastsTo_nil _
  have hprod : (zeros [2147483648] : NdArray ℤ).shape.prod = 2147483648 := List.prod_singleton
  refine ⟨hb, fun h => ?_, fun h => ?_⟩
  · have hlt := (maskedSelectMeets_iff (zeros [2147483648] : NdArray ℤ) (const true) hb).mp h
    omega
  · have hlt := (nonzeroMeets_iff (zeros [2147483648] : NdArray ℤ) (by omega)).mp h
    omega

end Svod.Tensor.Nd
