/-
  Svod.Ir.Movement

  The movement constructors of `ir/src/uop/constructors/shape.rs` and the
  broadcasting of `ir/src/shape.rs`, on arrays of concrete shape.

  A movement node stands for the array it denotes, of fewer than `2 ^ 63` elements
  (the source multiplies extents as `usize` and keeps them as `i64`).  Arithmetic
  on `u64` bit sets is that of a release build: a shift amount is taken modulo the
  word size.
-/

import Mathlib.Data.Nat.Bitwise
import Svod.Lib.Broadcast
import Svod.Lib.NdArray

namespace Svod.Ir

open Svod.Lib

/-- The errors of the movement constructors. -/
inductive Error
  /-- Sizes of the input and the output. -/
  | reshapeSizeMismatch (inputSize outputSize : ℕ)
  | expandDimensionMismatch (inputDims outputDims : ℕ)
  | expandInvalidDimension (dim input output : ℕ)
  | permuteInvalidPermutation (permutation : List ℕ) (expectedDims : ℕ)
  | padDimensionMismatch (paddingDims shapeDims : ℕ)
  /-- The range `[first, last)` of a dimension. -/
  | shrinkBoundsViolation (dim first last shapeSize : ℕ)
  | broadcastShapeMismatch (lhs rhs : List ℕ)
  | reduceAxisInvalid (axis shapeDims : ℕ)
  deriving DecidableEq

/-- `ensure!`. -/
def ensure {ε : Type*} (cond : Prop) [Decidable cond] (e : ε) : Except ε Unit :=
  if cond then .ok () else .error e

theorem ensure_of_true {ε : Type*} {cond : Prop} [Decidable cond] (h : cond) (e : ε) :
    ensure cond e = .ok () := if_pos h

theorem ensure_of_false {ε : Type*} {cond : Prop} [Decidable cond] (h : ¬ cond) (e : ε) :
    ensure cond e = .error e := if_neg h

/-- A loop of checks passes when every check does. -/
theorem forM_ok {α ε : Type*} {f : α → Except ε Unit} {l : List α}
    (h : ∀ x ∈ l, f x = .ok ()) : l.forM f = .ok () := by
  induction l with
  | nil => rfl
  | cons x l ih =>
    change (f x >>= fun _ => l.forM f) = _
    rw [h x (by simp)]
    exact ih fun y hy => h y (by simp [hy])

namespace Movement

variable {α : Type}

/-! ## Constructors -/

/-- `UOp::try_reshape`. -/
def tryReshape (t : NdArray α) (newShape : List ℕ) : Except Error (NdArray α) := do
  if t.shape = newShape then return t
  ensure (t.shape.prod = newShape.prod) (.reshapeSizeMismatch t.shape.prod newShape.prod)
  return t.reshape newShape

/-- `UOp::try_expand`. -/
def tryExpand (t : NdArray α) (newShape : List ℕ) : Except Error (NdArray α) := do
  ensure (t.shape.length = newShape.length)
    (.expandDimensionMismatch t.shape.length newShape.length)
  (t.shape.zip newShape).zipIdx.forM fun x =>
    ensure (x.1.1 = x.1.2 ∨ x.1.1 = 1) (.expandInvalidDimension x.2 x.1.1 x.1.2)
  if t.shape = newShape then return t
  return t.expand newShape

/-- One axis of the bit set of `validate_permutation`. -/
def seenStep (axes : List ℕ) (expectedDims : ℕ) (seen axis : ℕ) : Except Error ℕ := do
  ensure (axis < expectedDims) (.permuteInvalidPermutation axes expectedDims)
  ensure (seen &&& (1 <<< axis) = 0) (.permuteInvalidPermutation axes expectedDims)
  return seen ||| (1 <<< axis)

/-- One axis of the boolean array of `validate_permutation`. -/
def seenArrayStep (axes : List ℕ) (expectedDims : ℕ) (seen : List Bool) (axis : ℕ) :
    Except Error (List Bool) := do
  ensure (axis < expectedDims) (.permuteInvalidPermutation axes expectedDims)
  ensure (seen.getD axis false = false) (.permuteInvalidPermutation axes expectedDims)
  return seen.set axis true

/-- `UOp::validate_permutation`. -/
def validatePermutation (axes : List ℕ) (expectedDims : ℕ) : Except Error Unit := do
  ensure (axes.length = expectedDims) (.permuteInvalidPermutation axes expectedDims)
  if expectedDims ≤ 64 then
    let seen ← axes.foldlM (seenStep axes expectedDims) 0
    -- a `u64` shifted left by 64 is shifted by 0
    ensure (seen = (1 <<< (expectedDims % 64)) - 1) (.permuteInvalidPermutation axes expectedDims)
  else
    let _ ← axes.foldlM (seenArrayStep axes expectedDims) (List.replicate expectedDims false)
    return ()

/-- `UOp::try_permute`. -/
def tryPermute (t : NdArray α) (axes : List ℕ) : Except Error (NdArray α) := do
  validatePermutation axes t.shape.length
  if axes = List.range axes.length then return t
  return t.permute axes

/-- `UOp::try_pad`. -/
def tryPad [Zero α] (t : NdArray α) (padding : List (ℕ × ℕ)) : Except Error (NdArray α) := do
  if padding = [] then return t
  if padding.all (fun p => p.1 = 0 ∧ p.2 = 0) then return t
  ensure (padding.length = t.shape.length)
    (.padDimensionMismatch padding.length t.shape.length)
  return t.pad padding

/-- `UOp::try_shrink`. -/
def tryShrink (t : NdArray α) (ranges : List (ℕ × ℕ)) : Except Error (NdArray α) := do
  if ranges = [] then return t
  (ranges.zip t.shape).zipIdx.forM fun x =>
    ensure (x.1.1.1 ≤ x.1.1.2 ∧ x.1.1.2 ≤ x.1.2)
      (.shrinkBoundsViolation x.2 x.1.1.1 x.1.1.2 x.1.2)
  if (ranges.zip t.shape).all (fun x => x.1.1 = 0 ∧ x.1.2 = x.2) then return t
  return t.shrink (ranges.map (·.1)) (ranges.map fun r => r.2 - r.1)

/-! ## Broadcasting -/

/-- `broadcast_shape`. -/
def broadcastShape (lhs rhs : List ℕ) : Except Error (List ℕ) := do
  ensure (lhs.length = rhs.length) (.broadcastShapeMismatch lhs rhs)
  match (lhs.zip rhs).mapM fun p => joinDim p.1 p.2 with
  | some shape => return shape
  | none => .error (.broadcastShapeMismatch lhs rhs)

/-- `align_shapes_left`, of one shape. -/
def alignLeft (maxDims : ℕ) (shape : List ℕ) : List ℕ :=
  List.replicate (maxDims - shape.length) 1 ++ shape

/-! ## What the constructors return -/

theorem tryReshape_ok (t : NdArray α) {shape : List ℕ} (h : t.shape.prod = shape.prod) :
    ∃ u, tryReshape t shape = .ok u ∧ u.Agrees (t.reshape shape) := by
  by_cases hs : t.shape = shape
  · exact ⟨t, by simp [tryReshape, hs, pure, Except.pure], hs ▸ t.reshape_self⟩
  · refine ⟨t.reshape shape, ?_, .refl _⟩
    rw [tryReshape, if_neg hs, ensure_of_true h]
    rfl

theorem tryReshape_error (t : NdArray α) {shape : List ℕ} (h : t.shape.prod ≠ shape.prod) :
    tryReshape t shape = .error (.reshapeSizeMismatch t.shape.prod shape.prod) := by
  have hs : t.shape ≠ shape := fun hs => h (hs ▸ rfl)
  rw [tryReshape, if_neg hs, ensure_of_false h]
  rfl

theorem tryExpand_ok (t : NdArray α) {shape : List ℕ}
    (h : List.Forall₂ (fun s n => s = n ∨ s = 1) t.shape shape) :
    ∃ u, tryExpand t shape = .ok u ∧ u.Agrees (t.expand shape) := by
  have hchecks : (t.shape.zip shape).zipIdx.forM (fun x =>
      ensure (x.1.1 = x.1.2 ∨ x.1.1 = 1) (Error.expandInvalidDimension x.2 x.1.1 x.1.2))
      = .ok () := by
    refine forM_ok fun x hx => ensure_of_true ?_ _
    have hmem := (List.mem_zipIdx' hx).2
    exact List.forall₂_zip h (hmem ▸ List.getElem_mem _)
  by_cases hs : t.shape = shape
  · refine ⟨t, ?_, hs ▸ t.expand_self⟩
    rw [tryExpand, ensure_of_true h.length_eq, hchecks]
    simp [hs, bind, Except.bind, pure, Except.pure]
  · refine ⟨t.expand shape, ?_, .refl _⟩
    rw [tryExpand, ensure_of_true h.length_eq, hchecks]
    simp [hs, bind, Except.bind, pure, Except.pure]

theorem tryShrink_ok (t : NdArray α) {ranges : List (ℕ × ℕ)}
    (h : List.Forall₂ (fun r s => r.1 ≤ r.2 ∧ r.2 ≤ s) ranges t.shape) :
    ∃ u, tryShrink t ranges = .ok u ∧
      u.Agrees (t.shrink (ranges.map (·.1)) (ranges.map fun r => r.2 - r.1)) := by
  by_cases hnil : ranges = []
  · refine ⟨t, by simp [tryShrink, hnil, pure, Except.pure], ?_⟩
    subst hnil
    have hs : t.shape = [] := by simpa using h
    simpa [hs] using t.shrink_self
  have hchecks : (ranges.zip t.shape).zipIdx.forM (fun x =>
      ensure (x.1.1.1 ≤ x.1.1.2 ∧ x.1.1.2 ≤ x.1.2)
        (Error.shrinkBoundsViolation x.2 x.1.1.1 x.1.1.2 x.1.2)) = .ok () := by
    refine forM_ok fun x hx => ensure_of_true ?_ _
    have hmem := (List.mem_zipIdx' hx).2
    exact List.forall₂_zip h (hmem ▸ List.getElem_mem _)
  by_cases hall : (ranges.zip t.shape).all (fun x => x.1.1 = 0 ∧ x.1.2 = x.2) = true
  · refine ⟨t, ?_, ?_⟩
    · rw [tryShrink, if_neg hnil, hchecks]
      simp only [hall, bind, Except.bind]
      rfl
    · have hfull : ranges = t.shape.map fun s => (0, s) := by
        clear hchecks hnil
        generalize t.shape = shape at h hall
        induction h with
        | nil => rfl
        | @cons r s ranges shape _ _ ih =>
          simp only [List.zip_cons_cons, List.all_cons, Bool.and_eq_true, decide_eq_true_eq]
            at hall
          have hr : r = (0, s) := Prod.ext hall.1.1 hall.1.2
          rw [List.map_cons, ← ih hall.2, hr]
      rw [hfull]
      simpa [Function.comp_def, List.map_const'] using t.shrink_self
  · refine ⟨_, ?_, .refl _⟩
    rw [tryShrink, if_neg hnil, hchecks]
    simp only [hall, bind, Except.bind]
    rfl

theorem tryPad_ok [Zero α] (t : NdArray α) {padding : List (ℕ × ℕ)}
    (hlen : padding.length = t.shape.length) :
    ∃ u, tryPad t padding = .ok u ∧ u.Agrees (t.pad padding) := by
  by_cases hzero : padding.all (fun p => p.1 = 0 ∧ p.2 = 0) = true
  · refine ⟨t, ?_, t.pad_zero hlen fun p hp => ?_⟩
    · by_cases hnil : padding = []
      · rw [tryPad, if_pos hnil]
        rfl
      · rw [tryPad, if_neg hnil, if_pos hzero]
        rfl
    · have := List.all_eq_true.mp hzero p hp
      rw [decide_eq_true_eq] at this
      exact Prod.ext this.1 this.2
  · have hnil : padding ≠ [] := by
      rintro rfl
      simp at hzero
    refine ⟨t.pad padding, ?_, .refl _⟩
    rw [tryPad, if_neg hnil, if_neg hzero, ensure_of_true hlen]
    rfl

/-! ## Permutations -/

/-- The bit set of a list of axes. -/
def bitsOf (axes : List ℕ) : ℕ := axes.foldl (fun seen axis => seen ||| (1 <<< axis)) 0

theorem testBit_foldl_or (axes : List ℕ) (seen i : ℕ) :
    (axes.foldl (fun seen axis => seen ||| (1 <<< axis)) seen).testBit i
      = (seen.testBit i || decide (i ∈ axes)) := by
  induction axes generalizing seen with
  | nil => simp
  | cons a axes ih =>
    rw [List.foldl_cons, ih, Nat.testBit_lor, Nat.one_shiftLeft, Nat.testBit_two_pow]
    by_cases hi : i = a <;> simp [hi, eq_comm]

theorem testBit_bitsOf (axes : List ℕ) (i : ℕ) : (bitsOf axes).testBit i = decide (i ∈ axes) := by
  simp [bitsOf, testBit_foldl_or]

/-- The bit set passes over axes that are in range and not yet seen. -/
theorem foldlM_seenStep (perm : List ℕ) (seen : ℕ) {n : ℕ} {axes : List ℕ}
    (hlt : ∀ a ∈ axes, a < n) (hnodup : axes.Nodup) (hnew : ∀ a ∈ axes, seen.testBit a = false) :
    axes.foldlM (seenStep perm n) seen
      = .ok (axes.foldl (fun seen axis => seen ||| (1 <<< axis)) seen) := by
  induction axes generalizing seen with
  | nil => rfl
  | cons a axes ih =>
    have ha : seen &&& (1 <<< a) = 0 := by
      refine Nat.eq_of_testBit_eq fun i => ?_
      rw [Nat.testBit_land, Nat.one_shiftLeft, Nat.testBit_two_pow, Nat.zero_testBit]
      by_cases hi : a = i
      · simp [← hi, hnew a (by simp)]
      · simp [hi]
    have hstep : seenStep perm n seen a = .ok (seen ||| (1 <<< a)) := by
      rw [seenStep, ensure_of_true (hlt a (by simp)), ensure_of_true ha]
      rfl
    rw [List.foldlM_cons, hstep]
    rw [List.nodup_cons] at hnodup
    refine ih _ (fun b hb => hlt b (by simp [hb])) hnodup.2 fun b hb => ?_
    have hne : a ≠ b := fun hab => hnodup.1 (hab ▸ hb)
    rw [Nat.testBit_lor, Nat.one_shiftLeft, Nat.testBit_two_pow, hnew b (by simp [hb])]
    simp [hne]

/-- The boolean array passes over axes that are in range and not yet seen. -/
theorem foldlM_seenArrayStep (perm : List ℕ) (seen : List Bool) {n : ℕ} {axes : List ℕ}
    (hlt : ∀ a ∈ axes, a < n) (hnodup : axes.Nodup) (hnew : ∀ a ∈ axes, seen.getD a false = false) :
    ∃ r, axes.foldlM (seenArrayStep perm n) seen = .ok r := by
  induction axes generalizing seen with
  | nil => exact ⟨seen, rfl⟩
  | cons a axes ih =>
    have hstep : seenArrayStep perm n seen a = .ok (seen.set a true) := by
      rw [seenArrayStep, ensure_of_true (hlt a (by simp)), ensure_of_true (hnew a (by simp))]
      rfl
    rw [List.foldlM_cons, hstep]
    rw [List.nodup_cons] at hnodup
    refine ih _ (fun b hb => hlt b (by simp [hb])) hnodup.2 fun b hb => ?_
    have hne : a ≠ b := fun hab => hnodup.1 (hab ▸ hb)
    have := hnew b (by simp [hb])
    rw [List.getD_eq_getElem?_getD] at this ⊢
    rwa [List.getElem?_set_ne hne]

theorem lt_of_perm_range {axes : List ℕ} {n : ℕ} (h : axes.Perm (List.range n)) {a : ℕ}
    (ha : a ∈ axes) : a < n := List.mem_range.mp (h.mem_iff.mp ha)

/-- A permutation is accepted unless it has exactly 64 axes. -/
theorem validatePermutation_ok {axes : List ℕ} {n : ℕ} (h : axes.Perm (List.range n))
    (hn : n ≠ 64) : validatePermutation axes n = .ok () := by
  have hlen : axes.length = n := by simpa using h.length_eq
  have hnodup : axes.Nodup := h.nodup_iff.mpr List.nodup_range
  rw [validatePermutation, ensure_of_true hlen]
  by_cases h64 : n ≤ 64
  · have hmod : n % 64 = n := Nat.mod_eq_of_lt (by omega)
    have hbits : bitsOf axes = (1 <<< (n % 64)) - 1 := by
      refine Nat.eq_of_testBit_eq fun i => ?_
      rw [testBit_bitsOf, hmod, Nat.one_shiftLeft, Nat.testBit_two_pow_sub_one]
      simp [h.mem_iff]
    have hfold := foldlM_seenStep axes 0 (fun a ha => lt_of_perm_range h ha) hnodup
      fun a _ => Nat.zero_testBit a
    simp only [h64, if_true, hfold]
    exact ensure_of_true hbits _
  · obtain ⟨r, hr⟩ := foldlM_seenArrayStep axes (List.replicate n false)
      (fun a ha => lt_of_perm_range h ha) hnodup fun a ha => by
        simp [List.getD_eq_getElem?_getD, lt_of_perm_range h ha]
    simp only [h64, if_false, hr]
    rfl

/-- No permutation of 64 axes is accepted: the expected bit set is shifted out. -/
theorem validatePermutation_error {axes : List ℕ} (h : axes.Perm (List.range 64)) :
    ∃ e, validatePermutation axes 64 = .error e := by
  have hlen : axes.length = 64 := by simpa using h.length_eq
  have hnodup : axes.Nodup := h.nodup_iff.mpr List.nodup_range
  have hbits : bitsOf axes ≠ (1 <<< (64 % 64)) - 1 := by
    intro heq
    have h0 := testBit_bitsOf axes 0
    rw [heq] at h0
    simp [h.mem_iff] at h0
  have hfold := foldlM_seenStep axes 0 (fun a ha => lt_of_perm_range h ha) hnodup
    fun a _ => Nat.zero_testBit a
  refine ⟨.permuteInvalidPermutation axes 64, ?_⟩
  rw [validatePermutation, ensure_of_true hlen]
  simp only [Nat.le_refl, if_true, hfold]
  exact ensure_of_false hbits _

theorem tryPermute_ok (t : NdArray α) {axes : List ℕ}
    (h : axes.Perm (List.range t.shape.length)) (hn : t.shape.length ≠ 64) :
    ∃ u, tryPermute t axes = .ok u ∧ u.Agrees (t.permute axes) := by
  have hlen : axes.length = t.shape.length := by simpa using h.length_eq
  by_cases hid : axes = List.range axes.length
  · refine ⟨t, ?_, ?_⟩
    · rw [tryPermute, validatePermutation_ok h hn]
      simp only [bind, Except.bind, if_pos hid]
      rfl
    · rw [hid, hlen]
      exact t.permute_self
  · refine ⟨t.permute axes, ?_, .refl _⟩
    rw [tryPermute, validatePermutation_ok h hn]
    simp only [bind, Except.bind, if_neg hid]
    rfl

theorem tryPermute_error (t : NdArray α) {axes : List ℕ} (h : axes.Perm (List.range 64))
    (hn : t.shape.length = 64) : ∃ e, tryPermute t axes = .error e := by
  obtain ⟨e, he⟩ := validatePermutation_error h
  refine ⟨e, ?_⟩
  rw [tryPermute, hn, he]
  rfl

end Movement

end Svod.Ir
