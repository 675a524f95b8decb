/-
  Svod.Arch.CtcAlignments

  What a CTC decoder sums over: a label for each frame, the runs of one label
  collapsed and the blanks dropped.

  `blankMass` and `nonblankMass` are the sums over the alignments of one prefix
  that end in the blank and of those that do not; `advance` is what one more
  frame makes of the two, which is all a prefix search has to know of the
  alignments before it.
-/

import Mathlib.Algebra.BigOperators.Fin
import Mathlib.Algebra.BigOperators.Pi
import Mathlib.Data.List.Destutter
import Svod.Lib.KeyedSums

namespace Svod.Arch.Ctc

/-! ## Collapsing an alignment -/

/-- Runs of one label collapsed, then the blanks dropped. -/
def collapsed (blank : ℕ) (a : List ℕ) : List ℕ := (a.destutter (· ≠ ·)).filter (· ≠ blank)

/-- The empty alignment counts as one that ends in the blank. -/
def EndsBlank (blank : ℕ) (a : List ℕ) : Prop := a.getLastD blank = blank

instance (blank : ℕ) (a : List ℕ) : Decidable (EndsBlank blank a) :=
  inferInstanceAs (Decidable (a.getLastD blank = blank))

theorem destutter'_concat (x c : ℕ) (a : List ℕ) :
    (a ++ [c]).destutter' (· ≠ ·) x =
      if (x :: a).getLast? = some c then a.destutter' (· ≠ ·) x
      else a.destutter' (· ≠ ·) x ++ [c] := by
  induction a generalizing x with
  | nil =>
    by_cases h : x = c
    · simp [h]
    · simp [h]
  | cons y a ih =>
    rw [List.cons_append, List.destutter', List.destutter', List.getLast?_cons_cons]
    by_cases h : x = y
    · rw [if_neg (not_not.mpr h), if_neg (not_not.mpr h), ih, h]
    · rw [if_pos h, if_pos h, ih]
      split
      · rfl
      · rfl

theorem destutter_concat (c : ℕ) (a : List ℕ) :
    (a ++ [c]).destutter (· ≠ ·) =
      if a.getLast? = some c then a.destutter (· ≠ ·) else a.destutter (· ≠ ·) ++ [c] := by
  cases a with
  | nil => rfl
  | cons x a => exact destutter'_concat x c a

variable {blank : ℕ}

/-- One more label: only one that is not the blank and not the label before it counts. -/
theorem collapsed_concat (a : List ℕ) (c : ℕ) :
    collapsed blank (a ++ [c]) =
      if c = blank ∨ a.getLast? = some c then collapsed blank a else collapsed blank a ++ [c] := by
  rw [collapsed, destutter_concat]
  by_cases hlast : a.getLast? = some c
  · rw [if_pos hlast, if_pos (Or.inr hlast), collapsed]
  · rw [if_neg hlast, List.filter_append, collapsed]
    by_cases hblank : c = blank
    · simp [hblank]
    · simp [hblank, hlast]

theorem endsBlank_concat (a : List ℕ) (c : ℕ) : EndsBlank blank (a ++ [c]) ↔ c = blank := by
  rw [EndsBlank, List.getLastD_concat]

/-- An alignment that ends in the blank does not end in a label. -/
theorem EndsBlank.getLast?_ne {a : List ℕ} (h : EndsBlank blank a) {c : ℕ} (hc : c ≠ blank) :
    a.getLast? ≠ some c := by
  intro hlast
  rw [EndsBlank, List.getLastD_eq_getLast?, hlast, Option.getD_some] at h
  exact hc h

/-- The last label of an alignment is the last of what it collapses to, unless it is the blank. -/
theorem getLast?_collapsed {a : List ℕ} {c : ℕ} (hlast : a.getLast? = some c) (hc : c ≠ blank) :
    (collapsed blank a).getLast? = some c := by
  induction a using List.reverseRecOn with
  | nil => cases hlast
  | append_singleton a x ih =>
    rw [List.getLast?_concat, Option.some.injEq] at hlast
    rw [hlast, collapsed_concat]
    by_cases hprev : a.getLast? = some c
    · rw [if_pos (Or.inr hprev), ih hprev]
    · rw [if_neg (not_or.mpr ⟨hc, hprev⟩), List.getLast?_concat]

/-- What an alignment ends in when it does not end in the blank. -/
theorem getLast?_of_not_endsBlank {a : List ℕ} (h : ¬ EndsBlank blank a) :
    a.getLast? = (collapsed blank a).getLast? := by
  cases hlast : a.getLast? with
  | none =>
    rw [List.getLast?_eq_none_iff.mp hlast] at h
    exact absurd rfl h
  | some c =>
    have hc : c ≠ blank := by
      rintro rfl
      exact h (by rw [EndsBlank, List.getLastD_eq_getLast?, hlast, Option.getD_some])
    exact (getLast?_collapsed hlast hc).symm

/-! ## The masses of a prefix -/

section Masses

variable {S : Type*} [CommSemiring S] (blank) (k : ℕ) (score : ℕ → ℕ → S)

/-- The labels of an alignment of `t` frames. -/
def labelsOf {k t : ℕ} (a : Fin t → Fin k) : List ℕ := List.ofFn fun i => (a i : ℕ)

/-- The product of its frame scores. -/
def weight {k t : ℕ} (a : Fin t → Fin k) : S := ∏ i : Fin t, score i (a i)

/-- The sum over the alignments of `t` frames that collapse to `q` and end in the blank. -/
def blankMass (t : ℕ) (q : List ℕ) : S :=
  ∑ a : Fin t → Fin k,
    if collapsed blank (labelsOf a) = q ∧ EndsBlank blank (labelsOf a) then weight score a else 0

/-- The sum over the alignments of `t` frames that collapse to `q` and do not end in the blank. -/
def nonblankMass (t : ℕ) (q : List ℕ) : S :=
  ∑ a : Fin t → Fin k,
    if collapsed blank (labelsOf a) = q ∧ ¬ EndsBlank blank (labelsOf a) then weight score a else 0

/-- What one alignment adds to the two masses of its prefix. -/
def share (a : List ℕ) (w : S) : S × S := if EndsBlank blank a then (w, 0) else (0, w)

def shareOf {t : ℕ} (a : Fin t → Fin k) : S × S := share blank (labelsOf a) (weight score a)

noncomputable def alignments (t : ℕ) : List (Fin t → Fin k) := Finset.univ.toList

theorem sum_alignments {V : Type*} [AddCommMonoid V] (t : ℕ) (f : (Fin t → Fin k) → V) :
    ((alignments k t).map f).sum = ∑ a : Fin t → Fin k, f a :=
  Finset.sum_map_toList _ f

/-- The two masses are the keyed sums of the alignments. -/
theorem masses_eq (t : ℕ) (q : List ℕ) :
    KeyedSums.sumAt (fun a => collapsed blank (labelsOf a)) (shareOf blank k score) (· = q)
      (alignments k t) = (blankMass blank k score t q, nonblankMass blank k score t q) := by
  rw [KeyedSums.sumAt, sum_alignments, blankMass, nonblankMass, prod_mk_sum]
  refine Finset.sum_congr rfl fun a _ => ?_
  rw [shareOf, share]
  by_cases hq : collapsed blank (labelsOf a) = q
  · by_cases hends : EndsBlank blank (labelsOf a)
    · simp [hq, hends]
    · simp [hq, hends]
  · simp [hq, Prod.mk_zero_zero]

/-! ## One more frame -/

theorem sum_frames_succ {V : Type*} [AddCommMonoid V] (t : ℕ) (f : (Fin (t + 1) → Fin k) → V) :
    ∑ a : Fin (t + 1) → Fin k, f a = ∑ a : Fin t → Fin k, ∑ c : Fin k, f (Fin.snoc a c) := by
  rw [← Fintype.sum_equiv (Fin.snocEquiv fun _ : Fin (t + 1) => Fin k)
    (fun p => f (Fin.snoc p.2 p.1)) f fun _ => rfl, Fintype.sum_prod_type, Finset.sum_comm]

theorem labelsOf_snoc {t : ℕ} (a : Fin t → Fin k) (c : Fin k) :
    labelsOf (Fin.snoc a c : Fin (t + 1) → Fin k) = labelsOf a ++ [(c : ℕ)] := by
  rw [labelsOf, List.ofFn_succ', List.concat_eq_append]
  simp [labelsOf]

theorem weight_snoc {t : ℕ} (a : Fin t → Fin k) (c : Fin k) :
    weight score (Fin.snoc a c : Fin (t + 1) → Fin k) = weight score a * score t c := by
  simp [weight, Fin.prod_univ_castSucc]

/-- What a label of score `f` after the prefix `q₀` adds to the masses of `q`. -/
def advance (f : S) (c : ℕ) (q q₀ : List ℕ) : S × S →+ S × S where
  toFun v :=
    if c = blank then if q₀ = q then ((v.1 + v.2) * f, 0) else 0
    else if q₀.getLast? = some c then
      -- a run that goes on, and a label that comes again after the blank
      (if q₀ = q then (0, v.2 * f) else 0) + (if q₀ ++ [c] = q then (0, v.1 * f) else 0)
    else if q₀ ++ [c] = q then (0, (v.1 + v.2) * f) else 0
  map_zero' := by simp [Prod.mk_zero_zero]
  map_add' := by
    intro v w
    split
    · split
      · simp [add_mul, add_add_add_comm]
      · simp
    · split
      · split
        · split
          · simp [add_mul, add_add_add_comm]
          · simp [add_mul]
        · split
          · simp [add_mul]
          · simp
      · split
        · simp [add_mul, add_add_add_comm]
        · simp

/-- The advanced share of an alignment is the share of the alignment with the label. -/
theorem advance_share (f w : S) (c : ℕ) (q a : List ℕ) :
    advance blank f c q (collapsed blank a) (share blank a w) =
      if collapsed blank (a ++ [c]) = q then share blank (a ++ [c]) (w * f) else 0 := by
  dsimp only [advance, AddMonoidHom.coe_mk, ZeroHom.coe_mk]
  rw [collapsed_concat, share, share]
  simp only [endsBlank_concat]
  by_cases hblank : c = blank
  · -- the prefix stays
    rw [if_pos hblank, if_pos (Or.inl hblank), if_pos hblank]
    by_cases hends : EndsBlank blank a
    · simp [hends]
    · simp [hends]
  · rw [if_neg hblank, if_neg hblank]
    by_cases hends : EndsBlank blank a
    · -- the label starts a run
      rw [if_pos hends, if_neg (not_or.mpr ⟨hblank, hends.getLast?_ne hblank⟩)]
      split
      · simp [Prod.mk_zero_zero]
      · simp
    · rw [if_neg hends, getLast?_of_not_endsBlank hends]
      by_cases hlast : (collapsed blank a).getLast? = some c
      · simp [hlast, Prod.mk_zero_zero]
      · simp [hlast, hblank]

/-- All the labels of one frame. -/
def advanceAll (t : ℕ) (q q₀ : List ℕ) : S × S →+ S × S :=
  ∑ c : Fin k, advance blank (score t c) c q q₀

theorem advanceAll_apply (t : ℕ) (q q₀ : List ℕ) (v : S × S) :
    advanceAll blank k score t q q₀ v =
      ((List.range k).map fun c => advance blank (score t c) c q q₀ v).sum := by
  rw [advanceAll, AddMonoidHom.finsetSum_apply,
    Fin.sum_univ_eq_sum_range (fun c => advance blank (score t c) c q q₀ v), Finset.sum_range,
    ← List.sum_ofFn]
  congr 1
  refine List.ext_getElem (by simp) fun i h1 h2 => by simp

/-- The masses after one more frame, from the alignments before it. -/
theorem masses_succ (t : ℕ) (q : List ℕ) :
    (blankMass blank k score (t + 1) q, nonblankMass blank k score (t + 1) q) =
      ((alignments k t).map fun a =>
        advanceAll blank k score t q (collapsed blank (labelsOf a)) (shareOf blank k score a)).sum := by
  rw [← masses_eq, KeyedSums.sumAt, sum_alignments, sum_alignments, sum_frames_succ]
  refine Finset.sum_congr rfl fun a _ => ?_
  rw [advanceAll, AddMonoidHom.finsetSum_apply]
  refine Finset.sum_congr rfl fun c _ => ?_
  rw [shareOf, shareOf, advance_share, labelsOf_snoc, weight_snoc]

/-- Before the first frame all mass is on the empty prefix. -/
theorem masses_zero (q : List ℕ) :
    (blankMass blank k score 0 q, nonblankMass blank k score 0 q) =
      if [] = q then ((1, 0) : S × S) else 0 := by
  have hends : EndsBlank blank [] := rfl
  rw [← masses_eq, KeyedSums.sumAt, sum_alignments, Fintype.sum_unique]
  simp [shareOf, share, labelsOf, weight, collapsed, hends]

end Masses

end Svod.Arch.Ctc
