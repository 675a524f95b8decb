/-
  Svod.Lib.KeyedSums

  Lists of elements that carry a key and a value of an additive monoid.

  `sumAt key val P xs` is what the elements whose key is in `P` add up to.
  Merging neighbours of one key keeps every such sum, and a transition that is
  additive in the value sees no more of a list than these sums.
-/

import Mathlib.Algebra.BigOperators.Group.Finset.Basic
import Mathlib.Data.List.Sort

namespace Svod.KeyedSums

variable {α β K V : Type*} [AddCommMonoid V] (key : α → K) (val : α → V)

/-- The sum of the values at the keys in `P`. -/
def sumAt (P : K → Prop) [DecidablePred P] (xs : List α) : V :=
  (xs.map fun x => if P (key x) then val x else 0).sum

section Sums

variable (P : K → Prop) [DecidablePred P]

@[simp] theorem sumAt_nil : sumAt key val P [] = 0 := rfl

@[simp] theorem sumAt_cons (x : α) (xs : List α) :
    sumAt key val P (x :: xs) = (if P (key x) then val x else 0) + sumAt key val P xs := by
  rw [sumAt, List.map_cons, List.sum_cons, sumAt]

@[simp] theorem sumAt_append (xs ys : List α) :
    sumAt key val P (xs ++ ys) = sumAt key val P xs + sumAt key val P ys := by
  rw [sumAt, List.map_append, List.sum_append, sumAt, sumAt]

theorem sumAt_perm {xs ys : List α} (h : xs.Perm ys) : sumAt key val P xs = sumAt key val P ys :=
  (h.map _).sum_eq

theorem sumAt_eq_zero {xs : List α} (h : ∀ x ∈ xs, ¬ P (key x)) : sumAt key val P xs = 0 := by
  refine List.sum_eq_zero fun v hv => ?_
  obtain ⟨x, hx, rfl⟩ := List.mem_map.mp hv
  exact if_neg (h x hx)

end Sums

/-- Only the keys of the elements of the list count. -/
theorem sumAt_congr {L : Type*} {key' : α → L} {P : K → Prop} {Q : L → Prop} [DecidablePred P]
    [DecidablePred Q] {xs : List α} (h : ∀ x ∈ xs, P (key x) ↔ Q (key' x)) :
    sumAt key val P xs = sumAt key' val Q xs := by
  refine congrArg List.sum (List.map_congr_left fun x hx => ?_)
  simp only [h x hx]

/-- Where keys are distinct, the sum at the key of an element is its value. -/
theorem sumAt_key_of_nodup [DecidableEq K] {xs : List α} (hnodup : (xs.map key).Nodup) {x : α}
    (hx : x ∈ xs) : sumAt key val (· = key x) xs = val x := by
  induction xs with
  | nil => cases hx
  | cons y ys ih =>
    rw [List.map_cons, List.nodup_cons] at hnodup
    rw [sumAt_cons]
    rcases List.mem_cons.mp hx with rfl | hx
    · -- no later element has the key
      rw [if_pos rfl, sumAt_eq_zero key val (· = key x) fun y hy heq =>
        hnodup.1 (heq ▸ List.mem_map_of_mem hy), add_zero]
    · rw [if_neg fun heq : key y = key x => hnodup.1 (heq ▸ List.mem_map_of_mem hx), zero_add,
        ih hnodup.2 hx]

/-! ## Merging neighbours -/

section Merge

variable [DecidableEq K] (merge : α → α → α)

/-- Neighbours of one key merged into the first of them. -/
def mergeRuns (last : α) : List α → List α
  | [] => [last]
  | x :: xs => if key x = key last then mergeRuns (merge last x) xs else last :: mergeRuns x xs

theorem mergeRuns_ne_nil (last : α) (xs : List α) : mergeRuns key merge last xs ≠ [] := by
  induction xs generalizing last with
  | nil => exact List.cons_ne_nil _ _
  | cons x xs ih =>
    rw [mergeRuns]
    split
    · exact ih _
    · exact List.cons_ne_nil _ _

theorem length_mergeRuns_le (last : α) (xs : List α) :
    (mergeRuns key merge last xs).length ≤ xs.length + 1 := by
  induction xs generalizing last with
  | nil => exact le_refl _
  | cons x xs ih =>
    rw [mergeRuns]
    split
    · exact (ih _).trans (Nat.le_succ _)
    · exact Nat.succ_le_succ (ih x)

variable {merge} (hkey : ∀ a b, key (merge a b) = key a)

include hkey in
theorem sumAt_mergeRuns (hval : ∀ a b, val (merge a b) = val a + val b) (P : K → Prop)
    [DecidablePred P] (last : α) (xs : List α) :
    sumAt key val P (mergeRuns key merge last xs) = sumAt key val P (last :: xs) := by
  induction xs generalizing last with
  | nil => rfl
  | cons x xs ih =>
    rw [mergeRuns]
    split
    · next heq =>
      rw [ih, sumAt_cons, hkey, hval, sumAt_cons, sumAt_cons, heq]
      split
      · rw [add_assoc]
      · rw [zero_add, zero_add]
    · rw [sumAt_cons, ih, ← sumAt_cons key val P last]

include hkey in
theorem key_mem_mergeRuns {last y : α} {xs : List α} (hy : y ∈ mergeRuns key merge last xs) :
    ∃ x ∈ last :: xs, key x = key y := by
  induction xs generalizing last with
  | nil => exact ⟨y, hy, rfl⟩
  | cons x xs ih =>
    rw [mergeRuns] at hy
    split at hy
    · obtain ⟨z, hz, heq⟩ := ih hy
      rcases List.mem_cons.mp hz with rfl | hz
      · exact ⟨last, List.mem_cons_self, (hkey last x).symm.trans heq⟩
      · exact ⟨z, List.mem_cons_of_mem _ (List.mem_cons_of_mem _ hz), heq⟩
    · rcases List.mem_cons.mp hy with rfl | hy
      · exact ⟨y, List.mem_cons_self, rfl⟩
      · obtain ⟨z, hz, heq⟩ := ih hy
        exact ⟨z, List.mem_cons_of_mem _ hz, heq⟩

end Merge

/-- The merged neighbours of a sorted list have distinct keys. -/
theorem mergeRuns_pairwise [LinearOrder K] {merge : α → α → α}
    (hkey : ∀ a b, key (merge a b) = key a) {last : α} {xs : List α}
    (hsorted : (last :: xs).Pairwise fun a b => key a ≤ key b) :
    (mergeRuns key merge last xs).Pairwise fun a b => key a < key b := by
  induction xs generalizing last with
  | nil => exact List.pairwise_singleton _ _
  | cons x xs ih =>
    obtain ⟨hlast, htail⟩ := List.pairwise_cons.mp hsorted
    obtain ⟨hx, hxs⟩ := List.pairwise_cons.mp htail
    rw [mergeRuns]
    split
    · refine ih (List.pairwise_cons.mpr ⟨fun y hy => ?_, hxs⟩)
      rw [hkey]
      exact hlast y (List.mem_cons_of_mem x hy)
    · next hne =>
      refine List.pairwise_cons.mpr ⟨fun y hy => ?_, ih htail⟩
      obtain ⟨z, hz, heq⟩ := key_mem_mergeRuns key hkey hy
      have hlt : key last < key x := lt_of_le_of_ne (hlast x List.mem_cons_self) (Ne.symm hne)
      rw [← heq]
      rcases List.mem_cons.mp hz with rfl | hz
      · exact hlt
      · exact hlt.trans_le (hx z hz)

/-! ## Transitions that are additive in the value -/

section Transition

variable [DecidableEq K] {W : Type*} [AddCommMonoid W] (step : K → V →+ W)

/-- What a transition gives over a list, from the sums at its keys. -/
theorem sum_step_eq (s : Finset K) {xs : List α} (hs : ∀ x ∈ xs, key x ∈ s) :
    (xs.map fun x => step (key x) (val x)).sum =
      ∑ k ∈ s, step k (sumAt key val (· = k) xs) := by
  induction xs with
  | nil => simp
  | cons x xs ih =>
    have hx : ∑ k ∈ s, step k (if key x = k then val x else 0) = step (key x) (val x) := by
      rw [Finset.sum_eq_single_of_mem (key x) (hs x List.mem_cons_self) fun k _ hk => by
        rw [if_neg (Ne.symm hk), map_zero], if_pos rfl]
    rw [List.map_cons, List.sum_cons, ih fun y hy => hs y (List.mem_cons_of_mem x hy), ← hx,
      ← Finset.sum_add_distrib]
    refine Finset.sum_congr rfl fun k _ => ?_
    rw [sumAt_cons, map_add]

/-- Two lists with the same sums at every key give the same under a transition. -/
theorem sum_step_congr {key' : β → K} {val' : β → V} {xs : List α} {ys : List β}
    (h : ∀ k, sumAt key val (· = k) xs = sumAt key' val' (· = k) ys) :
    (xs.map fun x => step (key x) (val x)).sum = (ys.map fun y => step (key' y) (val' y)).sum := by
  have hxs : ∀ x ∈ xs, key x ∈ (xs.map key).toFinset ∪ (ys.map key').toFinset := fun x hx =>
    Finset.mem_union_left _ (List.mem_toFinset.mpr (List.mem_map_of_mem hx))
  have hys : ∀ y ∈ ys, key' y ∈ (xs.map key).toFinset ∪ (ys.map key').toFinset := fun y hy =>
    Finset.mem_union_right _ (List.mem_toFinset.mpr (List.mem_map_of_mem hy))
  rw [sum_step_eq key val step _ hxs, sum_step_eq key' val' step _ hys]
  exact Finset.sum_congr rfl fun k _ => by rw [h k]

end Transition

end Svod.KeyedSums
