/-
  Svod.Lib.SortedKeys

  Lists sorted by a key: a sorted list is its parts one key after the other, and
  a part that is closed downward comes first.
-/

import Mathlib.Data.List.Destutter
import Mathlib.Data.List.Sort

namespace Svod.SortedKeys

variable {α : Type*}

/-- Where no element of the part comes after one outside of it, the part comes first. -/
theorem filter_append_filter_not {p : α → Bool} {xs : List α}
    (h : xs.Pairwise fun a b => p b = true → p a = true) :
    xs.filter p ++ xs.filter (fun a => !p a) = xs := by
  induction xs with
  | nil => rfl
  | cons x xs ih =>
    obtain ⟨hx, hxs⟩ := List.pairwise_cons.mp h
    cases hp : p x with
    | true => rw [List.filter_cons_of_pos hp, List.filter_cons_of_neg (by simp [hp]),
        List.cons_append, ih hxs]
    | false =>
      -- nothing after `x` is in the part
      have hnone : xs.filter p = [] := List.filter_eq_nil_iff.mpr fun y hy hpy => by
        rw [hx y hy hpy] at hp
        cases hp
      rw [List.filter_cons_of_neg (by simp [hp]), List.filter_cons_of_pos (by simp [hp]), hnone,
        List.nil_append]
      congr 1
      exact List.filter_eq_self.mpr fun y hy => by
        have := List.filter_eq_nil_iff.mp hnone y hy
        simpa using this

/-- A list sorted by a key below `n` is its parts of each key in order. -/
theorem flatMap_filter_key {key : α → ℕ} {n : ℕ} {xs : List α}
    (hsorted : xs.Pairwise fun a b => key a ≤ key b) (hbound : ∀ x ∈ xs, key x < n) :
    ((List.range n).flatMap fun k => xs.filter fun x => key x == k) = xs := by
  induction n generalizing xs with
  | zero =>
    rw [List.range_zero, List.flatMap_nil]
    exact (List.eq_nil_iff_forall_not_mem.mpr fun x hx => Nat.not_lt_zero _ (hbound x hx)).symm
  | succ n ih =>
    have hsplit := @filter_append_filter_not _ (fun x => decide (key x < n)) xs
      (hsorted.imp fun hle hlt => decide_eq_true (hle.trans_lt (of_decide_eq_true hlt)))
    have hlow := @ih (xs.filter fun x => decide (key x < n)) (hsorted.sublist List.filter_sublist)
      fun x hx => of_decide_eq_true (List.mem_filter.mp hx).2
    have hhigh : (xs.filter fun x => !decide (key x < n)) = xs.filter fun x => key x == n :=
      List.filter_congr fun x hx => by
        have := hbound x hx
        by_cases hlt : key x < n
        · simp [hlt, hlt.ne]
        · have heq : key x = n := by omega
          simp [heq]
    rw [List.range_succ, List.flatMap_append, List.flatMap_singleton]
    refine Eq.trans ?_ hsplit
    rw [hhigh]
    congr 1
    refine Eq.trans ?_ hlow
    refine List.flatMap_congr fun k hk => ?_
    rw [List.filter_filter]
    refine List.filter_congr fun x _ => ?_
    have hk : k < n := List.mem_range.mp hk
    by_cases heq : key x = k
    · simp [heq, hk]
    · simp [heq]

/-! ## The first element of each key -/

section First

variable {κ : Type*} [LinearOrder κ] (key : α → κ)

/-- The first elements of the keys of a sorted list have distinct keys in order. -/
theorem pairwise_destutter {xs : List α} (h : xs.Pairwise fun a b => key a ≤ key b) :
    (xs.destutter fun a b => key a ≠ key b).Pairwise fun a b => key a < key b := by
  cases xs with
  | nil => exact .nil
  | cons x xs =>
    rw [List.destutter]
    induction xs generalizing x with
    | nil => exact List.pairwise_singleton _ _
    | cons y ys ih =>
      obtain ⟨hx, hys⟩ := List.pairwise_cons.mp h
      rw [List.destutter'_cons]
      split
      · next hne =>
        refine List.pairwise_cons.mpr ⟨fun z hz => ?_, ih y hys⟩
        -- what follows is at the key of `y` or past it
        have hlt : key x < key y := lt_of_le_of_ne (hx y List.mem_cons_self) hne
        rcases List.mem_cons.mp ((List.destutter'_sublist ..).subset hz) with rfl | hz
        · exact hlt
        · exact hlt.trans_le ((List.pairwise_cons.mp hys).1 z hz)
      · refine ih x (List.pairwise_cons.mpr ⟨fun z hz => hx z (List.mem_cons_of_mem y hz), ?_⟩)
        exact (List.pairwise_cons.mp hys).2

/-- Every key of a list is that of a first element, which stands in the order before the others. -/
theorem exists_mem_destutter {R : α → α → Prop} {xs : List α} (h : xs.Pairwise R) {y : α}
    (hy : y ∈ xs) :
    ∃ x ∈ xs.destutter fun a b => key a ≠ key b, key x = key y ∧ (x = y ∨ R x y) := by
  cases xs with
  | nil => cases hy
  | cons x xs =>
    rw [List.destutter]
    induction xs generalizing x with
    | nil =>
      rw [List.mem_singleton.mp hy]
      exact ⟨x, List.mem_singleton_self x, rfl, .inl rfl⟩
    | cons z zs ih =>
      obtain ⟨hx, hzs⟩ := List.pairwise_cons.mp h
      have hhead : x ∈ (z :: zs).destutter' (fun a b => key a ≠ key b) x := List.mem_destutter' ..
      rcases List.mem_cons.mp hy with rfl | hy
      · exact ⟨y, hhead, rfl, .inl rfl⟩
      · rw [List.destutter'_cons] at hhead ⊢
        split
        · obtain ⟨w, hw, hkey, hor⟩ := ih z hzs hy
          exact ⟨w, List.mem_cons_of_mem x hw, hkey, hor⟩
        · next heq =>
          rw [if_neg heq] at hhead
          rcases List.mem_cons.mp hy with rfl | hy
          · exact ⟨x, hhead, not_not.mp heq, .inr (hx y List.mem_cons_self)⟩
          · have hrest : (x :: zs).Pairwise R := List.pairwise_cons.mpr
              ⟨fun w hw => hx w (List.mem_cons_of_mem z hw), (List.pairwise_cons.mp hzs).2⟩
            exact ih x hrest (List.mem_cons_of_mem x hy)

end First

end Svod.SortedKeys
