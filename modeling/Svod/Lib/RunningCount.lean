/-
  Svod.Lib.RunningCount

  The positions a predicate selects, and its running counts.

  The running count of a position is how many positions up to it are selected.
  As many positions have a running count of at most `j` as come before the
  selected position of rank `j`, so that position can be found by counting.
-/

import Mathlib.Algebra.Order.Ring.Nat
import Mathlib.Data.List.GetD

namespace Svod.Lib

/-- The selected positions below `n`, in order. -/
def selected (m : ℕ → Bool) (n : ℕ) : List ℕ := (List.range n).filter m

/-- How many positions up to `k` are selected. -/
def runningCount (m : ℕ → Bool) (k : ℕ) : ℕ := (selected m (k + 1)).length

variable {m : ℕ → Bool} {n : ℕ}

@[simp] theorem selected_zero (m : ℕ → Bool) : selected m 0 = [] := rfl

theorem selected_succ (m : ℕ → Bool) (n : ℕ) :
    selected m (n + 1) = selected m n ++ if m n then [n] else [] := by
  rw [selected, List.range_succ, List.filter_append, selected, List.filter_cons, List.filter_nil]

theorem mem_selected {k : ℕ} : k ∈ selected m n ↔ k < n ∧ m k = true := by
  simp [selected]

theorem selected_length_le (m : ℕ → Bool) (n : ℕ) : (selected m n).length ≤ n := by
  have h := List.length_filter_le m (List.range n)
  rwa [List.length_range] at h

theorem runningCount_le {k : ℕ} (hk : k < n) : runningCount m k ≤ (selected m n).length := by
  obtain ⟨j, rfl⟩ := Nat.exists_eq_add_of_le hk
  have hsplit : List.range (k + 1 + j) = _ := List.range_add
  rw [runningCount, selected, selected, Nat.succ_eq_add_one, hsplit, List.filter_append,
    List.length_append]
  exact Nat.le_add_right _ _

theorem runningCount_last (hn : 0 < n) : runningCount m (n - 1) = (selected m n).length := by
  rw [runningCount, Nat.sub_add_cancel hn]

/-- The positions whose running count is at most `j` are those before the selected position of
    rank `j`, or all where there is none. -/
theorem length_runningCount_le (m : ℕ → Bool) (n j : ℕ) :
    ((List.range n).filter fun k => decide (runningCount m k ≤ j)).length =
      (selected m n).getD j n := by
  induction n with
  | zero => simp
  | succ n ih =>
    have hcount : runningCount m n = (selected m n ++ if m n then [n] else []).length := by
      rw [runningCount, selected_succ]
    rw [List.range_succ, List.filter_append, List.length_append, ih, List.filter_cons,
      List.filter_nil, hcount,
      selected_succ]
    cases hm : m n with
    | false =>
      -- the count stays: the position is before the next selected one, if there is none yet
      simp only [Bool.false_eq_true, if_false, List.append_nil]
      by_cases hj : j < (selected m n).length
      · rw [if_neg (by rw [decide_eq_true_eq]; omega), List.getD_eq_getElem _ _ hj,
          List.getD_eq_getElem _ _ hj]
        rfl
      · rw [if_pos (by rw [decide_eq_true_eq]; omega), List.getD_eq_default _ _ (by omega),
          List.getD_eq_default _ _ (by omega)]
        rfl
    | true =>
      simp only [if_true, List.length_append, List.length_singleton]
      rcases Nat.lt_trichotomy j (selected m n).length with hj | hj | hj
      · rw [if_neg (by rw [decide_eq_true_eq]; omega), List.getD_append _ _ _ _ hj,
          List.getD_eq_getElem _ _ hj, List.getD_eq_getElem _ _ hj]
        rfl
      · subst hj
        rw [if_neg (by rw [decide_eq_true_eq]; omega), List.getD_eq_default _ _ (Nat.le_refl _),
          List.getD_append_right _ _ _ _ (Nat.le_refl _), Nat.sub_self]
        rfl
      · rw [if_pos (by rw [decide_eq_true_eq]; omega), List.getD_eq_default _ _ (by omega),
          List.getD_eq_default]
        · rfl
        · simp
          omega

/-- A cumulative histogram counts the values up to its bin. -/
theorem length_filter_le_succ (g : ℕ → ℕ) (l : List ℕ) (j : ℕ) :
    (l.filter fun k => decide (g k ≤ j + 1)).length =
      (l.filter fun k => decide (g k ≤ j)).length +
        (l.filter fun k => decide (g k = j + 1)).length := by
  induction l with
  | nil => rfl
  | cons k l ih =>
    simp only [List.filter_cons, decide_eq_true_eq]
    by_cases h₁ : g k ≤ j
    · rw [if_pos (by omega), if_pos h₁, if_neg (by omega), List.length_cons, List.length_cons, ih]
      omega
    · by_cases h₂ : g k = j + 1
      · rw [if_pos (by omega), if_neg h₁, if_pos h₂, List.length_cons, List.length_cons, ih]
        omega
      · rw [if_neg (by omega), if_neg h₁, if_neg h₂, ih]

theorem sum_histogram (g : ℕ → ℕ) (l : List ℕ) (j : ℕ) :
    ((List.range (j + 1)).map fun q => (l.filter fun k => decide (g k = q)).length).sum =
      (l.filter fun k => decide (g k ≤ j)).length := by
  induction j with
  | zero => simp
  | succ j ih =>
    rw [List.range_succ, List.map_append, List.sum_append, ih, List.map_singleton,
      List.sum_singleton, length_filter_le_succ]

end Svod.Lib
