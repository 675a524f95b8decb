/-
  Svod.Lib.Reorder

  Actions taken in another order.

  Two orders of the same actions, in both of which any two of them commute or
  stand as a relation says, have the same outcome.
-/

import Mathlib.Data.List.Perm.Basic

namespace Svod.Lib.Reorder

variable {σ ι : Type*} {act : σ → ι → σ}

/-- The two actions may be swapped, in any state. -/
def Commutes (act : σ → ι → σ) (x y : ι) : Prop := ∀ s, act (act s x) y = act (act s y) x

/-- An action is taken first where it commutes with all that come before it. -/
theorem foldl_front {a : ι} {pre : List ι} (h : ∀ y ∈ pre, Commutes act y a) (post : List ι)
    (s : σ) : (pre ++ a :: post).foldl act s = (a :: (pre ++ post)).foldl act s := by
  induction pre generalizing s with
  | nil => rfl
  | cons y pre ih =>
    have hy : act (act s y) a = act (act s a) y := h y List.mem_cons_self s
    have hrest := ih (fun z hz => h z (List.mem_cons_of_mem y hz)) (act s y)
    simp only [List.cons_append, List.foldl_cons, hy] at hrest ⊢
    exact hrest

/-- Two orders that agree on the actions that do not commute have the same outcome. -/
theorem foldl_eq_of_perm {r : ι → ι → Prop} (hr : ∀ x y, r x y → ¬ r y x) {l l' : List ι}
    (hp : l'.Perm l) (hl : l.Pairwise fun x y => Commutes act x y ∨ r x y)
    (hl' : l'.Pairwise fun x y => Commutes act x y ∨ r x y) (s : σ) :
    l'.foldl act s = l.foldl act s := by
  induction l generalizing l' s with
  | nil => rw [hp.eq_nil]
  | cons a t ih =>
    obtain ⟨pre, post, rfl⟩ := List.append_of_mem (hp.mem_iff.mpr List.mem_cons_self)
    have hp' : (pre ++ post).Perm t := (List.perm_middle.symm.trans hp).cons_inv
    obtain ⟨ha, ht⟩ := List.pairwise_cons.mp hl
    rw [foldl_front, List.foldl_cons, List.foldl_cons]
    · exact ih hp' ht (hl'.sublist ((List.sublist_cons_self a post).append_left pre)) _
    · intro y hy s
      rcases ha y (hp'.mem_iff.mp (List.mem_append_left post hy)) with h | h
      · exact (h s).symm
      · exact ((List.pairwise_append.mp hl').2.2 y hy a List.mem_cons_self).resolve_right (hr a y h) s

end Svod.Lib.Reorder
