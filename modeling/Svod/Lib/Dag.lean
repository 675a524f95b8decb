/-
  Svod.Lib.Dag

  Directed acyclic graphs whose nodes are numbered from the leaves up, and their
  depth-first listing, which puts each node after its children.
-/

import Mathlib.Tactic.Linarith

namespace Svod.Lib

/-- A graph in which the children of a node have smaller numbers. -/
structure Dag where
  children : ℕ → List ℕ
  below : ∀ n, ∀ c ∈ children n, c < n

namespace Dag

variable (g : Dag)

/-- Depth-first search: a node that is not listed yet is listed after its children. -/
def visit (n : ℕ) (listed : List ℕ) : List ℕ :=
  if n ∈ listed then listed
  else ((g.children n).attach.foldl (fun l c => visit c.1 l) listed) ++ [n]
termination_by n
decreasing_by exact g.below n c.1 c.2

/-- Each node of the list comes after its children. -/
def Ordered (l : List ℕ) : Prop :=
  ∀ l₁ n l₂, l = l₁ ++ n :: l₂ → ∀ c ∈ g.children n, c ∈ l₁

variable {g}

theorem Ordered.nil : g.Ordered [] := fun l₁ n l₂ h => by simp at h

theorem Ordered.snoc {l : List ℕ} (h : g.Ordered l) {n : ℕ} (hn : ∀ c ∈ g.children n, c ∈ l) :
    g.Ordered (l ++ [n]) := by
  intro l₁ m l₂ hl
  rcases List.eq_nil_or_concat l₂ with rfl | ⟨l₂', k, rfl⟩
  · obtain ⟨rfl, hm⟩ := List.append_inj' hl rfl
    cases hm
    exact hn
  · have hsplit : l ++ [n] = (l₁ ++ m :: l₂') ++ [k] := by simpa using hl
    obtain ⟨hl', -⟩ := List.append_inj' hsplit rfl
    exact h l₁ m l₂' hl'

end Dag

end Svod.Lib
