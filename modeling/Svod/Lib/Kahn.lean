/-
  Svod.Lib.Kahn

  Finite multigraphs given by an edge list, and what Kahn's algorithm relies on.

  `pending` counts the edges into a node whose source is not done.  A node is
  ready when its count is zero; while an acyclic graph has nodes that are not
  done, one of them is ready.  Taking the ready nodes wave by wave stratifies
  the graph: a node's wave is the length of the longest path into it.
-/

import Mathlib.Order.WellFoundedSet

namespace Svod.Lib.Kahn

open Relation

/-! ## Acyclicity -/

section Acyclic

variable {α : Type} {E : α → α → Prop}

def Acyclic (E : α → α → Prop) : Prop := ∀ i, ¬ TransGen E i i

/-- Every non-empty finite set of an acyclic graph has a node without predecessor in it. -/
theorem Acyclic.exists_source (h : Acyclic E) {s : Set α} (hfin : s.Finite)
    (hne : s.Nonempty) : ∃ i ∈ s, ∀ j ∈ s, ¬ E j i := by
  have : IsTrans α (TransGen E) := ⟨fun _ _ _ => TransGen.trans⟩
  have : Std.Irrefl (TransGen E) := ⟨h⟩
  have : IsStrictOrder α (TransGen E) := {}
  have hwf : s.WellFoundedOn (TransGen E) := hfin.wellFoundedOn
  obtain ⟨x, hx⟩ := hne
  obtain ⟨⟨i, hi⟩, -, hmin⟩ := hwf.has_min Set.univ ⟨⟨x, hx⟩, trivial⟩
  exact ⟨i, hi, fun j hj hji => hmin ⟨j, hj⟩ trivial (TransGen.single hji)⟩

end Acyclic

/-! ## Longest paths -/

section Paths

variable {α : Type} {E : α → α → Prop}

/-- There is a path of `m` edges that ends in `i`. -/
inductive PathTo (E : α → α → Prop) : ℕ → α → Prop where
  | refl (i : α) : PathTo E 0 i
  | tail {m : ℕ} {j i : α} (path : PathTo E m j) (edge : E j i) : PathTo E (m + 1) i

/-- `levels` splits nodes by depth: a predecessor stands on a strictly lower level, and above
    level `0` some predecessor stands on the level right below. -/
structure Stratified (E : α → α → Prop) (levels : List (List α)) : Prop where
  lower : ∀ (k : ℕ) (level : List α) (i j : α), levels[k]? = some level → i ∈ level → E j i →
    ∃ (b : ℕ) (lower : List α), b < k ∧ levels[b]? = some lower ∧ j ∈ lower
  below : ∀ (k : ℕ) (level : List α) (i : α), levels[k + 1]? = some level → i ∈ level →
    ∃ (lower : List α) (j : α), levels[k]? = some lower ∧ j ∈ lower ∧ E j i

/-- The level of a node is the length of the longest path into it. -/
theorem Stratified.isGreatest {levels : List (List α)} (h : Stratified E levels) {k : ℕ}
    {level : List α} {i : α} (hk : levels[k]? = some level) (hi : i ∈ level) :
    IsGreatest {m | PathTo E m i} k := by
  constructor
  · show PathTo E k i
    induction k generalizing level i with
    | zero => exact .refl i
    | succ k ih =>
      obtain ⟨lower, j, hlower, hj, hji⟩ := h.below k level i hk hi
      exact .tail (ih hlower hj) hji
  · intro m hm
    induction hm generalizing k level with
    | refl i => exact Nat.zero_le _
    | tail _ hji ih =>
      obtain ⟨b, lower, hb, hlower, hj⟩ := h.lower k level _ _ hk hi hji
      exact lt_of_le_of_lt (ih hlower hj) hb

/-- A graph whose nodes are all levelled has no cycle. -/
theorem Stratified.acyclic {levels : List (List α)} (h : Stratified E levels)
    (hall : ∀ j i, E j i → i ∈ levels.flatten) : Acyclic E := by
  -- every node of a cycle has another node of it strictly below
  have hdesc : ∀ {j i : α} {k : ℕ} {level : List α}, TransGen E j i →
      levels[k]? = some level → i ∈ level →
      ∃ (b : ℕ) (lower : List α), b < k ∧ levels[b]? = some lower ∧ j ∈ lower := by
    intro j i k level hji hk hi
    induction hji generalizing k level with
    | single hji => exact h.lower k level _ _ hk hi hji
    | tail _ hmi ih =>
      obtain ⟨b, lower, hb, hlower, hm⟩ := h.lower k level _ _ hk hi hmi
      obtain ⟨b', lower', hb', hlower', hj⟩ := ih hlower hm
      exact ⟨b', lower', hb'.trans hb, hlower', hj⟩
  intro i hi
  have hno : ∀ (k : ℕ) (level : List α), levels[k]? = some level → i ∉ level := by
    intro k
    induction k using Nat.strongRecOn with
    | _ k ih =>
      intro level hk hmem
      obtain ⟨b, lower, hb, hlower, hj⟩ := hdesc hi hk hmem
      exact ih b hb lower hlower hj
  obtain ⟨m, -, hmi⟩ := TransGen.tail'_iff.mp hi
  obtain ⟨level, hlevel, hmem⟩ := List.mem_flatten.mp (hall m i hmi)
  obtain ⟨k, hk⟩ := List.mem_iff_getElem?.mp hlevel
  exact hno k level hk hmem

/-- One more level: its predecessors are all done, one of them on the last level. -/
theorem Stratified.concat {levels : List (List α)} {level : List α} (h : Stratified E levels)
    (hdone : ∀ i ∈ level, ∀ j, E j i → j ∈ levels.flatten)
    (hlast : ∀ i ∈ level, ∀ last, levels.getLast? = some last → ∃ j ∈ last, E j i) :
    Stratified E (levels ++ [level]) := by
  refine ⟨?_, ?_⟩
  · intro k l i j hk hi hji
    rcases Nat.lt_or_ge k levels.length with hlt | hge
    · rw [List.getElem?_append_left hlt] at hk
      obtain ⟨b, lower, hb, hlower, hj⟩ := h.lower k l i j hk hi hji
      exact ⟨b, lower, hb, by rw [List.getElem?_append_left (by omega)]; exact hlower, hj⟩
    · rw [List.getElem?_append_right hge, List.getElem?_singleton] at hk
      split at hk
      · next hz =>
        rw [Option.some.injEq] at hk
        subst hk
        obtain ⟨lower, hlower, hj⟩ := List.mem_flatten.mp (hdone i hi j hji)
        obtain ⟨b, hb, hlb⟩ := List.mem_iff_getElem.mp hlower
        exact ⟨b, lower, by omega, by
          rw [List.getElem?_append_left hb, List.getElem?_eq_getElem hb, hlb], hj⟩
      · cases hk
  · intro k l i hk hi
    rcases Nat.lt_or_ge (k + 1) levels.length with hlt | hge
    · rw [List.getElem?_append_left hlt] at hk
      obtain ⟨lower, j, hlower, hj, hji⟩ := h.below k l i hk hi
      exact ⟨lower, j, by rw [List.getElem?_append_left (by omega)]; exact hlower, hj, hji⟩
    · rw [List.getElem?_append_right hge, List.getElem?_singleton] at hk
      split at hk
      · next hz =>
        rw [Option.some.injEq] at hk
        subst hk
        have hlen : k < levels.length := by omega
        have hgl : levels.getLast? = some levels[k] := by
          rw [List.getLast?_eq_getElem?, show levels.length - 1 = k by omega,
            List.getElem?_eq_getElem hlen]
        obtain ⟨j, hj, hji⟩ := hlast i hi _ hgl
        exact ⟨_, j, by rw [List.getElem?_append_left hlen, List.getElem?_eq_getElem hlen], hj, hji⟩
      · cases hk

theorem Stratified.nil : Stratified E ([] : List (List α)) :=
  ⟨by simp, by simp⟩

end Paths

/-! ## Edge lists -/

section Edges

variable {α : Type} [DecidableEq α]

/-- Edges into `i` whose source is not done. -/
def pending (edges : List (α × α)) (done : List α) (i : α) : ℕ :=
  edges.countP fun e => e.2 = i ∧ e.1 ∉ done

/-- The targets of the edges out of `j`, one entry per edge. -/
def targets (edges : List (α × α)) (j : α) : List α :=
  (edges.filter (·.1 = j)).map (·.2)

theorem mem_targets {edges : List (α × α)} {i j : α} : i ∈ targets edges j ↔ (j, i) ∈ edges := by
  simp only [targets, List.mem_map, List.mem_filter, decide_eq_true_eq, Prod.exists]
  constructor
  · rintro ⟨a, b, ⟨hmem, rfl⟩, rfl⟩
    exact hmem
  · intro hmem
    exact ⟨j, i, ⟨hmem, rfl⟩, rfl⟩

theorem targets_append (edges edges' : List (α × α)) (j : α) :
    targets (edges ++ edges') j = targets edges j ++ targets edges' j := by
  simp [targets]

theorem pending_append (edges edges' : List (α × α)) (done : List α) (i : α) :
    pending (edges ++ edges') done i = pending edges done i + pending edges' done i :=
  List.countP_append

/-- A node is not waiting exactly when its predecessors are done. -/
theorem pending_eq_zero_iff {edges : List (α × α)} {done : List α} {i : α} :
    pending edges done i = 0 ↔ ∀ j, (j, i) ∈ edges → j ∈ done := by
  simp only [pending, List.countP_eq_zero, decide_eq_true_eq, not_and, not_not, Prod.forall]
  constructor
  · intro h j hj
    exact h j i hj rfl
  · rintro h j k hj rfl
    exact h j hj

/-- Doing a node takes its edges off the counts of their targets. -/
theorem pending_concat (edges : List (α × α)) {done : List α} {j : α} (hj : j ∉ done) (i : α) :
    pending edges (done ++ [j]) i + (targets edges j).count i = pending edges done i := by
  induction edges with
  | nil => rfl
  | cons e edges ih =>
    obtain ⟨a, b⟩ := e
    simp only [pending, targets, List.countP_cons, List.filter_cons, List.mem_append,
      List.mem_singleton] at ih ⊢
    by_cases ha : a = j
    · subst ha
      by_cases hb : b = i
      · subst hb
        simp [hj] at ih ⊢
        omega
      · simp [hj, hb] at ih ⊢
        omega
    · by_cases hb : b = i <;> by_cases hd : a ∈ done <;> simp [ha, hb, hd] at ih ⊢ <;> omega

theorem pending_anti {edges : List (α × α)} {done done' : List α} (h : ∀ i ∈ done, i ∈ done')
    {i : α} (hi : pending edges done i = 0) : pending edges done' i = 0 :=
  pending_eq_zero_iff.mpr fun j hj => h j (pending_eq_zero_iff.mp hi j hj)

/-- While an acyclic graph has nodes that are not done, one of them is ready. -/
theorem exists_ready {edges : List (α × α)} (nodes done : List α)
    (hacyclic : Acyclic fun j i => (j, i) ∈ edges) (hnodes : ∀ j i, (j, i) ∈ edges → j ∈ nodes)
    (hne : ∃ i ∈ nodes, i ∉ done) : ∃ i ∈ nodes, i ∉ done ∧ pending edges done i = 0 := by
  have hfin : {i | i ∈ nodes ∧ i ∉ done}.Finite :=
    (List.finite_toSet nodes).subset fun i hi => hi.1
  obtain ⟨i, ⟨hi, hd⟩, hmin⟩ := hacyclic.exists_source hfin hne
  refine ⟨i, hi, hd, pending_eq_zero_iff.mpr fun j hj => ?_⟩
  by_contra hnd
  exact hmin j ⟨hnodes j i hj, hnd⟩ hj

end Edges

end Svod.Lib.Kahn
