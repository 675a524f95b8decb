/-
  Svod.Lib.LoopNest

  Loop nests over counters.

  A loop has an id, and its trip count may read other counters.  The iterations of
  a nest are the counters in its innermost body, in order; they differ from the
  counters outside at the ids of the nest only.
-/

import Mathlib.Data.Multiset.Bind

namespace Svod.Lib

/-- A loop, with the ids of the counters that its end reads. -/
structure Loop where
  id : ℕ
  reads : List ℕ
deriving DecidableEq, Repr

/-- The current value of every counter. -/
abbrev Counters := ℕ → ℕ

variable {trips : ℕ → List ℕ → ℕ} {k k' : Counters} {ids : List ℕ}

/-- The counters in the iterations of a nest. -/
def iterations (trips : ℕ → List ℕ → ℕ) : List Loop → Counters → List Counters
  | [], k => [k]
  | r :: rs, k =>
    (List.range (trips r.id (r.reads.map k))).flatMap fun i =>
      iterations trips rs (Function.update k r.id i)

/-- The counters agree apart from the ids. -/
def AgreeOff (ids : List ℕ) (k k' : Counters) : Prop := ∀ r, r ∉ ids → k r = k' r

theorem AgreeOff.update (h : AgreeOff ids k k') (r i : ℕ) :
    AgreeOff ids (Function.update k r i) (Function.update k' r i) := by
  intro r' hr'
  by_cases heq : r' = r
  · subst heq
    simp
  · simp [heq, h r' hr']

theorem AgreeOff.reads {reads : List ℕ} (h : AgreeOff ids k k')
    (hr : (reads.any (· ∈ ids)) = false) : reads.map k = reads.map k' := by
  refine List.map_congr_left fun r hmem => h r fun hin => ?_
  have hany : (reads.any (· ∈ ids)) = true := List.any_eq_true.mpr ⟨r, hmem, by simpa using hin⟩
  rw [hr] at hany
  cases hany

/-- A nest that reads none of the ids runs the same way. -/
theorem iterations_agree {rs : List Loop}
    (hrs : (rs.any fun r => r.id ∈ ids || r.reads.any (· ∈ ids)) = false)
    (h : AgreeOff ids k k') :
    List.Forall₂ (AgreeOff ids) (iterations trips rs k) (iterations trips rs k') := by
  induction rs generalizing k k' with
  | nil => exact List.Forall₂.cons h List.Forall₂.nil
  | cons r rs ih =>
    simp only [List.any_cons, Bool.or_eq_false_iff] at hrs
    obtain ⟨⟨-, hreads⟩, hrest⟩ := hrs
    simp only [iterations]
    rw [h.reads hreads]
    refine List.rel_flatMap (R := Eq) ?_ ?_
    · exact List.forall₂_same.mpr fun _ _ => rfl
    · rintro i _ rfl
      exact ih hrest (h.update r.id i)

/-- Only the trip counts of the nest matter. -/
theorem iterations_congr {trips' : ℕ → List ℕ → ℕ} {rs : List Loop}
    (h : ∀ r ∈ rs, ∀ reads, trips r.id reads = trips' r.id reads) (k : Counters) :
    iterations trips rs k = iterations trips' rs k := by
  induction rs generalizing k with
  | nil => rfl
  | cons r rs ih =>
    simp only [iterations, h r (List.mem_cons_self ..),
      ih fun r' hr' => h r' (List.mem_cons_of_mem _ hr')]

theorem iterations_ne_nil (htrips : ∀ r reads, 0 < trips r reads) (rs : List Loop)
    (k : Counters) : iterations trips rs k ≠ [] := by
  induction rs generalizing k with
  | nil => exact List.cons_ne_nil _ _
  | cons r rs ih =>
    simp only [iterations, ne_eq, List.flatMap_eq_nil_iff, List.mem_range, not_forall]
    exact ⟨0, htrips _ _, ih _⟩

/-- An iteration moves the counters of its nest only. -/
theorem agreeOff_of_mem_iterations {rs : List Loop} (h : k' ∈ iterations trips rs k) :
    AgreeOff (rs.map (·.id)) k' k := by
  induction rs generalizing k with
  | nil =>
    obtain rfl := List.mem_singleton.mp h
    exact fun _ _ => rfl
  | cons r rs ih =>
    simp only [iterations, List.mem_flatMap] at h
    obtain ⟨i, -, hk⟩ := h
    intro r' hr'
    simp only [List.map_cons, List.mem_cons, not_or] at hr'
    rw [ih hk r' hr'.2, Function.update_of_ne hr'.1]

/-! ## Loops that a body does not read -/

/-- A nest of loops with fixed ends gives a body that reads none of the ids the same results. -/
theorem flatMap_iterations_agree {α : Type*} {f : Counters → List α} {rs : List Loop}
    (hf : ∀ k k', AgreeOff ids k k' → f k = f k') (hrs : ∀ r ∈ rs, r.reads = [])
    (h : AgreeOff ids k k') :
    (iterations trips rs k).flatMap f = (iterations trips rs k').flatMap f := by
  induction rs generalizing k k' with
  | nil =>
    simp only [iterations, List.flatMap_singleton]
    exact hf k k' h
  | cons r rs ih =>
    have hfixed := hrs r (List.mem_cons_self ..)
    simp only [iterations, hfixed, List.map_nil, List.flatMap_assoc]
    exact congrArg List.flatten (List.map_congr_left fun i _ =>
      ih (fun r' hr' => hrs r' (List.mem_cons_of_mem _ hr')) (h.update r.id i))

/-- Loops with fixed ends that the body does not read repeat what the others give. -/
theorem flatMap_iterations_filter {α : Type*} {f : Counters → List α} (rs : List Loop)
    (p : Loop → Bool) (hf : ∀ k k', AgreeOff ids k k' → f k = f k')
    (hp : ∀ r ∈ rs, p r = false → r.id ∈ ids) (hrs : ∀ r ∈ rs, r.reads = []) (k : Counters) :
    (((iterations trips rs k).flatMap f : List α) : Multiset α) =
      ((rs.filter (!p ·)).map fun r => trips r.id []).prod •
        (((iterations trips (rs.filter p) k).flatMap f : List α) : Multiset α) := by
  induction rs generalizing k with
  | nil =>
    rw [List.filter_nil, List.map_nil, List.prod_nil, one_nsmul]
    rfl
  | cons r rs ih =>
    have hfixed := hrs r (List.mem_cons_self ..)
    have ih' := ih (fun r' hr' => hp r' (List.mem_cons_of_mem _ hr'))
      fun r' hr' => hrs r' (List.mem_cons_of_mem _ hr')
    simp only [iterations, hfixed, List.map_nil, List.flatMap_assoc]
    rw [← Multiset.coe_bind, Multiset.bind_congr fun i _ => ih' (Function.update k r.id i)]
    cases hpr : p r with
    | true =>
      rw [List.filter_cons_of_neg (by simp [hpr]), List.filter_cons_of_pos hpr]
      simp only [iterations, hfixed, List.map_nil, List.flatMap_assoc]
      rw [← Multiset.coe_bind, Multiset.bind, Multiset.join, Multiset.bind, Multiset.join]
      exact Multiset.sum_map_nsmul
    | false =>
      rw [List.filter_cons_of_pos (by simp [hpr]), List.filter_cons_of_neg (by simp [hpr]),
        List.map_cons, List.prod_cons, mul_nsmul']
      -- each pass of the loop gives what the loops below give outside of it
      have hsame : ∀ i ∈ ((List.range (trips r.id []) : List ℕ) : Multiset ℕ),
          ((rs.filter (!p ·)).map fun r => trips r.id []).prod •
              (((iterations trips (rs.filter p) (Function.update k r.id i)).flatMap f : List α) :
                Multiset α) =
            ((rs.filter (!p ·)).map fun r => trips r.id []).prod •
              (((iterations trips (rs.filter p) k).flatMap f : List α) : Multiset α) := by
        intro i _
        have hoff : AgreeOff ids (Function.update k r.id i) k := fun r' hr' => by
          have hne : r' ≠ r.id := fun h => hr' (h ▸ hp r (List.mem_cons_self ..) hpr)
          simp [hne]
        rw [flatMap_iterations_agree hf (fun r' hr' => hrs r'
          (List.mem_cons_of_mem _ (List.mem_filter.mp hr').1)) hoff]
      rw [Multiset.bind_congr hsame, Multiset.bind, Multiset.map_const', Multiset.join,
        Multiset.sum_replicate, Multiset.coe_card, List.length_range]

end Svod.Lib
