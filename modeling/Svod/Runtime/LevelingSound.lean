/-
  Svod.Runtime.LevelingSound

  The loops of topological leveling, and what the two entry points compute.

  `Frontier` ties the loop state to the edges: the counts are the pending edges
  of the positions done so far, and the ready list holds the positions that have
  none.  A loop ends with an empty ready list; by then every position is done,
  unless the positions left contain a cycle.
-/

import Svod.Runtime.LevelingSpec

namespace Svod.Runtime

open Svod.Lib.Checked Svod.Lib.Kahn

variable {done ready : List Nat} {deg : Nat → Nat} {n : Nat}

/-! ## One step of the frontier -/

theorem mem_pushReady {i x : Nat} :
    i ∈ pushReady ready x ↔ i = x ∨ i ∈ ready := List.mem_orderedInsert _

theorem pushReady_nodup {x : Nat} (h : ready.Nodup) (hx : x ∉ ready) : (pushReady ready x).Nodup :=
  (List.perm_orderedInsert _ x ready).nodup_iff.mpr (List.nodup_cons.mpr ⟨hx, h⟩)

/-- The inner loop takes each successor off its count and collects those that reach zero. -/
theorem foldlM_relax_spec {ss : List Nat} (hcount : ∀ i, ss.count i ≤ deg i)
    (hzero : ∀ i ∈ ready, deg i = 0) (hnd : ready.Nodup) :
    ∃ deg' ready', ss.foldlM relax (deg, ready) = some (deg', ready') ∧
      (∀ i, deg' i + ss.count i = deg i) ∧ ready'.Nodup ∧
      ∀ i, i ∈ ready' ↔ i ∈ ready ∨ (i ∈ ss ∧ deg' i = 0) := by
  induction ss generalizing deg ready with
  | nil => exact ⟨deg, ready, rfl, by simp, hnd, by simp⟩
  | cons s ss ih =>
    have hs := hcount s
    rw [List.count_cons_self] at hs
    have hsr : s ∉ ready := fun hmem => by
      have := hzero s hmem
      omega
    set deg₁ := Function.update deg s (deg s - 1) with hdeg₁
    set ready₁ := if deg s - 1 = 0 then pushReady ready s else ready with hready₁
    have hself : deg₁ s = deg s - 1 := Function.update_self ..
    have hother : ∀ {i}, i ≠ s → deg₁ i = deg i := fun hi => Function.update_of_ne hi ..
    have hmem₁ : ∀ i, i ∈ ready₁ ↔ i ∈ ready ∨ (i = s ∧ deg₁ s = 0) := by
      intro i
      rw [hready₁, hself]
      split
      · next hz => rw [mem_pushReady]; tauto
      · next hz => tauto
    have hstep : relax (deg, ready) s = some (deg₁, ready₁) := by
      simp only [relax, checkedSub_of_le (show 1 ≤ deg s by omega), Option.bind_eq_bind,
        Option.bind_some]
      rfl
    have hcount₁ : ∀ i, ss.count i ≤ deg₁ i := by
      intro i
      have := hcount i
      by_cases hi : i = s
      · subst hi
        rw [List.count_cons_self] at this
        rw [hself]
        omega
      · rw [List.count_cons_of_ne (Ne.symm hi)] at this
        rwa [hother hi]
    have hzero₁ : ∀ i ∈ ready₁, deg₁ i = 0 := by
      intro i hi
      rcases (hmem₁ i).mp hi with hi | ⟨rfl, hz⟩
      · rw [hother fun h => hsr (h ▸ hi)]
        exact hzero i hi
      · exact hz
    have hnd₁ : ready₁.Nodup := by
      rw [hready₁]
      split
      · exact pushReady_nodup hnd hsr
      · exact hnd
    obtain ⟨deg', ready', hrun, hdeg', hnd', hmem'⟩ := ih hcount₁ hzero₁ hnd₁
    refine ⟨deg', ready', by rw [List.foldlM_cons, hstep]; exact hrun, ?_, hnd', ?_⟩
    · intro i
      have := hdeg' i
      by_cases hi : i = s
      · subst hi
        rw [List.count_cons_self]
        rw [hself] at this
        omega
      · rw [List.count_cons_of_ne (Ne.symm hi)]
        rwa [hother hi] at this
    · intro i
      rw [hmem', hmem₁, List.mem_cons]
      have hi := hdeg' i
      constructor
      · rintro ((h | ⟨rfl, hz⟩) | ⟨h, hz⟩)
        · exact .inl h
        · exact .inr ⟨.inl rfl, by omega⟩
        · exact .inr ⟨.inr h, hz⟩
      · rintro (h | ⟨rfl | h, hz⟩)
        · exact .inl (.inl h)
        · by_cases hss : i ∈ ss
          · exact .inr ⟨hss, hz⟩
          · rw [List.count_eq_zero_of_not_mem hss] at hi
            exact .inl (.inr ⟨rfl, by omega⟩)
        · exact .inr ⟨h, hz⟩

section Loops

variable {g : DependencyGraph} {ids : List Nat} {edges : List (Nat × Nat)}

/-- Doing position `j` moves the counts on and collects the positions that only waited for it. -/
theorem relaxSuccessors_spec (hrep : Represents g ids edges) {j : Nat}
    (hdeg : ∀ i, deg i = pending edges done i) (hj : j ∉ done)
    (hzero : ∀ i ∈ ready, pending edges done i = 0) (hnd : ready.Nodup) :
    ∃ deg' ready', relaxSuccessors g (deg, ready) j = some (deg', ready') ∧
      (∀ i, deg' i = pending edges (done ++ [j]) i) ∧ ready'.Nodup ∧
      ∀ i, i ∈ ready' ↔
        i ∈ ready ∨ ((j, i) ∈ edges ∧ pending edges (done ++ [j]) i = 0) := by
  have hcount : ∀ i, (targets edges j).count i ≤ deg i := by
    intro i
    rw [hdeg, ← pending_concat edges hj]
    omega
  obtain ⟨deg', ready', hrun, hdeg', hnd', hmem'⟩ :=
    foldlM_relax_spec hcount (fun i hi => by rw [hdeg, hzero i hi]) hnd
  have hpend : ∀ i, deg' i = pending edges (done ++ [j]) i := by
    intro i
    have h := hdeg' i
    rw [hdeg, ← pending_concat edges hj] at h
    omega
  refine ⟨deg', ready', ?_, hpend, hnd', ?_⟩
  · rw [relaxSuccessors, hrep.successors]
    exact hrun
  · intro i
    rw [hmem', mem_targets, hpend]

/-- The state of a loop that has done the positions `done`. -/
structure Frontier (edges : List (Nat × Nat)) (n : Nat) (done ready : List Nat)
    (deg : Nat → Nat) : Prop where
  degree : ∀ i, deg i = pending edges done i
  ready_nodup : ready.Nodup
  ready_iff : ∀ i, i ∈ ready ↔ i < n ∧ i ∉ done ∧ pending edges done i = 0
  done_nodup : done.Nodup
  done_lt : ∀ i ∈ done, i < n
  closed : ∀ i ∈ done, pending edges done i = 0

theorem initialReady_perm (n : Nat) (deg : Nat → Nat) :
    (initialReady n deg).Perm ((List.range n).filter fun i => deg i = 0) := by
  have hgen : ∀ (l ready : List Nat),
      (l.foldl (fun ready idx => if deg idx = 0 then pushReady ready idx else ready) ready).Perm
        (l.filter (fun i => deg i = 0) ++ ready) := by
    intro l
    induction l with
    | nil =>
      intro ready
      exact .refl _
    | cons x l ih =>
      intro ready
      rw [List.foldl_cons]
      by_cases hx : deg x = 0
      · rw [if_pos hx, List.filter_cons_of_pos (by simp [hx])]
        refine (ih _).trans ?_
        exact ((List.perm_orderedInsert _ x ready).append_left _).trans List.perm_middle
      · rw [if_neg hx, List.filter_cons_of_neg (by simp [hx])]
        exact ih ready
  simpa [initialReady] using hgen (List.range n) []

theorem frontier_init (hrep : Represents g ids edges) (n : Nat) :
    Frontier edges n [] (initialReady n g.inDegree) g.inDegree := by
  have hperm := initialReady_perm n g.inDegree
  refine ⟨hrep.inDegree, hperm.nodup_iff.mpr (List.nodup_range.filter _), ?_, by simp, by simp,
    by simp⟩
  intro i
  rw [hperm.mem_iff, List.mem_filter, List.mem_range, decide_eq_true_eq, hrep.inDegree]
  simp

/-- Fewer than all positions are done while one is ready. -/
theorem Frontier.length_lt {i : Nat} (h : Frontier edges n done ready deg) (hi : i ∈ ready) :
    done.length < n := by
  obtain ⟨hlt, hnot, -⟩ := (h.ready_iff i).mp hi
  have hsub : (i :: done).Subperm (List.range n) := by
    refine (List.nodup_cons.mpr ⟨hnot, h.done_nodup⟩).subperm ?_
    intro x hx
    rw [List.mem_range]
    rcases List.mem_cons.mp hx with rfl | hx
    · exact hlt
    · exact h.done_lt x hx
  have := hsub.length_le
  rw [List.length_cons, List.length_range] at this
  omega

/-! ## Linear order -/

/-- Every position stands after the positions it depends on. -/
def Respects (edges : List (Nat × Nat)) (order : List Nat) : Prop :=
  ∀ A i B, order = A ++ i :: B → ∀ j, (j, i) ∈ edges → j ∈ A

theorem Respects.concat {order : List Nat} {x : Nat} (h : Respects edges order)
    (hx : ∀ j, (j, x) ∈ edges → j ∈ order) : Respects edges (order ++ [x]) := by
  intro A i B heq j hj
  cases B using List.reverseRecOn with
  | nil =>
    obtain ⟨rfl, hlast⟩ := List.append_inj' heq rfl
    obtain rfl := List.singleton_inj.mp hlast
    exact hx j hj
  | append_singleton B y =>
    rw [← List.cons_append, ← List.append_assoc] at heq
    obtain ⟨rfl, -⟩ := List.append_inj' heq rfl
    exact h A i B rfl j hj

/-- One position of the order loop. -/
theorem Frontier.pop (hrep : Represents g ids edges)
    (hrange : ∀ j i, (j, i) ∈ edges → j < n ∧ i < n) {idx : Nat}
    (h : Frontier edges n done (idx :: ready) deg) :
    ∃ deg' ready', relaxSuccessors g (deg, ready) idx = some (deg', ready') ∧
      Frontier edges n (done ++ [idx]) ready' deg' := by
  obtain ⟨hlt, hidx, hpend⟩ := (h.ready_iff idx).mp List.mem_cons_self
  obtain ⟨hnotr, hnd⟩ := List.nodup_cons.mp h.ready_nodup
  obtain ⟨deg', ready', hrun, hdeg', hnd', hmem'⟩ := relaxSuccessors_spec hrep h.degree hidx
    (fun i hi => ((h.ready_iff i).mp (List.mem_cons_of_mem _ hi)).2.2) hnd
  have hmono : ∀ {i}, pending edges done i = 0 → pending edges (done ++ [idx]) i = 0 :=
    fun hi => pending_anti (fun x hx => List.mem_append_left _ hx) hi
  refine ⟨deg', ready', hrun, hdeg', hnd', ?_, ?_, ?_, ?_⟩
  · intro i
    rw [hmem']
    constructor
    · rintro (hi | ⟨hedge, hz⟩)
      · obtain ⟨hi₁, hi₂, hi₃⟩ := (h.ready_iff i).mp (List.mem_cons_of_mem _ hi)
        refine ⟨hi₁, ?_, hmono hi₃⟩
        have : i ≠ idx := fun he => hnotr (he ▸ hi)
        simp [hi₂, this]
      · -- a successor of `idx` is neither done nor `idx` itself, since `idx` was not done
        refine ⟨(hrange _ _ hedge).2, ?_, hz⟩
        rw [List.mem_append, List.mem_singleton]
        rintro (hd | rfl)
        · exact hidx (pending_eq_zero_iff.mp (h.closed i hd) idx hedge)
        · exact hidx (pending_eq_zero_iff.mp hpend i hedge)
    · rintro ⟨hi₁, hi₂, hz⟩
      rw [List.mem_append, List.mem_singleton, not_or] at hi₂
      by_cases hp : pending edges done i = 0
      · rcases List.mem_cons.mp ((h.ready_iff i).mpr ⟨hi₁, hi₂.1, hp⟩) with he | hi
        · exact absurd he hi₂.2
        · exact .inl hi
      · have hcount := pending_concat edges hidx i
        refine .inr ⟨mem_targets.mp (List.count_pos_iff.mp (by omega)), hz⟩
  · rw [List.nodup_append]
    refine ⟨h.done_nodup, by simp, ?_⟩
    intro a ha b hb
    rw [List.mem_singleton.mp hb]
    exact fun he => hidx (he ▸ ha)
  · intro i hi
    rcases List.mem_append.mp hi with hi | hi
    · exact h.done_lt i hi
    · rw [List.mem_singleton.mp hi]
      exact hlt
  · intro i hi
    rcases List.mem_append.mp hi with hi | hi
    · exact hmono (h.closed i hi)
    · rw [List.mem_singleton.mp hi]
      exact hmono hpend

/-- The order loop runs until nothing is ready. -/
theorem orderLoop_spec (hrep : Represents g ids edges)
    (hrange : ∀ j i, (j, i) ∈ edges → j < n ∧ i < n) (fuel : Nat) (done : List Nat)
    (h : Frontier edges n done ready deg) (hresp : Respects edges done)
    (hfuel : n ≤ fuel + done.length) :
    ∃ deg' order, orderLoop g fuel deg ready done = some (deg', order) ∧
      Frontier edges n order [] deg' ∧ Respects edges order := by
  induction fuel generalizing done ready deg with
  | zero =>
    cases ready with
    | nil => exact ⟨deg, done, by simp [orderLoop], h, hresp⟩
    | cons idx ready =>
      have := h.length_lt List.mem_cons_self
      omega
  | succ fuel ih =>
    cases ready with
    | nil => exact ⟨deg, done, by simp [orderLoop], h, hresp⟩
    | cons idx ready =>
      obtain ⟨deg', ready', hrun, h'⟩ := h.pop hrep hrange
      have hpend := ((h.ready_iff idx).mp List.mem_cons_self).2.2
      obtain ⟨deg'', order, hloop, hend, hresp'⟩ :=
        ih _ h' (hresp.concat (pending_eq_zero_iff.mp hpend)) (by simp; omega)
      refine ⟨deg'', order, ?_, hend, hresp'⟩
      simp only [orderLoop, hrun, Option.bind_eq_bind, Option.bind_some]
      exact hloop

/-! ## Levels -/

/-- One wave: all ready positions are done, and every position that becomes ready by it
    depends on one of them. -/
theorem Frontier.wave (hrep : Represents g ids edges)
    (hrange : ∀ j i, (j, i) ∈ edges → j < n ∧ i < n) {done level : List Nat}
    (h : Frontier edges n done level deg) :
    ∃ deg' next, level.foldlM (relaxSuccessors g) (deg, []) = some (deg', next) ∧
      Frontier edges n (done ++ level) next deg' ∧
      ∀ i ∈ next, ∃ j ∈ level, (j, i) ∈ edges := by
  -- after the part `A` of the level, `next` holds what waits for nothing beyond `done ++ A`
  have hgen : ∀ (rest A : List Nat) (deg : Nat → Nat) (next : List Nat), A ++ rest = level →
      (∀ i, deg i = pending edges (done ++ A) i) → next.Nodup →
      (∀ i, i ∈ next ↔ i < n ∧ (i ∉ done ∧ i ∉ level) ∧ pending edges (done ++ A) i = 0) →
      (∀ i ∈ next, ∃ j ∈ level, (j, i) ∈ edges) →
      ∃ deg' next', rest.foldlM (relaxSuccessors g) (deg, next) = some (deg', next') ∧
        (∀ i, deg' i = pending edges (done ++ level) i) ∧ next'.Nodup ∧
        (∀ i, i ∈ next' ↔ i < n ∧ (i ∉ done ∧ i ∉ level) ∧ pending edges (done ++ level) i = 0) ∧
        ∀ i ∈ next', ∃ j ∈ level, (j, i) ∈ edges := by
    intro rest
    induction rest with
    | nil =>
      intro A deg next hA hdeg hnd hmem hpred
      rw [List.append_nil] at hA
      subst hA
      exact ⟨deg, next, rfl, hdeg, hnd, hmem, hpred⟩
    | cons j rest ih =>
      intro A deg next hA hdeg hnd hmem hpred
      have hjl : j ∈ level := by simp [← hA]
      obtain ⟨-, hjd, -⟩ := (h.ready_iff j).mp hjl
      have hjA : j ∉ A := by
        have := h.ready_nodup
        rw [← hA] at this
        exact fun hj => (List.nodup_append.mp this).2.2 j hj j List.mem_cons_self rfl
      have hjdA : j ∉ done ++ A := by simp [hjd, hjA]
      obtain ⟨deg', next', hrun, hdeg', hnd', hmem'⟩ := relaxSuccessors_spec hrep hdeg hjdA
        (fun i hi => ((hmem i).mp hi).2.2) hnd
      rw [List.append_assoc] at hdeg' hmem'
      have hiff : ∀ i, i ∈ next' ↔
          i < n ∧ (i ∉ done ∧ i ∉ level) ∧ pending edges (done ++ (A ++ [j])) i = 0 := by
        intro i
        rw [hmem', hmem]
        constructor
        · rintro (⟨hi₁, hi₂, hz⟩ | ⟨hedge, hz⟩)
          · exact ⟨hi₁, hi₂, pending_anti (by intro x hx; simp at hx ⊢; tauto) hz⟩
          · refine ⟨(hrange _ _ hedge).2, ⟨fun hd => ?_, fun hl => ?_⟩, hz⟩
            · exact hjd (pending_eq_zero_iff.mp (h.closed i hd) j hedge)
            · exact hjd (pending_eq_zero_iff.mp ((h.ready_iff i).mp hl).2.2 j hedge)
        · rintro ⟨hi₁, hi₂, hz⟩
          by_cases hp : pending edges (done ++ A) i = 0
          · exact .inl ⟨hi₁, hi₂, hp⟩
          · have hcount := pending_concat edges hjdA i
            rw [List.append_assoc] at hcount
            exact .inr ⟨mem_targets.mp (List.count_pos_iff.mp (by omega)), hz⟩
      have hpred' : ∀ i ∈ next', ∃ j ∈ level, (j, i) ∈ edges := by
        intro i hi
        rcases (hmem' i).mp hi with hi | ⟨hedge, -⟩
        · exact hpred i hi
        · exact ⟨j, hjl, hedge⟩
      rw [List.foldlM_cons, hrun]
      exact ih (A ++ [j]) deg' next' (by simp [← hA]) hdeg' hnd' hiff hpred'
  have hempty : ∀ i, i ∈ ([] : List Nat) ↔
      i < n ∧ (i ∉ done ∧ i ∉ level) ∧ pending edges (done ++ []) i = 0 := by
    intro i
    rw [List.append_nil]
    constructor
    · intro hi
      cases hi
    · rintro ⟨hi₁, ⟨hi₂, hi₃⟩, hz⟩
      exact absurd ((h.ready_iff i).mpr ⟨hi₁, hi₂, hz⟩) hi₃
  obtain ⟨deg', next, hrun, hdeg', hnd', hmem', hpred⟩ :=
    hgen level [] deg [] rfl (by simpa using h.degree) List.nodup_nil hempty (by simp)
  have hmono : ∀ {i}, pending edges done i = 0 → pending edges (done ++ level) i = 0 :=
    fun hi => pending_anti (fun x hx => List.mem_append_left _ hx) hi
  refine ⟨deg', next, hrun, ⟨hdeg', hnd', ?_, ?_, ?_, ?_⟩, hpred⟩
  · intro i
    rw [hmem', List.mem_append, not_or]
  · rw [List.nodup_append]
    refine ⟨h.done_nodup, h.ready_nodup, ?_⟩
    rintro a ha b hb rfl
    exact ((h.ready_iff a).mp hb).2.1 ha
  · intro i hi
    rcases List.mem_append.mp hi with hi | hi
    · exact h.done_lt i hi
    · exact ((h.ready_iff i).mp hi).1
  · intro i hi
    rcases List.mem_append.mp hi with hi | hi
    · exact hmono (h.closed i hi)
    · exact hmono ((h.ready_iff i).mp hi).2.2

/-- The wave loop runs until nothing is ready, and its waves stratify the graph. -/
theorem levelsLoop_spec (hrep : Represents g ids edges)
    (hrange : ∀ j i, (j, i) ∈ edges → j < n ∧ i < n) (fuel : Nat) (levels : List (List Nat))
    (h : Frontier edges n levels.flatten ready deg)
    (hstrat : Stratified (fun j i => (j, i) ∈ edges) levels)
    (hlast : ∀ i ∈ ready, ∀ last, levels.getLast? = some last → ∃ j ∈ last, (j, i) ∈ edges)
    (hfuel : n ≤ fuel + levels.flatten.length) :
    ∃ deg' levels', levelsLoop g fuel deg ready levels levels.flatten.length =
        some (deg', levels', levels'.flatten.length) ∧
      Frontier edges n levels'.flatten [] deg' ∧
      Stratified (fun j i => (j, i) ∈ edges) levels' := by
  induction fuel generalizing levels ready deg with
  | zero =>
    cases ready with
    | nil => exact ⟨deg, levels, by simp [levelsLoop], h, hstrat⟩
    | cons idx ready =>
      have := h.length_lt List.mem_cons_self
      omega
  | succ fuel ih =>
    cases ready with
    | nil => exact ⟨deg, levels, by simp [levelsLoop], h, hstrat⟩
    | cons idx ready =>
      obtain ⟨deg', next, hrun, h', hpred⟩ := h.wave hrep hrange
      have hflat : (levels ++ [idx :: ready]).flatten = levels.flatten ++ (idx :: ready) := by simp
      rw [← hflat] at h'
      have hstrat' : Stratified (fun j i => (j, i) ∈ edges) (levels ++ [idx :: ready]) :=
        hstrat.concat (fun i hi => pending_eq_zero_iff.mp ((h.ready_iff i).mp hi).2.2) hlast
      have hlast' : ∀ i ∈ next, ∀ last, (levels ++ [idx :: ready]).getLast? = some last →
          ∃ j ∈ last, (j, i) ∈ edges := by
        intro i hi last hl
        rw [List.getLast?_concat, Option.some.injEq] at hl
        subst hl
        exact hpred i hi
      obtain ⟨deg'', levels', hloop, hend, hstrat''⟩ :=
        ih _ h' hstrat' hlast' (by simp at hfuel ⊢; omega)
      refine ⟨deg'', levels', ?_, hend, hstrat''⟩
      simp only [levelsLoop, hrun, Option.bind_eq_bind, Option.bind_some]
      rw [hflat, List.length_append] at hloop
      exact hloop

/-- With nothing ready, an acyclic graph is done. -/
theorem Frontier.complete (hrange : ∀ j i, (j, i) ∈ edges → j < n ∧ i < n)
    (h : Frontier edges n done [] deg) (hacyclic : Acyclic fun j i => (j, i) ∈ edges) :
    done.Perm (List.range n) := by
  refine (List.perm_ext_iff_of_nodup h.done_nodup List.nodup_range).mpr fun i => ?_
  rw [List.mem_range]
  refine ⟨h.done_lt i, fun hi => ?_⟩
  by_contra hnot
  obtain ⟨r, hr, hrd, hz⟩ := exists_ready (List.range n) done hacyclic
    (fun j i hj => List.mem_range.mpr (hrange j i hj).1) ⟨i, List.mem_range.mpr hi, hnot⟩
  have := (h.ready_iff r).mpr ⟨List.mem_range.mp hr, hrd, hz⟩
  cases this

/-- A full count of positions done is a permutation of all positions. -/
theorem Frontier.perm_of_length {n : Nat} {done ready : List Nat} {deg : Nat → Nat}
    (h : Frontier edges n done ready deg) (hlen : done.length = n) : done.Perm (List.range n) := by
  have hsub : done.Subperm (List.range n) :=
    h.done_nodup.subperm fun i hi => List.mem_range.mpr (h.done_lt i hi)
  exact hsub.perm_of_length_le (by rw [List.length_range, hlen])

end Loops

/-! ## The entry points -/

/-- What successful levels mean for the positional graph. -/
structure LevelsSpec (nodeIds : List Nat) (callableDeps : List (List Nat))
    (indexDeps : Option (List (List Nat))) (levels : List (List Nat)) : Prop where
  /-- The levels partition all positions. -/
  partition : levels.flatten.Perm (List.range nodeIds.length)
  /-- A position is on level `k` when its longest dependency path has `k` edges. -/
  longest : ∀ k i : Nat, (∃ level, levels[k]? = some level ∧ i ∈ level) ↔ i < nodeIds.length ∧
    IsGreatest {m | PathTo (Edge nodeIds callableDeps indexDeps) m i} k
  /-- Every edge goes from a strictly lower to a higher level. -/
  increasing : ∀ j i, Edge nodeIds callableDeps indexDeps j i →
    ∃ (a b : Nat) (lower upper : List Nat), a < b ∧ levels[a]? = some lower ∧ j ∈ lower ∧
      levels[b]? = some upper ∧ i ∈ upper
  /-- The linear order succeeds on the same input and respects every edge. -/
  order : ∃ order, computeTopologicalOrder nodeIds callableDeps indexDeps = some (.ok order) ∧
    order.Perm (List.range nodeIds.length) ∧ ∀ A i B, order = A ++ i :: B →
      ∀ j, Edge nodeIds callableDeps indexDeps j i → j ∈ A

/-- Both ends of an edge are positions. -/
theorem edge_range {nodeIds : List Nat} {callableDeps : List (List Nat)}
    {indexDeps : Option (List (List Nat))} (hcalls : callableDeps.length = nodeIds.length)
    (htable : ∀ table, indexDeps = some table → table.length = nodeIds.length)
    (hres : Resolved nodeIds callableDeps indexDeps) {j i : Nat}
    (h : Edge nodeIds callableDeps indexDeps j i) : j < nodeIds.length ∧ i < nodeIds.length := by
  rcases h with ⟨deps, dep, hrow, hdep, hj⟩ | ⟨table, deps, htab, hrow, hj⟩
  · have hi := (List.getElem?_eq_some_iff.mp hrow).1
    have hjr : nodeIds[j]? = some dep := by
      unfold Resolves at hj
      split at hj
      · exact hj
      · exact hj.2.1
    exact ⟨(List.getElem?_eq_some_iff.mp hjr).1, hcalls ▸ hi⟩
  · have hi := (List.getElem?_eq_some_iff.mp hrow).1
    exact ⟨(hres.index table htab i deps j hrow hj).1, htable table htab ▸ hi⟩

/-- For tables of matching length: levels are returned exactly when every dependency resolves
    and the positional graph is acyclic, an error otherwise; and the levels are the depths. -/
theorem computeTopologicalLevels_spec (nodeIds : List Nat) (callableDeps : List (List Nat))
    (indexDeps : Option (List (List Nat))) (hcalls : callableDeps.length = nodeIds.length)
    (htable : ∀ table, indexDeps = some table → table.length = nodeIds.length) :
    ((∃ levels, computeTopologicalLevels nodeIds callableDeps indexDeps = some (.ok levels)) ↔
      Resolved nodeIds callableDeps indexDeps ∧
        Acyclic (Edge nodeIds callableDeps indexDeps)) ∧
    (∀ levels, computeTopologicalLevels nodeIds callableDeps indexDeps = some (.ok levels) →
      LevelsSpec nodeIds callableDeps indexDeps levels) ∧
    ((¬ ∃ levels, computeTopologicalLevels nodeIds callableDeps indexDeps = some (.ok levels)) →
      ∃ e, computeTopologicalLevels nodeIds callableDeps indexDeps = some (.error e)) := by
  set n := nodeIds.length with hn
  rcases buildTopologicalGraph_spec hcalls htable with ⟨g, edges, hok, hres, hrep, hmem⟩ |
    ⟨e, herr, hbad⟩
  · rw [not_not] at hres
    have hedge : (fun j i => (j, i) ∈ edges) = Edge nodeIds callableDeps indexDeps := by
      funext j i
      simpa using hmem j i
    have hrange : ∀ j i, (j, i) ∈ edges → j < n ∧ i < n := by
      intro j i hji
      exact edge_range hcalls htable hres (by rw [← hedge]; exact hji)
    have hids : g.nodeIds.length = n := by rw [hrep.nodeIds]
    obtain ⟨deg, levels, hloop, hfront, hstrat⟩ := levelsLoop_spec
      hrep hrange n [] (frontier_init hrep n) Stratified.nil (by simp) (by simp)
    simp only [List.flatten_nil, List.length_nil] at hloop
    have hrun : computeTopologicalLevels nodeIds callableDeps indexDeps =
        if levels.flatten.length ≠ n then some (.error (cycleError deg g.nodeIds))
        else some (.ok levels) := by
      simp only [computeTopologicalLevels, hok, hids, hloop, Option.bind_eq_bind,
        Option.bind_some]
    rw [hrun]
    by_cases hlen : levels.flatten.length = n
    · rw [if_neg (not_not.mpr hlen)]
      have hperm := hfront.perm_of_length hlen
      have hall : ∀ i, i < n → ∃ (k : Nat) (level : List Nat),
          levels[k]? = some level ∧ i ∈ level := by
        intro i hi
        obtain ⟨level, hlevel, hil⟩ :=
          List.mem_flatten.mp (hperm.mem_iff.mpr (List.mem_range.mpr hi))
        obtain ⟨k, hk⟩ := List.mem_iff_getElem?.mp hlevel
        exact ⟨k, level, hk, hil⟩
      have hacyclic : Acyclic fun j i => (j, i) ∈ edges := by
        refine hstrat.acyclic fun j i hji => ?_
        exact hperm.mem_iff.mpr (List.mem_range.mpr (hrange j i hji).2)
      refine ⟨⟨fun _ => ⟨hres, hedge ▸ hacyclic⟩, fun _ => ⟨levels, rfl⟩⟩, ?_,
        fun hno => absurd ⟨levels, rfl⟩ hno⟩
      intro levels' heq
      obtain rfl : levels = levels' := by simpa using heq
      refine ⟨hperm, ?_, ?_, ?_⟩
      · intro k i
        rw [← hedge]
        constructor
        · rintro ⟨level, hk, hi⟩
          refine ⟨?_, hstrat.isGreatest hk hi⟩
          exact hfront.done_lt i (List.mem_flatten.mpr ⟨level, List.mem_of_getElem? hk, hi⟩)
        · rintro ⟨hi, hgreatest⟩
          obtain ⟨k', level, hk', hil⟩ := hall i hi
          obtain rfl := hgreatest.unique (hstrat.isGreatest hk' hil)
          exact ⟨level, hk', hil⟩
      · intro j i hji
        rw [← hedge] at hji
        obtain ⟨b, upper, hb, hi⟩ := hall i (hrange j i hji).2
        obtain ⟨a, lower, hab, ha, hj⟩ := hstrat.lower b upper i j hb hi hji
        exact ⟨a, b, lower, upper, hab, ha, hj, hb, hi⟩
      · obtain ⟨deg', order, horder, hfront', hresp⟩ := orderLoop_spec
          hrep hrange n [] (frontier_init hrep n) (by intro A i B h; simp at h) (by simp)
        have hperm' := hfront'.complete hrange hacyclic
        refine ⟨order, ?_, hperm', ?_⟩
        · have hlen' : order.length = n := by rw [hperm'.length_eq, List.length_range]
          simp only [computeTopologicalOrder, hok, hids, horder, Option.bind_eq_bind,
            Option.bind_some, hlen', ne_eq, not_true_eq_false, if_false]
        · rw [← hedge]
          exact hresp
    · rw [if_pos hlen]
      refine ⟨⟨?_, ?_⟩, ?_, fun _ => ⟨_, rfl⟩⟩
      · rintro ⟨levels', heq⟩
        simp at heq
      · rintro ⟨-, hacyclic⟩
        rw [← hedge] at hacyclic
        exact absurd (by rw [(hfront.complete hrange hacyclic).length_eq, List.length_range]) hlen
      · intro levels' heq
        simp at heq
  · have hrun : computeTopologicalLevels nodeIds callableDeps indexDeps = some (.error e) := by
      simp only [computeTopologicalLevels, herr]
    rw [hrun]
    refine ⟨⟨?_, fun h => absurd h.1 hbad⟩, ?_, fun _ => ⟨e, rfl⟩⟩
    · rintro ⟨levels, heq⟩
      simp at heq
    · intro levels heq
      simp at heq

/-- Repeated ids, a double edge and a positional edge. -/
theorem computeTopologicalLevels_spec_repeated :
    computeTopologicalLevels [1, 2, 3, 2] [[], [1], [2, 2], []] (some [[], [], [], [0]]) =
      some (.ok [[0], [1, 3], [2]]) ∧
    LevelsSpec [1, 2, 3, 2] [[], [1], [2, 2], []] (some [[], [], [], [0]]) [[0], [1, 3], [2]] := by
  have hrun : computeTopologicalLevels [1, 2, 3, 2] [[], [1], [2, 2], []]
      (some [[], [], [], [0]]) = some (.ok [[0], [1, 3], [2]]) := by rfl
  exact ⟨hrun, (computeTopologicalLevels_spec [1, 2, 3, 2] [[], [1], [2, 2], []]
    (some [[], [], [], [0]]) rfl (by intro table h; cases h; rfl)).2.1 _ hrun⟩

end Svod.Runtime
