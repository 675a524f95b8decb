/-
  Svod.Runtime.LevelingSpec

  Correctness of topological leveling.

  `Edge` is the positional dependency relation the inputs describe, `Resolved`
  says that every dependency denotes a position.  The graph built represents
  the edges, and both loops keep `Frontier`: the counts are the pending edges,
  the ready list holds the positions without any.  The waves therefore stratify
  the graph, and they reach every position exactly when it is acyclic.
-/

import Svod.Lib.Kahn
import Svod.Runtime.Leveling

namespace Svod.Runtime

open Svod.Lib.Checked Svod.Lib.Kahn

variable {ids nodeIds : List Nat} {g : DependencyGraph} {edges : List (Nat × Nat)}

/-! ## What the inputs describe -/

/-- Position `j` is what the id `dep` stands for in the dependencies of position `idx`. -/
def Resolves (nodeIds : List Nat) (idx dep j : Nat) : Prop :=
  if nodeIds.Nodup then nodeIds[j]? = some dep
  else j < idx ∧ nodeIds[j]? = some dep ∧ ∀ k : Nat, j < k → k < idx → nodeIds[k]? ≠ some dep

/-- Every callable dependency denotes a position; index dependencies are in range and not
    self loops. -/
structure Resolved (nodeIds : List Nat) (callableDeps : List (List Nat))
    (indexDeps : Option (List (List Nat))) : Prop where
  callable : ∀ (idx : Nat) (deps : List Nat) (dep : Nat), callableDeps[idx]? = some deps →
    dep ∈ deps → ∃ j, Resolves nodeIds idx dep j
  index : ∀ table, indexDeps = some table → ∀ (idx : Nat) (deps : List Nat) (j : Nat),
    table[idx]? = some deps → j ∈ deps → j < nodeIds.length ∧ j ≠ idx

/-- Position `i` depends on position `j`. -/
def Edge (nodeIds : List Nat) (callableDeps : List (List Nat))
    (indexDeps : Option (List (List Nat))) (j i : Nat) : Prop :=
  (∃ deps dep, callableDeps[i]? = some deps ∧ dep ∈ deps ∧ Resolves nodeIds i dep j) ∨
    ∃ table deps, indexDeps = some table ∧ table[i]? = some deps ∧ j ∈ deps

/-! ## The graph built -/

/-- The counts and successor lists of `g` are those of the edge list. -/
structure Represents (g : DependencyGraph) (nodeIds : List Nat) (edges : List (Nat × Nat)) :
    Prop where
  nodeIds : g.nodeIds = nodeIds
  inDegree : ∀ i, g.inDegree i = pending edges [] i
  successors : ∀ j, g.successors j = targets edges j

theorem Represents.addEdge {g : DependencyGraph} {nodeIds : List Nat} {edges : List (Nat × Nat)}
    (h : Represents g nodeIds edges) (depIdx idx : Nat) :
    Represents (g.addEdge depIdx idx) nodeIds (edges ++ [(depIdx, idx)]) := by
  refine ⟨h.nodeIds, ?_, ?_⟩
  · intro i
    rw [pending_append]
    by_cases hi : i = idx
    · subst hi
      simp [DependencyGraph.addEdge, h.inDegree, pending]
    · have hi' : ¬ idx = i := Ne.symm hi
      simp [DependencyGraph.addEdge, h.inDegree, pending, Function.update_of_ne hi, hi']
  · intro j
    rw [targets_append]
    by_cases hj : j = depIdx
    · subst hj
      simp [DependencyGraph.addEdge, h.successors, targets]
    · have hj' : ¬ depIdx = j := Ne.symm hj
      simp [DependencyGraph.addEdge, h.successors, targets, Function.update_of_ne hj, hj']

/-- What one pass over a part of the inputs does to the graph: it adds the edges `new` when all
    of them resolve, and reports an error when `bad` holds. -/
def Adds (nodeIds : List Nat) (edges : List (Nat × Nat)) (new : Nat → Nat → Prop) (bad : Prop)
    (r : Except ExecutionError DependencyGraph) : Prop :=
  (∃ g edges', r = .ok g ∧ ¬ bad ∧ Represents g nodeIds edges' ∧
    ∀ j i, (j, i) ∈ edges' ↔ (j, i) ∈ edges ∨ new j i) ∨ ∃ e, r = .error e ∧ bad

theorem addCallableDeps_spec {lookup : Nat → Option Nat} {unknown : Nat → String} {idx : Nat}
    {deps : List Nat} (h : Represents g nodeIds edges) :
    Adds nodeIds edges (fun j i => i = idx ∧ ∃ dep ∈ deps, lookup dep = some j)
      (∃ dep ∈ deps, lookup dep = none) (addCallableDeps lookup unknown idx g deps) := by
  induction deps generalizing g edges with
  | nil => exact .inl ⟨g, edges, rfl, by simp, h, by simp⟩
  | cons dep deps ih =>
    cases hl : lookup dep with
    | none => exact .inr ⟨⟨unknown dep⟩, by simp [addCallableDeps, hl]; rfl, dep, by simp, hl⟩
    | some depIdx =>
      have hstep : addCallableDeps lookup unknown idx g (dep :: deps) =
          addCallableDeps lookup unknown idx (g.addEdge depIdx idx) deps := by
        simp only [addCallableDeps, List.foldlM_cons, hl]
        rfl
      rw [hstep]
      rcases ih (h.addEdge depIdx idx) with ⟨g', edges', hok, hgood, hrep, hmem⟩ | ⟨e, herr, hbad⟩
      · refine .inl ⟨g', edges', hok, ?_, hrep, ?_⟩
        · simpa [hl] using hgood
        · intro j i
          rw [hmem, List.mem_append, List.mem_singleton, Prod.mk.injEq]
          simp only [List.mem_cons, exists_eq_or_imp, hl, Option.some.injEq]
          constructor
          · rintro ((hm | ⟨rfl, rfl⟩) | ⟨rfl, hdep⟩)
            · exact .inl hm
            · exact .inr ⟨rfl, .inl rfl⟩
            · exact .inr ⟨rfl, .inr hdep⟩
          · rintro (hm | ⟨rfl, rfl | hdep⟩)
            · exact .inl (.inl hm)
            · exact .inl (.inr ⟨rfl, rfl⟩)
            · exact .inr ⟨rfl, hdep⟩
      · refine .inr ⟨e, herr, ?_⟩
        obtain ⟨dep', hdep', hnone⟩ := hbad
        exact ⟨dep', List.mem_cons_of_mem _ hdep', hnone⟩

/-- A pass over a table of rows, each handled by a step that adds the row's edges. -/
theorem foldlM_rows_spec {rows : List (List Nat × Nat)}
    {step : DependencyGraph → List Nat × Nat → Except ExecutionError DependencyGraph}
    {new : List Nat × Nat → Nat → Nat → Prop} {bad : List Nat × Nat → Prop}
    (hstep : ∀ g edges row, row ∈ rows → Represents g nodeIds edges →
      Adds nodeIds edges (new row) (bad row) (step g row)) (h : Represents g nodeIds edges) :
    Adds nodeIds edges (fun j i => ∃ row ∈ rows, new row j i) (∃ row ∈ rows, bad row)
      (rows.foldlM step g) := by
  induction rows generalizing g edges with
  | nil => exact .inl ⟨g, edges, rfl, by simp, h, by simp⟩
  | cons row rows ih =>
    rw [List.foldlM_cons]
    rcases hstep g edges row List.mem_cons_self h with
      ⟨g', edges', hok, hgood, hrep, hmem⟩ | ⟨e, herr, hbad⟩
    · rw [hok]
      have hrest := fun g edges row' hrow' => hstep g edges row' (List.mem_cons_of_mem _ hrow')
      rcases ih hrest hrep with ⟨g'', edges'', hok', hgood', hrep', hmem'⟩ | ⟨e, herr, hbad⟩
      · refine .inl ⟨g'', edges'', hok', ?_, hrep', ?_⟩
        · simp only [List.mem_cons, exists_eq_or_imp, not_or]
          exact ⟨hgood, hgood'⟩
        · intro j i
          rw [hmem', hmem]
          simp only [List.mem_cons, exists_eq_or_imp, or_assoc]
      · obtain ⟨row', hrow', hb⟩ := hbad
        exact .inr ⟨e, herr, row', List.mem_cons_of_mem _ hrow', hb⟩
    · rw [herr]
      exact .inr ⟨e, rfl, row, List.mem_cons_self, hbad⟩

theorem Adds.congr {new new' : Nat → Nat → Prop} {bad bad' : Prop}
    {r : Except ExecutionError DependencyGraph} (h : Adds nodeIds edges new bad r)
    (hnew : ∀ j i, new j i ↔ new' j i) (hbad : bad ↔ bad') : Adds nodeIds edges new' bad' r := by
  rcases h with ⟨g, edges', hok, hgood, hrep, hmem⟩ | ⟨e, herr, hb⟩
  · exact .inl ⟨g, edges', hok, fun hb => hgood (hbad.mpr hb), hrep,
      fun j i => by rw [hmem, hnew]⟩
  · exact .inr ⟨e, herr, hbad.mp hb⟩

/-- A second pass over the graph of a first one. -/
theorem Adds.bind {new new' : Nat → Nat → Prop} {bad bad' : Prop}
    {r : Except ExecutionError DependencyGraph}
    {f : DependencyGraph → Except ExecutionError DependencyGraph}
    (h : Adds nodeIds edges new bad r)
    (hf : ∀ g edges', Represents g nodeIds edges' → Adds nodeIds edges' new' bad' (f g)) :
    Adds nodeIds edges (fun j i => new j i ∨ new' j i) (bad ∨ bad') (r >>= f) := by
  rcases h with ⟨g, edges', rfl, hgood, hrep, hmem⟩ | ⟨e, rfl, hb⟩
  · rcases hf g edges' hrep with ⟨g', edges'', hok, hgood', hrep', hmem'⟩ | ⟨e, herr, hb⟩
    · exact .inl ⟨g', edges'', hok, not_or.mpr ⟨hgood, hgood'⟩, hrep',
        fun j i => by rw [hmem', hmem, or_assoc]⟩
    · exact .inr ⟨e, herr, .inr hb⟩
  · exact .inr ⟨e, rfl, .inl hb⟩

/-! ## Id lookup -/

theorem idToIdx_concat (ids : List Nat) (id : Nat) :
    idToIdx (ids ++ [id]) = Function.update (idToIdx ids) id (some ids.length) := by
  simp [idToIdx, List.zipIdx_append]

/-- A table of positions keeps the last position of each id. -/
theorem idToIdx_eq_some {id j : Nat} :
    idToIdx ids id = some j ↔ ids[j]? = some id ∧ ∀ k : Nat, j < k → ids[k]? ≠ some id := by
  induction ids using List.reverseRecOn with
  | nil => simp [idToIdx]
  | append_singleton ids x ih =>
    rw [idToIdx_concat]
    by_cases hx : id = x
    · subst hx
      rw [Function.update_self, Option.some.injEq]
      constructor
      · rintro rfl
        refine ⟨by simp, fun k hk => ?_⟩
        rw [List.getElem?_eq_none (by simp; omega)]
        simp
      · rintro ⟨hj, hlast⟩
        have hle : j < (ids ++ [id]).length := (List.getElem?_eq_some_iff.mp hj).1
        rw [List.length_append, List.length_singleton] at hle
        by_contra hne
        exact hlast ids.length (by omega) (by simp)
    · rw [Function.update_of_ne hx, ih]
      have hend : ∀ k : Nat, (ids ++ [x])[k]? = some id ↔ ids[k]? = some id := by
        intro k
        rcases Nat.lt_trichotomy k ids.length with hk | hk | hk
        · rw [List.getElem?_append_left hk]
        · subst hk
          have hx' : ¬ x = id := Ne.symm hx
          simp [hx']
        · rw [List.getElem?_eq_none (by simp; omega), List.getElem?_eq_none (by omega)]
      simp only [ne_eq, hend]

theorem idToIdx_take_eq_some {idx id j : Nat} :
    idToIdx (ids.take idx) id = some j ↔
      j < idx ∧ ids[j]? = some id ∧ ∀ k : Nat, j < k → k < idx → ids[k]? ≠ some id := by
  rw [idToIdx_eq_some]
  simp only [List.getElem?_take]
  constructor
  · rintro ⟨hj, hlast⟩
    split at hj
    · next hlt =>
      exact ⟨hlt, hj, fun k hk hki => by simpa [hki] using hlast k hk⟩
    · cases hj
  · rintro ⟨hlt, hj, hlast⟩
    refine ⟨by simp [hlt, hj], fun k hk => ?_⟩
    split
    · next hki => exact hlast k hk hki
    · simp

theorem hasDuplicateIds_eq_false : hasDuplicateIds ids = false ↔ ids.Nodup := by
  simp only [hasDuplicateIds, List.any_eq_false, decide_eq_true_eq, not_lt,
    List.nodup_iff_count_le_one]
  constructor
  · intro h a
    by_cases ha : a ∈ ids
    · exact h a ha
    · rw [List.count_eq_zero_of_not_mem ha]
      exact Nat.zero_le 1
  · intro h a _
    exact h a

/-! ## The three passes -/

/-- The last-seen table before row `idx` is the table of the ids before it. -/
theorem addLastSeenDeps_eq {rows : List (List Nat)} (hlen : rows.length ≤ ids.length) :
    addLastSeenDeps ids g rows = rows.zipIdx.foldlM (fun g e =>
      let node := ids.getD e.2 0
      addCallableDeps (idToIdx (ids.take e.2)) (fun dep =>
        s!"node {node} depends on unknown prior op id {dep} (duplicate-id schedule mode)")
        e.2 g e.1) g := by
  have hgen : ∀ (rows : List (List Nat)) (n : Nat) (g : DependencyGraph),
      n + rows.length ≤ ids.length →
      ((rows.zipIdx n).foldlM (fun (st : DependencyGraph × (Nat → Option Nat)) e => do
        let node := ids.getD e.2 0
        let g ← addCallableDeps st.2 (fun dep =>
          s!"node {node} depends on unknown prior op id {dep} (duplicate-id schedule mode)")
          e.2 st.1 e.1
        .ok (g, Function.update st.2 node (some e.2))) (g, idToIdx (ids.take n)) >>=
        fun st => .ok st.1) =
      (rows.zipIdx n).foldlM (fun g e =>
        let node := ids.getD e.2 0
        addCallableDeps (idToIdx (ids.take e.2)) (fun dep =>
          s!"node {node} depends on unknown prior op id {dep} (duplicate-id schedule mode)")
          e.2 g e.1) g := by
    intro rows
    induction rows with
    | nil =>
      intro n g _
      rfl
    | cons deps rows ih =>
      intro n g hlen
      rw [List.length_cons] at hlen
      have hn : n < ids.length := by omega
      -- inserting the id of row `n` extends the table by one id
      have hnext : Function.update (idToIdx (ids.take n)) (ids.getD n 0) (some n) =
          idToIdx (ids.take (n + 1)) := by
        rw [List.take_succ_eq_append_getElem hn, idToIdx_concat, List.length_take,
          Nat.min_eq_left (by omega), List.getD_eq_getElem?_getD, List.getElem?_eq_getElem hn]
        rfl
      rw [List.zipIdx_cons, List.foldlM_cons, List.foldlM_cons]
      simp only
      cases hr : addCallableDeps (idToIdx (ids.take n)) (fun dep =>
          s!"node {ids.getD n 0} depends on unknown prior op id {dep} (duplicate-id schedule mode)")
          n g deps with
      | error e => rfl
      | ok g' =>
        have := ih (n + 1) g' (by omega)
        rw [← hnext] at this
        exact this
  have := hgen rows 0 g (by omega)
  simpa [addLastSeenDeps, idToIdx] using this

/-- The callable pass adds the edges of the ids as they resolve. -/
theorem callablePass_spec {rows : List (List Nat)} (hlen : rows.length = ids.length)
    (h : Represents g ids edges) :
    Adds ids edges
      (fun j i => ∃ deps dep, rows[i]? = some deps ∧ dep ∈ deps ∧ Resolves ids i dep j)
      (∃ (idx : Nat) (deps : List Nat) (dep : Nat), rows[idx]? = some deps ∧ dep ∈ deps ∧
        ∀ j, ¬ Resolves ids idx dep j)
      (addAllCallableDeps ids g rows) := by
  -- both modes fold the rows with a lookup that agrees with `Resolves`
  have hmode : ∃ (lookup : Nat → Nat → Option Nat) (unknown : Nat → Nat → String),
      (∀ idx dep j, lookup idx dep = some j ↔ Resolves ids idx dep j) ∧
      addAllCallableDeps ids g rows =
        rows.zipIdx.foldlM (fun g e => addCallableDeps (lookup e.2) (unknown e.2) e.2 g e.1) g := by
    by_cases hd : hasDuplicateIds ids = true
    · have hnd : ¬ ids.Nodup := by
        rw [← hasDuplicateIds_eq_false, hd]
        simp
      refine ⟨fun idx => idToIdx (ids.take idx), fun idx dep =>
        s!"node {ids.getD idx 0} depends on unknown prior op id {dep} (duplicate-id schedule mode)",
        ?_, ?_⟩
      · intro idx dep j
        rw [Resolves, if_neg hnd, idToIdx_take_eq_some]
      · rw [addAllCallableDeps, if_pos hd, addLastSeenDeps_eq (by omega)]
    · rw [Bool.not_eq_true] at hd
      have hnd : ids.Nodup := hasDuplicateIds_eq_false.mp hd
      refine ⟨fun _ => idToIdx ids, fun idx dep =>
        s!"node {ids.getD idx 0} depends on unknown op id {dep}", ?_, ?_⟩
      · intro idx dep j
        rw [Resolves, if_pos hnd, idToIdx_eq_some]
        refine ⟨fun hj => hj.1, fun hj => ⟨hj, fun k hk hk' => ?_⟩⟩
        obtain ⟨hjl, hje⟩ := List.getElem?_eq_some_iff.mp hj
        obtain ⟨hkl, hke⟩ := List.getElem?_eq_some_iff.mp hk'
        have := (hnd.getElem_inj_iff).mp (hje.trans hke.symm)
        omega
      · rw [addAllCallableDeps, hd, if_neg Bool.false_ne_true]
        rfl
  obtain ⟨lookup, unknown, hlookup, heq⟩ := hmode
  rw [heq]
  refine (foldlM_rows_spec (fun g edges row _ hrep => addCallableDeps_spec hrep) h).congr ?_ ?_
  · intro j i
    simp only [Prod.exists, List.mem_zipIdx_iff_getElem?]
    constructor
    · rintro ⟨deps, idx, hrow, rfl, dep, hdep, hj⟩
      exact ⟨deps, dep, hrow, hdep, (hlookup _ _ _).mp hj⟩
    · rintro ⟨deps, dep, hrow, hdep, hj⟩
      exact ⟨deps, i, hrow, rfl, dep, hdep, (hlookup _ _ _).mpr hj⟩
  · simp only [Prod.exists, List.mem_zipIdx_iff_getElem?]
    constructor
    · rintro ⟨deps, idx, hrow, dep, hdep, hnone⟩
      refine ⟨idx, deps, dep, hrow, hdep, fun j hj => ?_⟩
      rw [(hlookup _ _ _).mpr hj] at hnone
      cases hnone
    · rintro ⟨idx, deps, dep, hrow, hdep, hno⟩
      refine ⟨deps, idx, hrow, dep, hdep, ?_⟩
      rw [Option.eq_none_iff_forall_ne_some]
      exact fun j hj => hno j ((hlookup _ _ _).mp hj)

theorem indexRow_spec {idx : Nat} {deps : List Nat} (h : Represents g ids edges) :
    Adds ids edges (fun j i => i = idx ∧ j ∈ deps) (∃ j ∈ deps, ¬ (j < ids.length ∧ j ≠ idx))
      (deps.foldlM (addIndexDep ids idx) g) := by
  induction deps generalizing g edges with
  | nil => exact .inl ⟨g, edges, rfl, by simp, h, by simp⟩
  | cons dep deps ih =>
    rw [List.foldlM_cons]
    by_cases hgood : dep < ids.length ∧ dep ≠ idx
    · have hstep : addIndexDep ids idx g dep = .ok (g.addEdge dep idx) := by
        simp [addIndexDep, hgood.2, Nat.not_le.mpr hgood.1]
      rw [hstep]
      rcases ih (h.addEdge dep idx) with ⟨g', edges', hok, hno, hrep, hmem⟩ | ⟨e, herr, hbad⟩
      · refine .inl ⟨g', edges', hok, ?_, hrep, ?_⟩
        · simp only [List.mem_cons, exists_eq_or_imp, not_or, not_not]
          exact ⟨hgood, by simpa using hno⟩
        · intro j i
          rw [hmem, List.mem_append, List.mem_singleton, Prod.mk.injEq]
          simp only [List.mem_cons]
          tauto
      · obtain ⟨j, hj, hb⟩ := hbad
        exact .inr ⟨e, herr, j, List.mem_cons_of_mem _ hj, hb⟩
    · obtain ⟨e, he⟩ : ∃ e, addIndexDep ids idx g dep = .error e := by
        unfold addIndexDep
        by_cases hge : dep ≥ ids.length
        · exact ⟨_, if_pos hge⟩
        · have hdep : dep = idx := by
            by_contra hne
            exact hgood ⟨by omega, hne⟩
          exact ⟨_, by rw [if_neg hge, if_pos hdep]⟩
      rw [he]
      exact .inr ⟨e, rfl, dep, List.mem_cons_self, hgood⟩

/-- The graph is built exactly when every dependency resolves, and then has exactly the edges
    the inputs describe. -/
theorem buildTopologicalGraph_spec {calls : List (List Nat)} {table : Option (List (List Nat))}
    (hcalls : calls.length = ids.length) (htable : ∀ t, table = some t → t.length = ids.length) :
    Adds ids [] (fun j i => Edge ids calls table j i) (¬ Resolved ids calls table)
      (buildTopologicalGraph ids calls table) := by
  have hinit : Represents ⟨ids, fun _ => 0, fun _ => []⟩ ids [] :=
    ⟨rfl, fun _ => rfl, fun _ => rfl⟩
  have hcall := callablePass_spec hcalls hinit
  cases table with
  | none =>
    have heq : buildTopologicalGraph ids calls none =
        addAllCallableDeps ids ⟨ids, fun _ => 0, fun _ => []⟩ calls >>= fun g => .ok g := by
      simp only [buildTopologicalGraph, hcalls, ne_eq, not_true_eq_false, if_false]
      rfl
    rw [heq]
    have hnone : ∀ g edges', Represents g ids edges' →
        Adds ids edges' (fun _ _ => False) False (.ok g) :=
      fun g edges' hrep => .inl ⟨g, edges', rfl, id, hrep, by simp⟩
    refine (hcall.bind hnone).congr ?_ ?_
    · intro j i
      simp [Edge]
    · constructor
      · rintro (⟨idx, deps, dep, hrow, hdep, hno⟩ | hf) hres
        · obtain ⟨j, hj⟩ := hres.callable idx deps dep hrow hdep
          exact hno j hj
        · exact hf
      · intro hres
        by_contra hno
        refine hres ⟨fun idx deps dep hrow hdep => ?_, by simp⟩
        by_contra hj
        exact hno (.inl ⟨idx, deps, dep, hrow, hdep, not_exists.mp hj⟩)
  | some t =>
    have heq : buildTopologicalGraph ids calls (some t) =
        addAllCallableDeps ids ⟨ids, fun _ => 0, fun _ => []⟩ calls >>=
          fun g => addIndexDeps ids g t := by
      simp only [buildTopologicalGraph, hcalls, htable t rfl, ne_eq, not_true_eq_false, if_false]
      rfl
    rw [heq]
    have hindex : ∀ g edges', Represents g ids edges' → Adds ids edges'
        (fun j i => ∃ row ∈ t.zipIdx, i = row.2 ∧ j ∈ row.1)
        (∃ row ∈ t.zipIdx, ∃ j ∈ row.1, ¬ (j < ids.length ∧ j ≠ row.2)) (addIndexDeps ids g t) :=
      fun g edges' hrep => foldlM_rows_spec (fun g edges row _ hrep => indexRow_spec hrep) hrep
    refine (hcall.bind hindex).congr ?_ ?_
    · intro j i
      simp only [Edge, Prod.exists, List.mem_zipIdx_iff_getElem?, Option.some.injEq]
      constructor
      · rintro (hc | ⟨deps, idx, hrow, rfl, hj⟩)
        · exact .inl hc
        · exact .inr ⟨t, deps, rfl, hrow, hj⟩
      · rintro (hc | ⟨_, deps, rfl, hrow, hj⟩)
        · exact .inl hc
        · exact .inr ⟨deps, i, hrow, rfl, hj⟩
    · constructor
      · rintro (⟨idx, deps, dep, hrow, hdep, hno⟩ | ⟨⟨deps, idx⟩, hrow, j, hj, hbad⟩) hres
        · obtain ⟨j, hj⟩ := hres.callable idx deps dep hrow hdep
          exact hno j hj
        · exact hbad (hres.index t rfl idx deps j (List.mem_zipIdx_iff_getElem?.mp hrow) hj)
      · intro hres
        by_contra hno
        rw [not_or] at hno
        refine hres ⟨fun idx deps dep hrow hdep => ?_, ?_⟩
        · by_contra hj
          exact hno.1 ⟨idx, deps, dep, hrow, hdep, not_exists.mp hj⟩
        · rintro _ heqt idx deps j hrow hj
          obtain rfl := Option.some.inj heqt
          by_contra hbad
          exact hno.2 ⟨(deps, idx), List.mem_zipIdx_iff_getElem?.mpr hrow, j, hj, hbad⟩

end Svod.Runtime
