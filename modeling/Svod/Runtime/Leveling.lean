/-
  Svod.Runtime.Leveling

  Topological leveling shared by the executor and the memory planner
  (`runtime/src/leveling.rs`).

  The outer `Option` is `none` for an abort (an in-degree that would drop below
  zero) or a loop out of fuel; neither happens.  Vectors indexed by position are
  functions of the position, and the binary min-heap of ready positions is its
  sorted list: what is popped is the least element, which is all that shows.
-/

import Mathlib.Data.List.Sort
import Svod.Lib.Checked

namespace Svod.Runtime

open Svod.Lib.Checked

/-- `Error::Execution`. -/
structure ExecutionError where
  reason : String
deriving DecidableEq, Repr

/-- Resolved dependency graph over the input nodes, indexed positionally. -/
structure DependencyGraph where
  nodeIds : List Nat
  inDegree : Nat → Nat
  successors : Nat → List Nat

/-- The two statements that record that position `idx` waits for position `depIdx`. -/
def DependencyGraph.addEdge (g : DependencyGraph) (depIdx idx : Nat) : DependencyGraph :=
  { g with
    inDegree := Function.update g.inDegree idx (g.inDegree idx + 1)
    successors := Function.update g.successors depIdx (g.successors depIdx ++ [idx]) }

def hasDuplicateIds (nodeIds : List Nat) : Bool := nodeIds.any fun id => nodeIds.count id > 1

/-- Position of each id; a repeated id keeps its last position. -/
def idToIdx (nodeIds : List Nat) : Nat → Option Nat :=
  nodeIds.zipIdx.foldl (fun m e => Function.update m e.1 (some e.2)) fun _ => none

/-- Callable dependencies of one node, looked up in `lookup`. -/
def addCallableDeps (lookup : Nat → Option Nat) (unknown : Nat → String) (idx : Nat)
    (g : DependencyGraph) (deps : List Nat) : Except ExecutionError DependencyGraph :=
  deps.foldlM (fun g dep =>
    match lookup dep with
    | none => .error ⟨unknown dep⟩
    | some depIdx => .ok (g.addEdge depIdx idx)) g

/-- Unique-id mode: every id stands for its only position. -/
def addUniqueDeps (nodeIds : List Nat) (g : DependencyGraph) (callableDeps : List (List Nat)) :
    Except ExecutionError DependencyGraph :=
  let idToIdx := idToIdx nodeIds
  callableDeps.zipIdx.foldlM (fun g e =>
    let node := nodeIds.getD e.2 0
    addCallableDeps idToIdx (fun dep => s!"node {node} depends on unknown op id {dep}")
      e.2 g e.1) g

/-- Duplicate-id mode: an id stands for the most recent prior node that carries it. -/
def addLastSeenDeps (nodeIds : List Nat) (g : DependencyGraph) (callableDeps : List (List Nat)) :
    Except ExecutionError DependencyGraph := do
  let (g, _) ← callableDeps.zipIdx.foldlM (fun (st : DependencyGraph × (Nat → Option Nat)) e => do
    let node := nodeIds.getD e.2 0
    let g ← addCallableDeps st.2 (fun dep =>
      s!"node {node} depends on unknown prior op id {dep} (duplicate-id schedule mode)")
      e.2 st.1 e.1
    .ok (g, Function.update st.2 node (some e.2))) (g, fun _ => none)
  .ok g

/-- One concrete positional dependency. -/
def addIndexDep (nodeIds : List Nat) (idx : Nat) (g : DependencyGraph) (depIdx : Nat) :
    Except ExecutionError DependencyGraph :=
  let node := nodeIds.getD idx 0
  if depIdx ≥ nodeIds.length then
    .error ⟨s!"node {node} depends on unknown op index {depIdx}"⟩
  else if depIdx = idx then
    .error ⟨s!"node {node} cannot depend on itself by op index {depIdx}"⟩
  else .ok (g.addEdge depIdx idx)

def addIndexDeps (nodeIds : List Nat) (g : DependencyGraph) (indexDeps : List (List Nat)) :
    Except ExecutionError DependencyGraph :=
  indexDeps.zipIdx.foldlM (fun g e => e.1.foldlM (addIndexDep nodeIds e.2) g) g

def addAllCallableDeps (nodeIds : List Nat) (g : DependencyGraph) (callableDeps : List (List Nat)) :
    Except ExecutionError DependencyGraph :=
  if hasDuplicateIds nodeIds then addLastSeenDeps nodeIds g callableDeps
  else addUniqueDeps nodeIds g callableDeps

/-- The part of `build_topological_graph` past the length checks. -/
def addDeps (nodeIds : List Nat) (callableDeps : List (List Nat))
    (indexDeps : Option (List (List Nat))) : Except ExecutionError DependencyGraph := do
  let g ← addAllCallableDeps nodeIds ⟨nodeIds, fun _ => 0, fun _ => []⟩ callableDeps
  match indexDeps with
  | none => .ok g
  | some table => addIndexDeps nodeIds g table

def buildTopologicalGraph (nodeIds : List Nat) (callableDeps : List (List Nat))
    (indexDeps : Option (List (List Nat))) : Except ExecutionError DependencyGraph :=
  let n := nodeIds.length
  let calls := callableDeps.length
  if calls ≠ n then
    .error ⟨s!"topological leveling dep table length mismatch: nodes={n}, callable_deps={calls}"⟩
  else
    match indexDeps with
    | none => addDeps nodeIds callableDeps none
    | some table =>
      let rows := table.length
      if rows ≠ n then
        .error
          ⟨s!"topological leveling index-dep table length mismatch: nodes={n}, index_deps={rows}"⟩
      else addDeps nodeIds callableDeps (some table)

def cycleError (inDegree : Nat → Nat) (nodeIds : List Nat) : ExecutionError :=
  let blocked := nodeIds.zipIdx.filterMap fun e => if inDegree e.2 > 0 then some e.1 else none
  ⟨s!"cycle detected in prepared op dependencies: blocked_ids={blocked}"⟩

/-! ## Ready positions -/

def pushReady (ready : List Nat) (idx : Nat) : List Nat := ready.orderedInsert (· ≤ ·) idx

def initialReady (n : Nat) (inDegree : Nat → Nat) : List Nat :=
  (List.range n).foldl (fun ready idx => if inDegree idx = 0 then pushReady ready idx else ready) []

/-- One successor of a done position: its count drops, at zero it becomes ready. -/
def relax (st : (Nat → Nat) × List Nat) (succ : Nat) : Option ((Nat → Nat) × List Nat) := do
  let deg ← checkedSub (st.1 succ) 1
  some (Function.update st.1 succ deg, if deg = 0 then pushReady st.2 succ else st.2)

/-- The inner loop over all successors of `idx`. -/
def relaxSuccessors (g : DependencyGraph) (st : (Nat → Nat) × List Nat) (idx : Nat) :
    Option ((Nat → Nat) × List Nat) :=
  (g.successors idx).foldlM relax st

/-! ## Linear order -/

def orderLoop (g : DependencyGraph) :
    Nat → (Nat → Nat) → List Nat → List Nat → Option ((Nat → Nat) × List Nat)
  | _, inDegree, [], order => some (inDegree, order)
  | 0, _, _ :: _, _ => none
  | fuel + 1, inDegree, idx :: ready, order => do
    let (inDegree, ready) ← relaxSuccessors g (inDegree, ready) idx
    orderLoop g fuel inDegree ready (order ++ [idx])

/-- `compute_topological_order`. -/
def computeTopologicalOrder (nodeIds : List Nat) (callableDeps : List (List Nat))
    (indexDeps : Option (List (List Nat))) : Option (Except ExecutionError (List Nat)) :=
  match buildTopologicalGraph nodeIds callableDeps indexDeps with
  | .error e => some (.error e)
  | .ok g => do
    let n := g.nodeIds.length
    let (inDegree, order) ← orderLoop g n g.inDegree (initialReady n g.inDegree) []
    if order.length ≠ n then some (.error (cycleError inDegree g.nodeIds))
    else some (.ok order)

/-! ## Levels -/

/-- One wave: all ready positions are done, `next` collects those that become ready. -/
def levelsLoop (g : DependencyGraph) :
    Nat → (Nat → Nat) → List Nat → List (List Nat) → Nat →
      Option ((Nat → Nat) × List (List Nat) × Nat)
  | _, inDegree, [], levels, visited => some (inDegree, levels, visited)
  | 0, _, _ :: _, _, _ => none
  | fuel + 1, inDegree, idx :: ready, levels, visited => do
    let level := idx :: ready
    let (inDegree, next) ← level.foldlM (relaxSuccessors g) (inDegree, [])
    levelsLoop g fuel inDegree next (levels ++ [level]) (visited + level.length)

/-- `compute_topological_levels`. -/
def computeTopologicalLevels (nodeIds : List Nat) (callableDeps : List (List Nat))
    (indexDeps : Option (List (List Nat))) : Option (Except ExecutionError (List (List Nat))) :=
  match buildTopologicalGraph nodeIds callableDeps indexDeps with
  | .error e => some (.error e)
  | .ok g => do
    let n := g.nodeIds.length
    let (inDegree, levels, visited) ←
      levelsLoop g n g.inDegree (initialReady n g.inDegree) [] 0
    if visited ≠ n then some (.error (cycleError inDegree g.nodeIds))
    else some (.ok levels)

end Svod.Runtime
