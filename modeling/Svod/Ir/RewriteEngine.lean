/-
  Svod.Ir.RewriteEngine

  The graph rewrite engine (`ir/src/rewrite/engine.rs`) as `graph_rewrite` runs
  it: a matcher over rebuilt nodes, no bottom-up matcher, every source traversed.

  The engine is a loop over an explicit stack of entries.  An entry is visited
  up to three times (push the children, apply the patterns, link to the result);
  one whose sources are not in `replace` yet goes to the waitlist and comes back
  when they are.  Nodes are hash-consed, so a node stands for its id.
-/

import Mathlib.Data.Finset.Insert
import Svod.Lib.Rewriting

namespace Svod.Ir.RewriteEngine

open Svod.Lib.Rewriting

/-- `REWRITE_STACK_LIMIT`: a larger stack is taken for an infinite loop. -/
def rewriteStackLimit : ℕ := 500000

/-- The stages of an entry, `0`, `1` and `2` in the source. -/
inductive Stage where
  | pushChildren
  | applyPatterns
  | link
  deriving DecidableEq, Repr

/-- A stack entry: the original node `n`, which is its key in `replace`, and the working copy
    when it differs from `n`. -/
structure Entry (N : Type) where
  n : N
  stage : Stage
  newN : Option N := none

/-- The locals of `RewriteEngine::rewrite`.  The top of the stack is the head of `stack`;
    `waitlist` pairs the awaited node with the waiting entry, oldest first. -/
structure State (N : Type) where
  stack : List (Entry N)
  onStack : Finset N
  replace : N → Option N
  waitlist : List (N × Entry N)

/-- How a step of the loop ends.  The last two are panics: the check against
    `REWRITE_STACK_LIMIT`, and the `expect` of stage 2. -/
inductive Outcome (N : Type) where
  | running (s : State N)
  | finished (s : State N)
  | stackTooBig (len : ℕ)
  | linkWithoutNode

variable {N : Type} [DecidableEq N]

namespace State

/-- `record_replace`, and the entries that wait for `key` move to the stack. -/
def recordReplace (s : State N) (key result : N) : State N :=
  let woken := (s.waitlist.filter fun w => w.1 = key).map Prod.snd
  { s with
    replace := Function.update s.replace key (some result)
    waitlist := s.waitlist.filter fun w => ¬ w.1 = key
    stack := woken.reverse ++ s.stack }

/-- `waitlist.entry(key).or_default().push(entry)`. -/
def wait (s : State N) (key : N) (entry : Entry N) : State N :=
  { s with waitlist := s.waitlist ++ [(key, entry)] }

/-- `stack.push(entry)`. -/
def push (s : State N) (entry : Entry N) : State N :=
  { s with stack := entry :: s.stack }

end State

/-- The nodes that `on_stack.insert` is true of, in order, and the set after them. -/
def freshKids (onStack : Finset N) : List N → List N × Finset N
  | [] => ([], onStack)
  | child :: rest =>
    if child ∈ onStack then freshKids onStack rest
    else
      let kids := freshKids (insert child onStack) rest
      (child :: kids.1, kids.2)

/-- The replacements of `sources`, or the first source that has none. -/
def resolveSources (replace : N → Option N) : List N → Except N (List N)
  | [] => .ok []
  | src :: rest =>
    match replace src with
    | none => .error src
    | some rx =>
      match resolveSources replace rest with
      | .error missing => .error missing
      | .ok resolved => .ok (rx :: resolved)

/-- Stage 0: the entry comes back after the children that are not on the stack yet. -/
def pushChildren (G : Dag N) (s : State N) (e : Entry N) : State N :=
  let cur := e.newN.getD e.n
  let kids := freshKids s.onStack (G.children cur).reverse
  { s with
    onStack := kids.2
    stack := (kids.1.map fun child => ⟨child, .pushChildren, none⟩).reverse
      ++ ⟨e.n, .applyPatterns, e.newN⟩ :: s.stack }

/-- `node` is to be rewritten on its own, and `n` linked to what it becomes. -/
def follow (s : State N) (n node : N) : State N :=
  (s.push ⟨n, .link, some node⟩).push ⟨node, .pushChildren, none⟩

/-- Stage 1: the node is rebuilt over its resolved sources.  A new node is followed; on the
    node itself the patterns are tried. -/
def applyPatterns (G : Dag N) (pm : N → Option N) (s : State N) (e : Entry N) : State N :=
  let cur := e.newN.getD e.n
  match resolveSources s.replace (G.children cur) with
  | .error srcKey => s.wait srcKey e
  | .ok resolved =>
    let node := if resolved = G.children cur then cur else G.withSources cur resolved
    if node ≠ cur then follow s e.n node
    else
      match pm cur with
      | some newSrcN => follow s e.n newSrcN
      | none => s.recordReplace e.n cur

/-- Stage 2: `n` gets the result of the node it was followed into. -/
def link (s : State N) (n newN : N) : State N :=
  match s.replace newN with
  | some replaced => s.recordReplace n replaced
  | none => s.wait newN ⟨n, .link, some newN⟩

/-- The body of the loop on the popped entry `e`; `none` is a failed `expect`. -/
def visit (G : Dag N) (pm : N → Option N) (s : State N) (e : Entry N) : Option (State N) :=
  if (s.replace e.n).isSome then some s
  else
    match e.stage with
    | .pushChildren => some (pushChildren G s e)
    | .applyPatterns => some (applyPatterns G pm s e)
    | .link => e.newN.map (link s e.n)

/-- One turn of `while let Some(entry) = stack.pop()`. -/
def step (G : Dag N) (pm : N → Option N) (s : State N) : Outcome N :=
  match s.stack with
  | [] => .finished s
  | e :: stack =>
    if rewriteStackLimit < stack.length then .stackTooBig stack.length
    else
      match visit G pm { s with stack := stack } e with
      | some s' => .running s'
      | none => .linkWithoutNode

/-- The loop, for `fuel` turns at most. -/
def loop (G : Dag N) (pm : N → Option N) : ℕ → State N → Outcome N
  | 0, s => .running s
  | fuel + 1, s =>
    match step G pm s with
    | .running s' => loop G pm fuel s'
    | out => out

def State.init (root : N) : State N where
  stack := [⟨root, .pushChildren, none⟩]
  onStack := {root}
  replace := fun _ => none
  waitlist := []

/-- `self.replace.get(&root.id).cloned().unwrap_or(root)`. -/
def State.result (s : State N) (root : N) : N := (s.replace root).getD root

/-- `graph_rewrite(matcher, root)`, for `fuel` turns of the loop at most. -/
def graphRewrite (G : Dag N) (pm : N → Option N) (root : N) (fuel : ℕ) : Outcome N :=
  loop G pm fuel (State.init root)

end Svod.Ir.RewriteEngine
