/-
  Svod.Arch.CtcBeam

  The CTC prefix beam decoder (`arch/src/ctc.rs`): prefixes as nodes of a suffix
  tree, each with the mass of its alignments that end in the blank and of those
  that end in its last label.

  The source works on logarithms.  Here a mass is an element of a semiring: a
  product where the source adds logarithms, a sum where it calls `log_add_exp`,
  0 for its negative infinity and 1 for its 0.
-/

import Mathlib.Algebra.Ring.Defs
import Svod.Arch.Ctc
import Svod.Lib.KeyedSums

namespace Svod.Arch.Ctc

/-! ## The suffix tree -/

structure LabelNode where
  label : ℕ
  parent : ℤ
  frame : ℕ
deriving DecidableEq

/-- `ROOT_NODE`. -/
def rootNode : ℤ := -1

/-- Node ids are `i32` in the source: the tree stands for those of fewer than `2 ^ 31` nodes. -/
structure SuffixTree where
  nodes : List LabelNode
  /-- The child of `node` along `label` at `node * alphabetSize + label`, -1 for none. -/
  children : List ℤ
  rootChildren : List ℤ
  alphabetSize : ℕ
deriving DecidableEq

namespace SuffixTree

/-- `reset`: whatever the tree held before. -/
def reset (alphabetSize : ℕ) : SuffixTree where
  nodes := []
  children := []
  rootChildren := List.replicate alphabetSize (-1)
  alphabetSize := alphabetSize

variable (tree : SuffixTree)

/-- `label`; the outer `none` is an index past the end. -/
def label (node : ℤ) : Option (Option ℕ) :=
  if 0 ≤ node then tree.nodes[node.toNat]?.map fun n => some n.label else some none

/-- The entry of the child tables for an edge. -/
def childSlot (node : ℤ) (label : ℕ) : Option ℤ :=
  if node = rootNode then tree.rootChildren[label]?
  else tree.children[node.toNat * tree.alphabetSize + label]?

/-- `get_child`; the outer `none` is an index past the end. -/
def getChild (node : ℤ) (label : ℕ) : Option (Option ℤ) :=
  (tree.childSlot node label).map fun idx => if 0 ≤ idx then some idx else none

/-- `add_node`; `none` is an index past the end. -/
def addNode (parent : ℤ) (label frame : ℕ) : Option (ℤ × SuffixTree) :=
  let newIdx : ℤ := tree.nodes.length
  let nodes := tree.nodes ++ [⟨label, parent, frame⟩]
  let fresh := List.replicate tree.alphabetSize (-1)
  let slot := parent.toNat * tree.alphabetSize + label
  if parent = rootNode then
    if label < tree.rootChildren.length then
      some (newIdx, { tree with
        nodes, rootChildren := tree.rootChildren.set label newIdx
        children := tree.children ++ fresh })
    else none
  else if slot < tree.children.length then
    some (newIdx, { tree with nodes, children := tree.children.set slot newIdx ++ fresh })
  else none

/-- `get_child(..).unwrap_or_else(|| add_node(..))`. -/
def childOrAdd (node : ℤ) (label frame : ℕ) : Option (ℤ × SuffixTree) := do
  match ← tree.getChild node label with
  | some child => some (child, tree)
  | none => tree.addNode node label frame

/-- `SuffixTreeIter`: the labels and frames from a node up to the root, in at most `fuel` steps. -/
def walk : ℕ → ℤ → Option (List (ℕ × ℕ))
  | 0, _ => none
  | fuel + 1, node =>
    if 0 ≤ node then do
      let n ← tree.nodes[node.toNat]?
      let rest ← walk fuel n.parent
      some ((n.label, n.frame) :: rest)
    else some []

def iterFrom (node : ℤ) : Option (List (ℕ × ℕ)) := tree.walk (tree.nodes.length + 1) node

/-- The labels from the root to a node. -/
def prefixOf (node : ℤ) : Option (List ℕ) :=
  (tree.iterFrom node).map fun w => w.reverse.map Prod.fst

end SuffixTree

/-! ## Search points -/

/-- A prefix of the beam with its two masses; `new` is the only way the source builds one. -/
structure SearchPoint (S : Type) [Add S] where
  node : ℤ
  pB : S
  pNb : S
  logTotal : S
  logTotal_eq : logTotal = pB + pNb
deriving DecidableEq

namespace SearchPoint

variable {S : Type} [Add S]

def new (node : ℤ) (pB pNb : S) : SearchPoint S := ⟨node, pB, pNb, pB + pNb, rfl⟩

/-- What the sweep makes of a surviving point and a later one of its node. -/
def merged (last bi : SearchPoint S) : SearchPoint S :=
  new last.node (last.pB + bi.pB) (last.pNb + bi.pNb)

/-- The two masses of a point. -/
def masses (sp : SearchPoint S) : S × S := (sp.pB, sp.pNb)

end SearchPoint

/-! ## The decoder -/

/-- What the decoder asks of the masses beside their sums and products: `compare_logits`, the NaN
    test and `best.log_total - threshold`. -/
structure BeamFloatOps (S : Type) extends FloatOps S where
  minus : S → S → S

section Comparators

variable {α : Type} {cmp : α → α → Ordering} (hswap : ∀ a b, cmp a b = (cmp b a).swap)

include hswap

theorem cmp_self_ne_gt (a : α) : cmp a a ≠ .gt := by
  intro h
  have := hswap a a
  rw [h] at this
  cases this

theorem insertionSort_pairwise
    (htrans : ∀ a b c, cmp a b ≠ .gt → cmp b c ≠ .gt → cmp a c ≠ .gt) (xs : List α) :
    (xs.insertionSort fun a b => cmp a b ≠ .gt).Pairwise fun a b => cmp a b ≠ .gt := by
  have : Std.Total fun a b : α => cmp a b ≠ .gt := ⟨fun a b => by
    rw [hswap b a]
    cases cmp a b with
    | lt => exact .inl (by decide)
    | eq => exact .inl (by decide)
    | gt => exact .inr (by decide)⟩
  have : IsTrans α fun a b => cmp a b ≠ .gt := ⟨htrans⟩
  exact List.pairwise_insertionSort _ xs

end Comparators

/-- The orders that `sort_unstable_by` and `select_nth_unstable_by` leave open. -/
structure UnstableOrders (S : Type) [Add S] where
  sortBy : (SearchPoint S → SearchPoint S → Ordering) → List (SearchPoint S) → List (SearchPoint S)
  selectNthBy : ℕ → (ℕ → ℕ → Ordering) → List ℕ → List ℕ
  sortBy_perm : ∀ cmp xs, (sortBy cmp xs).Perm xs
  selectNthBy_perm : ∀ n cmp xs, (selectNthBy n cmp xs).Perm xs
  /-- A comparator that is a total preorder sorts. -/
  sortBy_sorted : ∀ cmp xs, (∀ a b, cmp a b = (cmp b a).swap) →
    (∀ a b c, cmp a b ≠ .gt → cmp b c ≠ .gt → cmp a c ≠ .gt) →
    (sortBy cmp xs).Pairwise fun a b => cmp a b ≠ .gt
  /-- What is before the place `n` does not come after what is behind it. -/
  selectNthBy_split : ∀ n cmp xs, (∀ a b, cmp a b = (cmp b a).swap) →
    (∀ a b c, cmp a b ≠ .gt → cmp b c ≠ .gt → cmp a c ≠ .gt) → ∀ i j a b, i ≤ n → n ≤ j →
    (selectNthBy n cmp xs)[i]? = some a → (selectNthBy n cmp xs)[j]? = some b → cmp a b ≠ .gt

/-- Both by insertion, which leaves equal elements in their order. -/
def UnstableOrders.insertion (S : Type) [Add S] : UnstableOrders S where
  sortBy cmp xs := xs.insertionSort fun a b => cmp a b ≠ .gt
  selectNthBy _ cmp xs := xs.insertionSort fun a b => cmp a b ≠ .gt
  sortBy_perm cmp xs := List.perm_insertionSort _ _
  selectNthBy_perm _ cmp xs := List.perm_insertionSort _ _
  sortBy_sorted cmp xs hswap htrans := insertionSort_pairwise hswap htrans xs
  selectNthBy_split n cmp xs hswap htrans i j a b hi hj ha hb := by
    obtain ⟨hi', rfl⟩ := List.getElem?_eq_some_iff.mp ha
    obtain ⟨hj', rfl⟩ := List.getElem?_eq_some_iff.mp hb
    rcases (hi.trans hj).eq_or_lt with rfl | hlt
    · exact cmp_self_ne_gt hswap _
    · exact List.pairwise_iff_getElem.mp (insertionSort_pairwise hswap htrans xs) i j hi' hj' hlt

inductive NanBehavior where
  | skip
  | error
  | propagate
deriving DecidableEq

structure BeamOpts (S : Type) where
  beamSize : ℕ
  beamSizeToken : Option ℕ
  beamThreshold : Option S
  onNan : NanBehavior

inductive DecodeError where
  | nanInLogits (frame : ℕ)
deriving DecidableEq

structure BeamDecoder (S : Type) where
  vocabulary : List String
  opts : BeamOpts S

/-- The part of `BeamScratch` that a frame hands to the next. -/
structure BeamScratch (S : Type) [Add S] where
  tree : SuffixTree
  beam : List (SearchPoint S)

namespace BeamDecoder

variable {S : Type} [CommSemiring S] [DecidableEq S] (d : BeamDecoder S) (ops : BeamFloatOps S)
  (orders : UnstableOrders S)

def blankId : ℕ := d.vocabulary.length

def totalVocab : ℕ := d.vocabulary.length + 1

/-- `top_k_tokens_into`; the comparator reads the frame in descending order. -/
def topKTokensInto (frame : List S) : List ℕ :=
  match d.opts.beamSizeToken with
  | none => List.range frame.length
  | some k =>
    if k = 0 then [d.blankId]
    else if frame.length ≤ k then List.range frame.length
    else
      let out := (orders.selectNthBy (k - 1)
        (fun i j => compareLogits ops.toFloatOps (frame.getD j 0) (frame.getD i 0))
        (List.range frame.length)).take k
      if d.blankId ∈ out then out else out ++ [d.blankId]

/-- One token after one point of the beam: the tree and the points pushed so far. -/
def extendToken (frame : List S) (t : ℕ) (sp : SearchPoint S) (tipLabel : Option ℕ)
    (s : SuffixTree × List (SearchPoint S)) (c : ℕ) :
    Option (SuffixTree × List (SearchPoint S)) := do
  let lp ← frame[c]?
  if c = d.blankId then
    -- the prefix is unchanged
    some (s.1, s.2 ++ [.new sp.node (sp.logTotal * lp) 0])
  else if some c = tipLabel then
    -- the run of the last label goes on; after a blank the label starts a new one
    let next := s.2 ++ [.new sp.node 0 (sp.pNb * lp)]
    if sp.pB ≠ 0 then
      let (child, tree) ← s.1.childOrAdd sp.node c t
      some (tree, next ++ [.new child 0 (sp.pB * lp)])
    else some (s.1, next)
  else
    let (child, tree) ← s.1.childOrAdd sp.node c t
    some (tree, s.2 ++ [.new child 0 (sp.logTotal * lp)])

def extendPoint (frame : List S) (t : ℕ) (tokenBuf : List ℕ)
    (s : SuffixTree × List (SearchPoint S)) (sp : SearchPoint S) :
    Option (SuffixTree × List (SearchPoint S)) := do
  let tipLabel ← s.1.label sp.node
  tokenBuf.foldlM (d.extendToken frame t sp tipLabel) s

/-- The points pushed for a frame. -/
def extendBeam (frame : List S) (t : ℕ) (tokenBuf : List ℕ) (s : BeamScratch S) :
    Option (SuffixTree × List (SearchPoint S)) :=
  s.beam.foldlM (d.extendPoint frame t tokenBuf) (s.tree, [])

/-- The points in the order of their nodes, those of one node merged into the first of them. -/
def dedup (beam : List (SearchPoint S)) : List (SearchPoint S) :=
  match beam.insertionSort fun a b => a.node ≤ b.node with
  | [] => []
  | last :: rest => KeyedSums.mergeRuns SearchPoint.node SearchPoint.merged last rest

/-- The points in descending order of their combined mass. -/
def sorted (beam : List (SearchPoint S)) : List (SearchPoint S) :=
  orders.sortBy (fun a b => compareLogits ops.toFloatOps b.logTotal a.logTotal) beam

/-- The threshold and the truncation. -/
def pruned (beam : List (SearchPoint S)) : List (SearchPoint S) :=
  (match d.opts.beamThreshold, beam.head? with
    | some threshold, some best =>
      beam.filter fun sp : SearchPoint S =>
        (ops.partialCmp sp.logTotal (ops.minus best.logTotal threshold)).any Ordering.isGE
    | _, _ => beam).take d.opts.beamSize

/-- A frame without NaN. -/
def frameStep (frame : List S) (t : ℕ) (s : BeamScratch S) : Option (BeamScratch S) := do
  let (tree, next) ← d.extendBeam frame t (d.topKTokensInto ops orders frame) s
  some ⟨tree, d.pruned ops (sorted ops orders (dedup next))⟩

variable (logProbs : List S)

def frameAt (t : ℕ) : Option (List S) := slice logProbs (t * d.totalVocab) d.totalVocab

/-- One turn of the loop over the frames; the outer `none` is a panic. -/
def loopStep (t : ℕ) (s : BeamScratch S) : Option (Except DecodeError (BeamScratch S)) := do
  let frame ← d.frameAt logProbs t
  if frame.any ops.isNan then
    match d.opts.onNan with
    | .skip => some (.ok s)
    | .error => some (.error (.nanInLogits t))
    | .propagate => (d.frameStep ops orders frame t s).map .ok
  else (d.frameStep ops orders frame t s).map .ok

/-- All mass on the empty prefix. -/
def start : BeamScratch S := ⟨.reset d.vocabulary.length, [.new rootNode 1 0]⟩

/-- The scratch state after the first `t` frames. -/
def runFrames : ℕ → Option (Except DecodeError (BeamScratch S))
  | 0 => some (.ok d.start)
  | t + 1 => do
    match ← runFrames t with
    | .ok s => d.loopStep ops orders logProbs t s
    | .error e => some (.error e)

variable (strideFrames validFrames : ℕ)

/-- `decode_to_best_node`: the best node and the tree it is a node of, which is the tree of an
    earlier call where nothing is decoded (only its root is then asked for). -/
def decodeToBestNode (before : SuffixTree) : Option (Except DecodeError (ℤ × SuffixTree)) :=
  if d.vocabulary = [] ∨ validFrames = 0 ∨ d.opts.beamSize = 0 then some (.ok (rootNode, before))
  else (d.runFrames ops orders logProbs (min strideFrames validFrames)).map fun r =>
    r.map fun s => ((s.beam.head?.map SearchPoint.node).getD rootNode, s.tree)

/-- The text of one step of the walk. -/
def tokenText (label : ℕ) : String := d.vocabulary.getD label ""

def collectText (tree : SuffixTree) (node : ℤ) : Option String :=
  (tree.iterFrom node).map fun walk =>
    String.join ((walk.reverse.filter fun w => w.1 < d.vocabulary.length).map
      fun w => d.tokenText w.1)

def collectTextAndFrames (tree : SuffixTree) (node : ℤ) : Option (String × List ℕ) :=
  (tree.iterFrom node).map fun walk =>
    let kept := walk.reverse.filter fun w => w.1 < d.vocabulary.length
    (String.join (kept.map fun w => d.tokenText w.1), kept.map Prod.snd)

def decode (before : SuffixTree) : Option (Except DecodeError String) := do
  match ← d.decodeToBestNode ops orders logProbs strideFrames validFrames before with
  | .ok (node, tree) => (d.collectText tree node).map .ok
  | .error e => some (.error e)

def decodeWithTimestamps (before : SuffixTree) : Option (Except DecodeError (String × List ℕ)) := do
  match ← d.decodeToBestNode ops orders logProbs strideFrames validFrames before with
  | .ok (node, tree) => (d.collectTextAndFrames tree node).map .ok
  | .error e => some (.error e)

end BeamDecoder

end Svod.Arch.Ctc
