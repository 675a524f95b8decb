/-
  Svod.Arch.Ctc

  The greedy CTC decoder (`arch/src/ctc.rs`): the argmax of each frame, runs of
  one label collapsed, blanks dropped.

  A decoder works from the logits at once (`decodeWithTimestamps`) or from the
  argmax labels, a run of them at a time (`collapse`, which carries the label
  before the run).
-/

import Mathlib.Data.List.Destutter

namespace Svod.Arch.Ctc

/-! ## The argmax of a frame -/

/-- What the argmax asks of the logits, `f32` in the source. -/
structure FloatOps (F : Type*) where
  partialCmp : F → F → Option Ordering
  isNan : F → Bool

section Argmax

variable {F : Type*} (ops : FloatOps F)

def compareLogits (a b : F) : Ordering :=
  (ops.partialCmp a b).getD
    (match ops.isNan a, ops.isNan b with
    | true, true => .eq
    | true, false => .lt
    | false, true => .gt
    | false, false => .eq)

/-- The argmax of a frame from its index `i` on; `top` is the logit at `best`. -/
def argmaxFrom (best : ℕ) (top : F) (i : ℕ) : List F → ℕ
  | [] => best
  | v :: frame =>
    if (compareLogits ops v top).isGT then argmaxFrom i v (i + 1) frame
    else argmaxFrom best top (i + 1) frame

def argmaxNanSafe : List F → ℕ
  | [] => 0
  | v :: frame => argmaxFrom ops 0 v 1 frame

theorem argmaxFrom_lt (frame : List F) {best i : ℕ} (top : F) (hbest : best < i) :
    argmaxFrom ops best top i frame < i + frame.length := by
  induction frame generalizing best top i with
  | nil => exact hbest
  | cons v frame ih =>
    rw [argmaxFrom, List.length_cons, ← Nat.add_assoc, Nat.add_right_comm]
    split
    · exact ih v (Nat.lt_succ_self i)
    · exact ih top (Nat.lt_succ_of_lt hbest)

theorem argmaxNanSafe_lt {frame : List F} (hne : 0 < frame.length) :
    argmaxNanSafe ops frame < frame.length := by
  cases frame with
  | nil => exact hne
  | cons v frame =>
    rw [argmaxNanSafe, List.length_cons, Nat.add_comm]
    exact argmaxFrom_lt ops frame v Nat.one_pos

/-- The slice of `len` elements at `base`, if the list has them. -/
def slice (xs : List F) (base len : ℕ) : Option (List F) :=
  if base + len ≤ xs.length then some ((xs.drop base).take len) else none

end Argmax

/-! ## The decoder -/

structure GreedyDecoder where
  vocabulary : List String

namespace GreedyDecoder

variable (d : GreedyDecoder)

def blankId : ℕ := d.vocabulary.length

def totalVocab : ℕ := d.vocabulary.length + 1

/-- One label of `collapse`: a token and its index are emitted when the label is neither the blank
    nor the label before it. -/
def collapseStep (s : List (ℕ × ℕ) × ℕ) (label : ℕ × ℕ) : List (ℕ × ℕ) × ℕ :=
  (if label.1 < d.blankId ∧ label.1 ≠ s.2 then s.1 ++ [label] else s.1, label.1)

/-- `collapse`: the emissions of a run of labels and the label to carry on. -/
def collapse (labels : List ℕ) (prev : ℕ) : List (ℕ × ℕ) × ℕ :=
  labels.zipIdx.foldl d.collapseStep ([], prev)

/-- The runs of a stream fed one after the other, with the label carried and the positions
    counted from the start of the stream. -/
def collapseRuns (start prev : ℕ) : List (List ℕ) → List (ℕ × ℕ) × ℕ
  | [] => ([], prev)
  | run :: runs =>
    let (out, carried) := d.collapse run prev
    let (rest, last) := collapseRuns (start + run.length) carried runs
    (out.map (fun e => (e.1, start + e.2)) ++ rest, last)

section Logits

variable {F : Type*} (ops : FloatOps F) (logProbs : List F) (strideFrames validFrames : ℕ)

/-- The argmax label of frame `t`. -/
def frameLabel (t : ℕ) : Option ℕ :=
  (slice logProbs (t * d.totalVocab) d.totalVocab).map (argmaxNanSafe ops)

/-- One frame of `decode_inner`: the previous label, the text and the frames kept. -/
def decodeStep (keepFrames : Bool) (s : ℕ × String × List ℕ) (t : ℕ) :
    Option (ℕ × String × List ℕ) := do
  let best ← d.frameLabel ops logProbs t
  if best ≠ d.blankId ∧ best ≠ s.1 then
    let token ← d.vocabulary[best]?
    some (best, s.2.1 ++ token, if keepFrames then s.2.2 ++ [t] else s.2.2)
  else some (best, s.2)

/-- `decode_inner`; `none` is a slice past the end of the slab. -/
def decodeInner (keepFrames : Bool) : Option (String × List ℕ) :=
  if d.vocabulary = [] ∨ validFrames = 0 then some ("", [])
  else
    ((List.range (min strideFrames validFrames)).foldlM (d.decodeStep ops logProbs keepFrames)
      (d.blankId, "", [])).map Prod.snd

def decode : Option String :=
  (d.decodeInner ops logProbs strideFrames validFrames false).map Prod.fst

def decodeWithTimestamps : Option (String × List ℕ) :=
  d.decodeInner ops logProbs strideFrames validFrames true

def argmaxPerFrame : Option (List ℕ) :=
  (List.range (min strideFrames validFrames)).mapM (d.frameLabel ops logProbs)

end Logits

/-- The labels of a sequence with their positions, runs collapsed to their first label. -/
def runStarts (labels : List ℕ) : List (ℕ × ℕ) :=
  labels.zipIdx.destutter fun a b => a.1 ≠ b.1

/-- The text of a list of tokens. -/
def text (tokens : List ℕ) : String :=
  String.join (tokens.map fun k => d.vocabulary.getD k "")

end GreedyDecoder

end Svod.Arch.Ctc
