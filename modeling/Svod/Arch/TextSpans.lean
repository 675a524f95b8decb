/-
  Svod.Arch.TextSpans

  Decoding the tokens of a text (`arch/src/pipelines/text.rs`): labels grouped
  into entities, per-label scores, and the document forms of both that merge the
  windows of one text.

  Confidences and logits are elements of a linear order and of a linearly
  ordered field, `f32` in the source.
-/

import Mathlib.Algebra.Order.Field.Basic
import Mathlib.Data.List.Sort
import Svod.Arch.TextChunks

namespace Svod.Arch.Text

/-! ## Labels -/

inductive Scheme where
  | bio
  | bilou
  | iobes
  | flat
deriving DecidableEq

/-- `Prefix`. -/
inductive TagPrefix where
  | o
  | b
  | i
  | l
  | u
  | e
  | s
deriving DecidableEq

/-- `split_once` at the first hyphen. -/
def splitOnce (label : String) : Option (String × String) :=
  match label.toList.dropWhile (· ≠ '-') with
  | [] => none
  | _ :: rest => some (String.ofList (label.toList.takeWhile (· ≠ '-')), String.ofList rest)

/-- A tag's prefix and type; what is no tag of the scheme begins a span of the whole label. -/
def parseTag (label : String) (scheme : Scheme) : TagPrefix × Option String :=
  let (p, t) := match splitOnce label with
    | some (p, t) => (p, some t)
    | none => (label, none)
  if p = "O" then (.o, t)
  else if p = "B" then (.b, t)
  else if p = "I" then (.i, t)
  else if p = "L" ∧ scheme = .bilou then (.l, t)
  else if p = "U" ∧ scheme = .bilou then (.u, t)
  else if p = "E" ∧ scheme = .iobes then (.e, t)
  else if p = "S" ∧ scheme = .iobes then (.s, t)
  else (.b, some label)

/-- A content token's prediction. -/
structure TokenLabel (S : Type) where
  labelId : ℕ
  label : String
  start : ℕ
  stop : ℕ
  tokenIndex : ℕ
  score : S
deriving DecidableEq

structure Entity (S : Type) where
  label : String
  labelId : ℕ
  start : ℕ
  stop : ℕ
  tokenRange : Range
  score : S
deriving DecidableEq

/-! ## Grouping labels into entities -/

section Grouping

variable {S : Type} [LinearOrder S]

def single (t : TokenLabel S) (label : String) : Entity S where
  label := label
  labelId := t.labelId
  start := t.start
  stop := t.stop
  tokenRange := ⟨t.tokenIndex, t.tokenIndex + 1⟩
  score := t.score

def extendSpan (span : Entity S) (t : TokenLabel S) : Entity S :=
  { span with
    stop := t.stop
    tokenRange := ⟨span.tokenRange.start, t.tokenIndex + 1⟩
    score := min span.score t.score }

/-- The type of a token's tag, the label where the tag has none. -/
def typeOf (scheme : Scheme) (t : TokenLabel S) : String := (parseTag t.label scheme).2.getD t.label

/-- One token of `group_spans`: the entities so far and the open one. -/
def groupStep (scheme : Scheme) (s : List (Entity S) × Option (Entity S)) (t : TokenLabel S) :
    List (Entity S) × Option (Entity S) :=
  let typ := typeOf scheme t
  let closed := s.1 ++ s.2.toList
  -- the open span that the token continues
  let continued := s.2.filter fun e => e.label = typ
  match (parseTag t.label scheme).1, continued with
  | .o, _ => (closed, none)
  | .b, _ => (closed, some (single t typ))
  | .u, _ | .s, _ => (closed ++ [single t typ], none)
  | .i, some span => (s.1, some (extendSpan span t))
  | .i, none => (closed, some (single t typ))
  | .l, some span | .e, some span => (s.1 ++ [extendSpan span t], none)
  | .l, none | .e, none => (closed ++ [single t typ], none)

def groupSpans (tokens : List (TokenLabel S)) (scheme : Scheme) : List (Entity S) :=
  if scheme = .flat then tokens.map fun t => single t t.label
  else
    let s := tokens.foldl (groupStep scheme) ([], none)
    s.1 ++ s.2.toList

/-- By token, the highest confidence first. -/
def tokenLe (a b : TokenLabel S) : Prop :=
  a.tokenIndex < b.tokenIndex ∨ a.tokenIndex = b.tokenIndex ∧ b.score ≤ a.score

instance (a b : TokenLabel S) : Decidable (tokenLe a b) :=
  inferInstanceAs (Decidable (_ ∨ _ ∧ _))

/-- The tokens of all windows, each once: `sort_by` is stable, and `dedup_by_key` keeps the first of
    neighbours with one index. -/
def mergeWindows (perChunk : List (List (TokenLabel S))) : List (TokenLabel S) :=
  (perChunk.flatten.insertionSort tokenLe).destutter fun a b => a.tokenIndex ≠ b.tokenIndex

def groupSpansDocument (perChunk : List (List (TokenLabel S))) (scheme : Scheme) : List (Entity S) :=
  groupSpans (mergeWindows perChunk) scheme

end Grouping

/-! ## Scores of independent labels -/

section Scores

variable {K : Type} [Field K] [LinearOrder K]

inductive WindowWeighting where
  | uniform
  | hat
deriving DecidableEq

/-- The weight of the `k`-th of a window's `n` content tokens. -/
def WindowWeighting.weight (weighting : WindowWeighting) (k n : ℕ) : K :=
  if weighting = .hat ∧ 1 < n then
    let half : K := 1 - 1 / n
    1 - |2 * half * k / ((n - 1 : ℕ) : K) - half|
  else 1

structure ChunkTokenClassification (K : Type) where
  firstToken : ℕ
  logits : List K
  numLabels : ℕ
  tokenOffsets : List (ℕ × ℕ)
  specialTokensMask : List ℕ
  content : Option Range

/-- `content`, or the run between the boundary specials. -/
def ChunkTokenClassification.contentRange (chunk : ChunkTokenClassification K) : Range :=
  chunk.content.getD
    (let (lead, trail) := boundarySpecials chunk.specialTokensMask
    ⟨lead, chunk.specialTokensMask.length - trail⟩)

/-- `chunks_exact`: the rows of `n` elements, without what is left over. -/
def chunksExact {α : Type} (xs : List α) (n : ℕ) : List (List α) :=
  (List.range (xs.length / n)).map fun i => (xs.drop (i * n)).take n

structure TokenScores (K : Type) where
  numLabels : ℕ
  tokens : List (ℕ × (ℕ × ℕ))
  probs : List K

/-- `TokenScores::default()`. -/
def TokenScores.empty : TokenScores K := ⟨0, [], []⟩

/-- `iter`: the index, the byte span and the probabilities of each token. -/
def TokenScores.iter (scores : TokenScores K) : List (ℕ × (ℕ × ℕ) × List K) :=
  (scores.tokens.zip (chunksExact scores.probs (max scores.numLabels 1))).map
    fun p => (p.1.1, p.1.2, p.2)

inductive DocumentError where
  | raggedLabels (window labels first : ℕ)
deriving DecidableEq

/-- Per source token: the weighted logits of each label in one flat list, the weights, and the byte
    spans. -/
structure Sums (K : Type) where
  sums : List K
  weights : List K
  spans : List (ℕ × ℕ)

/-- The row, the special mask and the byte span of each token of a window. -/
def ChunkTokenClassification.rows (chunk : ChunkTokenClassification K) :
    List (((List K × ℕ) × (ℕ × ℕ)) × ℕ) :=
  (((chunksExact chunk.logits chunk.numLabels).zip chunk.specialTokensMask).zip
    chunk.tokenOffsets).zipIdx

/-- A content token added at its place `i`, which the sums have room for. -/
def Sums.add (acc : Sums K) (numLabels i : ℕ) (w : K) (row : List K) (span : ℕ × ℕ) : Sums K where
  sums := acc.sums.mapIdx fun m sum =>
    if i * numLabels ≤ m ∧ m < i * numLabels + numLabels ∧ m - i * numLabels < row.length then
      sum + w * row.getD (m - i * numLabels) 0
    else sum
  weights := acc.weights.mapIdx fun m weight => if m = i then weight + w else weight
  spans := acc.spans.set i span

/-- One row of a window. -/
def addRow (weighting : WindowWeighting) (lo : ℕ) (chunk : ChunkTokenClassification K) (acc : Sums K)
    (r : ((List K × ℕ) × (ℕ × ℕ)) × ℕ) : Sums K :=
  let content := chunk.contentRange
  if r.1.1.2 ≠ 0 ∨ ¬ (content.start ≤ r.2 ∧ r.2 < content.stop) then acc
  else
    let k := r.2 - content.start
    acc.add chunk.numLabels (chunk.firstToken + k - lo) (weighting.weight k content.len) r.1.1.1 r.1.2

/-- The loop over the windows; `window` counts them. -/
def addWindows (weighting : WindowWeighting) (lo numLabels : ℕ) (acc : Sums K) (window : ℕ) :
    List (ChunkTokenClassification K) → Except DocumentError (Sums K)
  | [] => .ok acc
  | chunk :: chunks =>
    if chunk.numLabels = numLabels then
      addWindows weighting lo numLabels (chunk.rows.foldl (addRow weighting lo chunk) acc)
        (window + 1) chunks
    else .error (.raggedLabels window chunk.numLabels numLabels)

/-- The rows of the tokens with a weight. -/
def finish (sigmoid : K → K) (lo numLabels : ℕ) (acc : Sums K) : TokenScores K :=
  let kept := acc.weights.zipIdx.filter fun p => 0 < p.1
  { numLabels
    tokens := kept.map fun p => (lo + p.2, acc.spans.getD p.2 (0, 0))
    probs := kept.flatMap fun p =>
      ((acc.sums.drop (p.2 * numLabels)).take numLabels).map fun sum => sigmoid (sum / p.1) }

def tokenScoresDocument (sigmoid : K → K) (chunks : List (ChunkTokenClassification K))
    (weighting : WindowWeighting) : Except DocumentError (TokenScores K) :=
  match (chunks.head?.map fun c => c.numLabels).filter fun nl => 0 < nl with
  | none => .ok .empty
  | some numLabels =>
    let lo := (chunks.map fun c => c.firstToken).min?.getD 0
    let hi := (chunks.map fun c => c.firstToken + c.contentRange.len).max?.getD 0
    (addWindows weighting lo numLabels
      ⟨List.replicate ((hi - lo) * numLabels) 0, List.replicate (hi - lo) 0,
        List.replicate (hi - lo) (0, 0)⟩ 0 chunks).map (finish sigmoid lo numLabels)

end Scores

end Svod.Arch.Text
