/-
  Svod.Arch.Rnnt

  The greedy transducer decoder (`arch/src/rnnt.rs`): one utterance at a time,
  lanes in lockstep over a shared frame index, and label looping with a frame
  index for each lane.

  The backends are deterministic and work lane by lane.  A lane has a predictor
  state function and a joint argmax; a step or a prediction leaves a tentative
  state, which `commit` promotes.  What a batched backend leaves in a lane that
  is not active is arbitrary (`junk`).  Every promotion is logged, so that the
  calls of `commit` can be spoken about.
-/

import Mathlib.Data.Fintype.Basic

namespace Svod.Arch.Rnnt

/-- `TokenEmission`. -/
structure TokenEmission where
  tokenId : ℕ
  frame : ℕ
  deriving DecidableEq, Repr

/-- `LaneDecode`: the decoded text and the emissions in order. -/
abbrev LaneDecode := String × List TokenEmission

/-- `RnntDecoder` with its options. -/
structure RnntDecoder where
  vocabulary : List String
  maxSymbolsPerStep : ℕ

namespace RnntDecoder

variable (d : RnntDecoder)

def blankId : ℕ := d.vocabulary.length

/-- A token of the vocabulary. -/
abbrev Token := Fin d.vocabulary.length

/-- An argmax over the full vocabulary, the blank included. -/
abbrev Label := Fin (d.vocabulary.length + 1)

def blank : d.Label := Fin.last _

/-- The token a label stands for; the blank stands for none. -/
def token? (k : d.Label) : Option d.Token :=
  if h : k.val < d.vocabulary.length then some ⟨k.val, h⟩ else none

def label (k : d.Token) : d.Label := k.castSucc

end RnntDecoder

/-! ## Backends -/

/-- The networks of a lane: the predictor's state function and the joint argmax.  The empty
    prefix is `none`. -/
structure Networks (d : RnntDecoder) (σ π F : Type) where
  init : σ
  predict : σ → Option d.Token → σ × π
  joint : F → π → d.Label

/-- The predictor state of a lane, with the log of the states `commit` promoted. -/
structure PredictorState (σ : Type) where
  committed : σ
  tentative : σ
  commits : List σ

section Backends

variable {d : RnntDecoder} {σ π F : Type} (net : Networks d σ π F)

/-- `JointStep::reset`. -/
def Networks.reset : PredictorState σ :=
  { committed := net.init, tentative := net.init, commits := [] }

/-- `JointStep::commit`. -/
def PredictorState.commit (p : PredictorState σ) : PredictorState σ :=
  { p with committed := p.tentative, commits := p.commits ++ [p.tentative] }

/-- `JointStep::step`, from the committed state. -/
def Networks.step (p : PredictorState σ) (encoderFrame : F) (prev : Option d.Token) :
    PredictorState σ × d.Label :=
  let (tentative, out) := net.predict p.committed prev
  ({ p with tentative := tentative }, net.joint encoderFrame out)

/-- A batched backend: its networks, the encoder frames bound to the lanes, and what it leaves
    in lanes that are not active, by the number of the call. -/
structure Backend (d : RnntDecoder) (σ π F : Type) (lanes : ℕ) where
  net : Networks d σ π F
  frames : Fin lanes → ℕ → F
  junk : ℕ → Fin lanes → σ × d.Label

/-- The state of a batched backend; `output` is what the last prediction left for the joint. -/
structure BackendState (σ π : Type) (lanes : ℕ) where
  predictors : Fin lanes → PredictorState σ
  output : Fin lanes → Option π
  calls : ℕ

variable {lanes : ℕ} (be : Backend d σ π F lanes)

/-- `BatchJointStep::reset` and `BatchLabelStep::reset`. -/
def Backend.reset : BackendState σ π lanes :=
  { predictors := fun _ => be.net.reset, output := fun _ => none, calls := 0 }

/-- `BatchJointStep::commit` and `BatchLabelStep::commit`. -/
def BackendState.commit (s : BackendState σ π lanes) (mask : Fin lanes → Bool) :
    BackendState σ π lanes :=
  { s with predictors := fun i => if mask i then (s.predictors i).commit else s.predictors i }

/-- `BatchJointStep::step` at the shared frame `t`. -/
def Backend.step (s : BackendState σ π lanes) (t : ℕ) (prev : Fin lanes → d.Label)
    (active : Fin lanes → Bool) : BackendState σ π lanes × (Fin lanes → d.Label) :=
  let stepped i := be.net.step (s.predictors i) (be.frames i t) (d.token? (prev i))
  ({ s with
      predictors := fun i =>
        if active i then (stepped i).1
        else { s.predictors i with tentative := (be.junk s.calls i).1 }
      calls := s.calls + 1 },
    fun i => if active i then (stepped i).2 else (be.junk s.calls i).2)

/-- `BatchLabelStep::predict`, on every lane. -/
def Backend.predict (s : BackendState σ π lanes) (prev : Fin lanes → d.Label) :
    BackendState σ π lanes :=
  let predicted i := be.net.predict (s.predictors i).committed (d.token? (prev i))
  { s with
    predictors := fun i => { s.predictors i with tentative := (predicted i).1 }
    output := fun i => some (predicted i).2 }

/-- `BatchLabelStep::joint` at the frames of the lanes, against the last prediction. -/
def Backend.joint (s : BackendState σ π lanes) (t : Fin lanes → ℕ) (active : Fin lanes → Bool) :
    BackendState σ π lanes × (Fin lanes → d.Label) :=
  ({ s with calls := s.calls + 1 },
    fun i =>
      match active i, s.output i with
      | true, some out => be.net.joint (be.frames i (t i)) out
      | _, _ => (be.junk s.calls i).2)

end Backends

/-! ## One utterance -/

/-- The text, the emissions and the last token of a search. -/
structure Search (d : RnntDecoder) where
  text : String
  emissions : List TokenEmission
  prev : Option d.Token

namespace Search

variable {d : RnntDecoder}

def start : Search d := { text := "", emissions := [], prev := none }

/-- Emit token `k` at frame `t`. -/
def emit (s : Search d) (t : ℕ) (k : d.Token) (keepEmissions : Bool) : Search d :=
  { text := s.text ++ d.vocabulary[k]
    emissions := if keepEmissions then s.emissions ++ [⟨k, t⟩] else s.emissions
    prev := some k }

end Search

section Single

variable {σ π F : Type} (d : RnntDecoder) (net : Networks d σ π F) (encoderFrames : ℕ → F)

/-- The inner loop of `decode_inner` at frame `t`, with `n` symbols left. -/
def decodeFrame (t : ℕ) (keepEmissions : Bool) :
    ℕ → Search d × PredictorState σ → Search d × PredictorState σ
  | 0, s => s
  | n + 1, (s, p) =>
    let (p, k) := net.step p (encoderFrames t) s.prev
    match d.token? k with
    | none => (s, p)
    | some k => decodeFrame t keepEmissions n (s.emit t k keepEmissions, p.commit)

/-- `decode_inner`.  The frames are the rows of `encoder_frames`. -/
def decodeInner (strideFrames validFrames : ℕ) (keepEmissions : Bool) (p : PredictorState σ) :
    LaneDecode × PredictorState σ :=
  if d.vocabulary = [] ∨ validFrames = 0 then (("", []), p)
  else
    let nFrames := min strideFrames validFrames
    let (s, p) := (List.range nFrames).foldl
      (fun s t => decodeFrame d net encoderFrames t keepEmissions d.maxSymbolsPerStep s)
      (Search.start, net.reset)
    ((s.text, s.emissions), p)

/-- `decode_with_timestamps`. -/
def decodeWithTimestamps (strideFrames validFrames : ℕ) (p : PredictorState σ) :
    LaneDecode × PredictorState σ :=
  decodeInner d net encoderFrames strideFrames validFrames true p

end Single

/-! ## Lockstep -/

section Batch

variable {σ π F : Type} {lanes : ℕ} (d : RnntDecoder) (be : Backend d σ π F lanes)
  (validFrames : List ℕ)

/-- Lane `i` is an item of the call and has frame `t`. -/
def hasFrame (i : Fin lanes) (t : ℕ) : Bool :=
  i.val < validFrames.length ∧ t < validFrames.getD i 0

/-- The locals of `decode_batch`.  `texts` and `emissions` of the lanes past the items stay
    empty. -/
structure BatchState (d : RnntDecoder) (σ π : Type) (lanes : ℕ) where
  texts : Fin lanes → String
  emissions : Fin lanes → List TokenEmission
  prev : Fin lanes → d.Label
  active : Fin lanes → Bool
  commitLanes : Fin lanes → Bool
  backend : BackendState σ π lanes

/-- What lane `i` emits on the outputs of a step: the token of an item that is active. -/
def BatchState.emitted (s : BatchState d σ π lanes) (out : Fin lanes → d.Label)
    (i : Fin lanes) : Option d.Token :=
  if i.val < validFrames.length ∧ s.active i then d.token? (out i) else none

/-- One pass of the inner loop of `decode_batch` at frame `t`. -/
def batchRound (t : ℕ) (s : BatchState d σ π lanes) : BatchState d σ π lanes :=
  let (backend, out) := be.step s.backend t s.prev s.active
  let emitted := s.emitted d validFrames out
  let commitLanes i :=
    if i.val < validFrames.length then (emitted i).isSome else s.commitLanes i
  { texts := fun i => (emitted i).elim (s.texts i) fun k => s.texts i ++ d.vocabulary[k]
    emissions := fun i => (emitted i).elim (s.emissions i) fun k => s.emissions i ++ [⟨k, t⟩]
    prev := fun i => (emitted i).elim (s.prev i) d.label
    active := fun i => s.active i && (!decide (i.val < validFrames.length) || (emitted i).isSome)
    commitLanes := commitLanes
    backend := if ∃ i, (emitted i).isSome then backend.commit commitLanes else backend }

/-- The inner loop of `decode_batch`, with `n` symbols left. -/
def symbolLoop (t : ℕ) : ℕ → BatchState d σ π lanes → BatchState d σ π lanes
  | 0, s => s
  | n + 1, s =>
    if ∃ i, s.active i then symbolLoop t n (batchRound d be validFrames t s) else s

/-- The locals of `decode_batch` after `step.reset()`. -/
def BatchState.start : BatchState d σ π lanes :=
  { texts := fun _ => ""
    emissions := fun _ => []
    prev := fun _ => d.blank
    active := fun _ => false
    commitLanes := fun _ => false
    backend := be.reset }

/-- The loop of `decode_batch` over the first `n` shared frames. -/
def frameLoop (n : ℕ) : BatchState d σ π lanes :=
  (List.range n).foldl
    (fun s t => symbolLoop d be validFrames t d.maxSymbolsPerStep
      { s with active := fun i => hasFrame validFrames i t })
    (BatchState.start d be)

/-- `decode_batch`, as the locals it ends with. -/
def decodeBatch : BatchState d σ π lanes :=
  -- an empty vocabulary leaves the backend untouched; a fresh one stands for it here
  if d.vocabulary = [] then BatchState.start d be
  else frameLoop d be validFrames (validFrames.foldl max 0)

end Batch

/-! ## Label looping -/

section Labels

variable {σ π F : Type} {lanes : ℕ} (d : RnntDecoder) (be : Backend d σ π F lanes)
  (validFrames : List ℕ)

/-- The locals of `decode_batch_labels`. -/
structure LabelState (d : RnntDecoder) (σ π : Type) (lanes : ℕ) where
  texts : Fin lanes → String
  emissions : Fin lanes → List TokenEmission
  prev : Fin lanes → d.Label
  time : Fin lanes → ℕ
  symbols : Fin lanes → ℕ
  backend : BackendState σ π lanes

/-- `self.opts.max_symbols_per_step.max(1)`. -/
def maxSymbols : ℕ := max d.maxSymbolsPerStep 1

/-- What lane `i` emits on the outputs of a joint round. -/
def LabelState.emitted (s : LabelState d σ π lanes) (out : Fin lanes → d.Label)
    (i : Fin lanes) : Option d.Token :=
  if hasFrame validFrames i (s.time i) then d.token? (out i) else none

/-- Lane `i` leaves its frame: on a blank, or when the frame has all its symbols. -/
def LabelState.advances (s : LabelState d σ π lanes) (emitted : Option d.Token) (i : Fin lanes) :
    Bool :=
  hasFrame validFrames i (s.time i) && (emitted.isNone || s.symbols i + 1 ≥ maxSymbols d)

/-- One pass of the loop of `decode_batch_labels`, with at least one active lane. -/
def labelRound (s : LabelState d σ π lanes) : LabelState d σ π lanes :=
  let active i := hasFrame validFrames i (s.time i)
  let (backend, out) := be.joint s.backend s.time active
  let emitted := s.emitted d validFrames out
  let advances i := s.advances d validFrames (emitted i) i
  let prev i := (emitted i).elim (s.prev i) d.label
  { texts := fun i => (emitted i).elim (s.texts i) fun k => s.texts i ++ d.vocabulary[k]
    emissions := fun i =>
      (emitted i).elim (s.emissions i) fun k => s.emissions i ++ [⟨k, s.time i⟩]
    prev := prev
    time := fun i => if advances i then s.time i + 1 else s.time i
    symbols := fun i =>
      if advances i then 0 else if active i then s.symbols i + 1 else s.symbols i
    -- the emitting lanes are promoted before the next prediction
    backend := if ∃ i, (emitted i).isSome
      then be.predict (backend.commit fun i => (emitted i).isSome) prev
      else backend }

/-- The loop of `decode_batch_labels`; `none` when it is not done after `fuel` passes. -/
def labelLoop : ℕ → LabelState d σ π lanes → Option (LabelState d σ π lanes)
  | 0, s => if ∃ i, hasFrame validFrames i (s.time i) then none else some s
  | fuel + 1, s =>
    if ∃ i, hasFrame validFrames i (s.time i) then labelLoop fuel (labelRound d be validFrames s)
    else some s

/-- The locals of `decode_batch_labels` after `step.reset()`. -/
def LabelState.start : LabelState d σ π lanes :=
  { texts := fun _ => ""
    emissions := fun _ => []
    prev := fun _ => d.blank
    time := fun _ => 0
    symbols := fun _ => 0
    backend := be.reset }

/-- `decode_batch_labels`, as the locals it ends with. -/
def decodeBatchLabels (fuel : ℕ) : Option (LabelState d σ π lanes) :=
  let s := LabelState.start d be
  if d.vocabulary = [] then some s
  else
    -- the empty-prefix prediction for the first round
    labelLoop d be validFrames fuel { s with backend := be.predict s.backend s.prev }

end Labels

end Svod.Arch.Rnnt
