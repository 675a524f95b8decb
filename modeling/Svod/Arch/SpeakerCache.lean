/-
  Svod.Arch.SpeakerCache

  The speaker cache of the streaming diarizer (`arch/src/diarization/cache.rs`):
  the frames of a chunk join the FIFO, its oldest frames move to the cache when
  it overflows, and an overflowing cache is compressed to the frames that score
  best for each speaker.

  The cache has no embeddings: `layout` says which rows of the step just run
  make up the next context.  Scores are of any type `F` with the operations of
  `f32`; its order is the one of `total_cmp`.
-/

import Mathlib.Algebra.Order.Monoid.Unbundled.WithTop
import Mathlib.Data.List.Sort

namespace Svod.Arch.Diarization

/-- The `f32` operations of the scores. -/
structure ScoreOps (F : Type) where
  zero : F
  half : F
  one : F
  negInf : F
  posInf : F
  add : F → F → F
  sub : F → F → F
  mul : F → F → F
  neg : F → F
  max : F → F → F
  ln : F → F
  lt : F → F → Bool
  le : F → F → Bool
  isFinite : F → Bool
  ofUsize : ℕ → F
  /-- `floor() as usize`. -/
  floor : F → ℕ

structure Config (F : Type) where
  numSpeakers : ℕ
  cacheLen : ℕ
  fifoLen : ℕ
  updatePeriod : ℕ
  silenceFramesPerSpeaker : ℕ
  scoreThreshold : F
  latestFramesBoost : F
  strongBoostRate : F
  weakBoostRate : F
  minPositiveRate : F

/-- Where a row of the next context comes from. -/
inductive ContextRow
  | step (row : ℕ)
  | silence
  deriving DecidableEq, Repr

inductive Error
  | invalidCacheConfig (reason : String)
  | invalidUpdate (reason : String)
  deriving DecidableEq, Repr

structure SpeakerCache (F : Type) where
  config : Config F
  minPositive : ℕ
  strongBoosted : ℕ
  weakBoosted : ℕ
  /-- The next context: cache rows, then FIFO rows. -/
  layout : List ContextRow
  cacheFrames : ℕ
  /-- The probabilities of the cache rows, `numSpeakers` for each. -/
  probs : List F
  compressed : Bool

section

variable {F : Type} (ops : ScoreOps F)

namespace Config

variable (config : Config F)

/-- The cache slots of one speaker without its silence slots. -/
def budget : ℕ := config.cacheLen / config.numSpeakers - config.silenceFramesPerSpeaker

def validate : Except Error Unit := do
  unless 0 < config.numSpeakers do
    throw (.invalidCacheConfig "num_speakers must be positive")
  unless config.silenceFramesPerSpeaker < config.cacheLen / config.numSpeakers do
    throw (.invalidCacheConfig "every speaker needs a cache slot besides its silence slots")
  for rate in [config.strongBoostRate, config.weakBoostRate, config.minPositiveRate] do
    unless ops.isFinite rate && ops.le ops.zero rate do
      throw (.invalidCacheConfig "score rates must be finite and non-negative")
  unless ops.lt ops.zero config.scoreThreshold && ops.lt config.scoreThreshold ops.one do
    throw (.invalidCacheConfig "score_threshold must lie in (0, 1)")

end Config

/-- `SpeakerCache::new`. -/
def SpeakerCache.new (config : Config F) : Except Error (SpeakerCache F) := do
  config.validate ops
  let budget := ops.ofUsize config.budget
  return {
    config := config
    minPositive := ops.floor (ops.mul budget config.minPositiveRate)
    strongBoosted := ops.floor (ops.mul budget config.strongBoostRate)
    weakBoosted := ops.floor (ops.mul budget config.weakBoostRate)
    layout := []
    cacheFrames := 0
    probs := []
    compressed := false }

/-- Row `i` of a row-major matrix of `width` columns. -/
def rowOf (width : ℕ) (xs : List F) (i : ℕ) : List F := (xs.drop (i * width)).take width

namespace SpeakerCache

variable (c : SpeakerCache F)

def fifoFrames : ℕ := c.layout.length - c.cacheFrames

/-- The frames that move to the cache: none until the FIFO overflows, then at least
    `updatePeriod` and as many as restore its capacity. -/
def poppedFrames (queued : ℕ) : ℕ :=
  if queued ≤ c.config.fifoLen then 0
  else min (max c.config.updatePeriod (queued - c.config.fifoLen)) queued

/-! ## Scores -/

/-- The scores of one frame. -/
def scoreRow (row : List F) : List F :=
  let threshold := c.config.scoreThreshold
  let halfLog := ops.ln ops.half
  let complement := fun p => ops.ln (ops.max (ops.sub ops.one p) threshold)
  let complements := (row.map complement).foldl ops.add ops.zero
  row.map fun p =>
    if ops.lt ops.half p then
      ops.sub (ops.add (ops.sub (ops.ln (ops.max p threshold)) (complement p)) complements) halfLog
    else ops.negInf

/-- For a speaker with enough positive frames, drop the others. -/
def dropNonPositive (scores : List F) (speaker : ℕ) : List F :=
  let speakers := c.config.numSpeakers
  let column := (scores.zipIdx.filter fun e => e.2 % speakers = speaker).map Prod.fst
  if c.minPositive ≤ (column.filter fun s => ops.lt ops.zero s).length then
    scores.mapIdx fun i s =>
      if i % speakers = speaker ∧ ops.le s ops.zero then ops.negInf else s
  else scores

/-- `frame_scores` of the probabilities. -/
def frameScores (probs : List F) : List F :=
  let speakers := c.config.numSpeakers
  let scores := (List.range (probs.length / speakers)).flatMap fun f =>
    c.scoreRow ops (rowOf speakers probs f)
  (List.range speakers).foldl (c.dropNonPositive ops) scores

/-! ## Compression -/

section Compress

variable [LinearOrder F]

/-- `descending` as the order of a ranking: the highest score first, then the earlier index. -/
def ranked (score : ℕ → F) (i j : ℕ) : Bool :=
  decide (score j < score i ∨ (score i = score j ∧ i ≤ j))

/-- The first `count` indices below `n` of a ranking. -/
def selectTop (score : ℕ → F) (n count : ℕ) : List ℕ :=
  ((List.range n).mergeSort (ranked score)).take count

/-- Boost the best `count` frames of a speaker. -/
def boostTop (frames speaker : ℕ) (scores : List F) (boost : ℕ × F) : List F :=
  let speakers := c.config.numSpeakers
  let score := fun f => scores.getD (f * speakers + speaker) ops.zero
  (selectTop score frames (min boost.1 frames)).foldl
    (fun scores frame => scores.modify (frame * speakers + speaker) fun s => ops.add s boost.2)
    scores

/-- The boosted scores of the frames of an overflowing cache. -/
def boostedScores (frames : ℕ) (probs : List F) : List F :=
  let scores := (c.frameScores ops probs).mapIdx fun i s =>
    if c.config.cacheLen * c.config.numSpeakers ≤ i then ops.add s c.config.latestFramesBoost
    else s
  let halfLog := ops.ln ops.half
  let two := ops.add ops.one ops.one
  (List.range c.config.numSpeakers).foldl
    (fun scores speaker =>
      [(c.strongBoosted, ops.mul (ops.neg two) halfLog), (c.weakBoosted, ops.neg halfLog)].foldl
        (c.boostTop ops frames speaker) scores)
    scores

/-- The score of a flat speaker-major index; the silence slots of a speaker come after its
    frames. -/
def flatScore (frames scored : ℕ) (scores : List F) (i : ℕ) : F :=
  if i % scored < frames then
    scores.getD (i % scored * c.config.numSpeakers + i / scored) ops.zero
  else ops.posInf

/-- The flat indices that are kept, in order; `⊤` stands for `usize::MAX`, a slot that no frame
    deserves. -/
def keptIndices (frames : ℕ) (probs : List F) : List (WithTop ℕ) :=
  let scored := frames + c.config.silenceFramesPerSpeaker
  let flat := c.flatScore ops frames scored (c.boostedScores ops frames probs)
  let total := scored * c.config.numSpeakers
  let kept := selectTop flat total (min c.config.cacheLen total)
  (kept.map fun i => if flat i = ops.negInf then (⊤ : WithTop ℕ) else (i : WithTop ℕ)).mergeSort
    fun a b => decide (a ≤ b)

/-- The frame of a kept index, `frames` for a silence. -/
def frameOf (frames : ℕ) : WithTop ℕ → ℕ
  | ⊤ => frames
  | (index : ℕ) => min (index % (frames + c.config.silenceFramesPerSpeaker)) frames

/-- `compress`: the rows and the probabilities that are kept. -/
def compress (rows : List ContextRow) (probs : List F) : List ContextRow × List F :=
  let frames := rows.length
  let kept := (c.keptIndices ops frames probs).map (c.frameOf frames)
  (kept.map fun f => if f < frames then rows.getD f .silence else .silence,
    kept.flatMap fun f =>
      if f < frames then rowOf c.config.numSpeakers probs f
      else List.replicate c.config.numSpeakers ops.zero)

/-- `update`; an error leaves the state as it was.  The chunk is short enough for the frames of
    the FIFO and the chunk to be a `usize`. -/
def update (numChunk : ℕ) (probs : List F) : Except Error (SpeakerCache F) :=
  let speakers := c.config.numSpeakers
  let numCache := c.cacheFrames
  let queued := c.fifoFrames + numChunk
  if ¬ (probs.length % speakers = 0 ∧ numCache + queued ≤ probs.length / speakers) then
    .error (.invalidUpdate (toString probs.length ++ " probabilities do not cover the " ++
      toString (numCache + queued) ++ " cached and chunk frames"))
  else
    let popped := c.poppedFrames queued
    let cache := (List.range (numCache + popped)).map ContextRow.step
    let fifo := (List.range' (numCache + popped) (queued - popped)).map ContextRow.step
    if popped = 0 then
      .ok { c with layout := cache ++ fifo, cacheFrames := cache.length }
    else
      -- an uncompressed cache holds plain past frames, which this step estimates again
      let old := if c.compressed then c.probs else probs.take (numCache * speakers)
      let moved := (probs.drop (numCache * speakers)).take (popped * speakers)
      if c.config.cacheLen < cache.length then
        let (rows, kept) := c.compress ops cache (old ++ moved)
        .ok { c with
          layout := rows ++ fifo, cacheFrames := rows.length, probs := kept, compressed := true }
      else .ok { c with
        layout := cache ++ fifo, cacheFrames := cache.length, probs := old ++ moved }

end Compress

end SpeakerCache

end

end Svod.Arch.Diarization
