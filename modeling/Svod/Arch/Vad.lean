/-
  Svod.Arch.Vad

  The chunker of long audio (`arch/src/vad/mod.rs`, `arch/src/vad/segment.rs`):
  speech runs from the probabilities of a voice activity detector, the split of
  runs over the hard limit at troughs, the packing of runs into chunks, and the
  conversion to samples with pre-roll, padding and alignment.

  Probabilities are of any linear order `P` and durations of any linear order
  `D`; `toProbs` is the count of probabilities in a duration,
  `(d * probs_per_sec).ceil()`, of which only the monotony is used.  Indices and
  samples are below `usize::MAX`; the bound on a chunk is summed from the options
  alone and is checked.
-/

import Mathlib.Algebra.Order.Ring.Nat
import Mathlib.Data.List.MinMax
import Svod.Lib.Intervals

namespace Svod.Arch.Vad

/-- `ChunkerOpts` but for the sample rate, which is in `toProbs`. -/
structure ChunkerOpts (P D : Type*) where
  samplesPerProb : ℕ
  threshold : P
  minDuration : D
  maxDuration : D
  targetDuration : Option D
  strictLimitDuration : D
  minSpeechProbs : ℕ
  minSilenceProbs : ℕ
  mergeGapProbs : ℕ
  troughSearchProbs : Option ℕ
  troughThreshold : Option P
  padSamples : ℕ
  prerollSamples : ℕ
  alignTo : ℕ
  maxTotalSamples : Option ℕ

/-- `AudioChunk`: the core that owns the text and the window that is decoded. -/
structure AudioChunk where
  startSample : ℕ
  endSample : ℕ
  decodeStartSample : ℕ
  decodeEndSample : ℕ
  deriving DecidableEq, Repr

def AudioChunk.decodeLen (c : AudioChunk) : ℕ := c.decodeEndSample - c.decodeStartSample

/-- `Error`. -/
inductive Error (D : Type*)
  | zeroSamplesPerProb
  | zeroAlignTo
  | minExceedsMax (min max : D)
  | maxExceedsStrict (max strict : D)
  | targetNonPositive (target : D)

/-- The result of an operation on `usize` numbers, where it is one. -/
def usize (n : ℕ) : Option ℕ := if n < 2 ^ 64 then some n else none

/-- `strict_chunk_sample_bound`; it returns no bound where an operation overflows. -/
def strictChunkSampleBound (strictLimitProbs troughRadius samplesPerProb padSamples alignTo : ℕ) :
    Option ℕ := do
  let probs ← usize (strictLimitProbs + (← usize (2 * troughRadius)))
  let padded ← usize ((← usize (probs * samplesPerProb)) + (← usize (2 * padSamples)))
  usize (padded + (← usize (2 * alignTo)))

/-- A hard limit or a radius without end leaves no bound. -/
example : strictChunkSampleBound (2 ^ 64 - 1) 4 512 0 1 = none ∧
    strictChunkSampleBound 4 (2 ^ 64 - 1) 512 0 1 = none := by decide

/-! ## Speech runs -/

section ThresholdSegments

variable {P : Type*} [LinearOrder P] (threshold : P) (minSpeech minSilence mergeGap : ℕ)

/-- The runs of speech from index `i` on; `start` is where the current one began and `silence`
    counts the frames below the threshold since its last speech. -/
def scan (i : ℕ) (start : Option ℕ) (silence : ℕ) : List P → List (ℕ × ℕ)
  | [] =>
    match start with
    | some s => if minSpeech ≤ i - s then [(s, i)] else []
    | none => []
  | p :: probs =>
    if threshold ≤ p then scan (i + 1) (some (start.getD i)) 0 probs
    else
      match start with
      | none => scan (i + 1) none silence probs
      | some s =>
        if minSilence = 0 ∨ minSilence ≤ silence + 1 then
          -- the run ends at the first frame of this silence
          let e := i + 1 - (silence + 1)
          (if s < e ∧ minSpeech ≤ e - s then [(s, e)] else []) ++ scan (i + 1) none 0 probs
        else scan (i + 1) (some s) (silence + 1) probs

/-- Merge the runs separated by at most `mergeGap` frames; `last` is the one being grown. -/
def mergeGaps (last : ℕ × ℕ) : List (ℕ × ℕ) → List (ℕ × ℕ)
  | [] => [last]
  | seg :: raw =>
    if seg.1 - last.2 ≤ mergeGap then mergeGaps (last.1, seg.2) raw
    else last :: mergeGaps seg raw

/-- `threshold_segments`. -/
def thresholdSegments (probs : List P) : List (ℕ × ℕ) :=
  match scan threshold minSpeech minSilence 0 none 0 probs with
  | [] => []
  | seg :: raw => mergeGaps mergeGap seg raw

/-- The runs with the silence knobs halved until none exceeds the limit or they are at the floor. -/
def adaptedSegments (probs : List P) (strictLimit minSilence mergeGap : ℕ) : List (ℕ × ℕ) :=
  let segs := thresholdSegments threshold minSpeech minSilence mergeGap probs
  if (∀ seg ∈ segs, seg.2 - seg.1 ≤ strictLimit) ∨ minSilence ≤ 2 then segs
  else adaptedSegments probs strictLimit (max (minSilence / 2) 2) (max (mergeGap / 2) 1)
  termination_by minSilence
  decreasing_by omega

end ThresholdSegments

/-! ## The split of long runs -/

section SplitLongRuns

variable {P : Type*} [LinearOrder P] (probs : List P)

/-- `probs[lo..=hi]`. -/
def slice (lo hi : ℕ) : List P := (probs.take (hi + 1)).drop lo

/-- `argmin` of a slice from its index `i` on. -/
def argminFrom (best : ℕ) (bestV : P) (i : ℕ) : List P → ℕ
  | [] => best
  | v :: rest =>
    if v < bestV then argminFrom i v (i + 1) rest else argminFrom best bestV (i + 1) rest

def argmin : List P → ℕ
  | [] => 0
  | v :: rest => argminFrom 0 v 1 rest

/-- The indices of a slice that are below the trough threshold. -/
def troughs (t : P) (lo hi : ℕ) : List ℕ :=
  ((slice probs lo hi).zipIdx.filter fun e => decide (e.1 < t)).map Prod.snd

def absDiff (a b : ℕ) : ℕ := (a - b) + (b - a)

/-- The silence frame in the legal range that is closest to the target. -/
def troughSplit (troughThreshold : Option P) (loWide hiWide target : ℕ) : Option ℕ :=
  troughThreshold.bind fun t =>
    if hiWide < loWide then none
    else
      ((troughs probs t loWide hiWide).argmin fun i => absDiff (loWide + i) target).map
        fun i => loWide + i

/-- The place of split `k` of a run from `start` to `stop` in `n` pieces, `cur` being the one
    before. -/
def splitAt (searchRadius : ℕ) (troughThreshold : Option P) (start stop n minPiece k cur : ℕ) :
    ℕ :=
  let target := start + (stop - start) * k / n
  let loNarrow := max (target - searchRadius) (cur + minPiece)
  let hiFloor := stop - (n - k) * minPiece
  let hiNarrow := min (target + searchRadius) (hiFloor - 1)
  match troughSplit probs troughThreshold (cur + minPiece) (hiFloor - 1) target with
  | some s => s
  | none =>
    if loNarrow ≤ hiNarrow then loNarrow + argmin (slice probs loNarrow hiNarrow)
    else max (cur + minPiece) (min target (max (hiFloor - 1) (cur + minPiece)))

/-- The pieces from `cur` on, with `left` splits to make. -/
def pieces (searchRadius : ℕ) (troughThreshold : Option P) (start stop n minPiece : ℕ) :
    ℕ → ℕ → List (ℕ × ℕ)
  | 0, cur => if cur < stop then [(cur, stop)] else []
  | left + 1, cur =>
    let k := n - (left + 1)
    let split := splitAt probs searchRadius troughThreshold start stop n minPiece k cur
    if cur < split ∧ split < stop then
      (cur, split) :: pieces searchRadius troughThreshold start stop n minPiece left split
    else pieces searchRadius troughThreshold start stop n minPiece left cur

/-- One run of `split_long_runs`. -/
def splitRun (searchRadius : ℕ) (troughThreshold : Option P) (strictLimit : ℕ) (seg : ℕ × ℕ) :
    List (ℕ × ℕ) :=
  let len := seg.2 - seg.1
  if len ≤ strictLimit then [seg]
  else
    -- `len.div_ceil(strict_limit)` pieces, none shorter than half the mean
    let n := (len + strictLimit - 1) / strictLimit
    pieces probs searchRadius troughThreshold seg.1 seg.2 n (max (len / (2 * n)) 1) (n - 1) seg.1

def splitLongRuns (segments : List (ℕ × ℕ)) (searchRadius : ℕ) (troughThreshold : Option P)
    (strictLimit : ℕ) : List (ℕ × ℕ) :=
  if strictLimit = 0 then segments
  else segments.flatMap (splitRun probs searchRadius troughThreshold strictLimit)

end SplitLongRuns

/-! ## Packing -/

/-- The chunks from the segments after the current chunk. -/
def packFrom (minProbs maxProbs strictLimit : ℕ) (cur : ℕ × ℕ) : List (ℕ × ℕ) → List (ℕ × ℕ)
  | [] => [cur]
  | seg :: segments =>
    let prospective := seg.2 - cur.1
    if maxProbs < prospective ∧ (minProbs ≤ cur.2 - cur.1 ∨ strictLimit < prospective) then
      cur :: packFrom minProbs maxProbs strictLimit seg segments
    else packFrom minProbs maxProbs strictLimit (cur.1, seg.2) segments

/-- `pack_segments`. -/
def packSegments (minProbs maxProbs strictLimit : ℕ) : List (ℕ × ℕ) → List (ℕ × ℕ)
  | [] => []
  | seg :: segments => packFrom minProbs maxProbs strictLimit seg segments

/-! ## From chunks to samples -/

section PostProcess

variable {P D : Type*} (opts : ChunkerOpts P D) (strictLimitSamples maxSample : ℕ)

/-- The end of a core, clipped to the audio. -/
def coreEnd (c : ℕ × ℕ) : ℕ := min (c.2 * opts.samplesPerProb) maxSample

/-- `core_start_adj`: the start of a core with its pre-roll, after the chunk `prev`. -/
def coreStartAdj (prev : Option (ℕ × ℕ)) (c : ℕ × ℕ) : ℕ :=
  let rawStart := c.1 * opts.samplesPerProb
  let gapRoom :=
    match prev with
    | none => rawStart
    | some d => (rawStart - coreEnd opts maxSample d) / 2
  let headroom := strictLimitSamples - (coreEnd opts maxSample c - rawStart)
  rawStart - min (min opts.prerollSamples gapRoom) headroom

/-- The padding before a core, at most half the gap to the core before it. -/
def padLeft (prev : Option (ℕ × ℕ)) (c : ℕ × ℕ) : ℕ :=
  let coreStart := coreStartAdj opts strictLimitSamples maxSample prev c
  match prev with
  | none => min opts.padSamples coreStart
  | some d => min opts.padSamples ((coreStart - coreEnd opts maxSample d) / 2)

/-- The padding after a core, at most half the gap to the core after it. -/
def padRight (c : ℕ × ℕ) (next : Option (ℕ × ℕ)) : ℕ :=
  match next with
  | none => min opts.padSamples (maxSample - coreEnd opts maxSample c)
  | some d =>
    min opts.padSamples
      ((coreStartAdj opts strictLimitSamples maxSample (some c) d - coreEnd opts maxSample c) / 2)

/-- The chunk of a core between its neighbours, if anything of it is inside the audio. -/
def audioChunk (prev : Option (ℕ × ℕ)) (c : ℕ × ℕ) (next : Option (ℕ × ℕ)) : Option AudioChunk :=
  let coreStart := coreStartAdj opts strictLimitSamples maxSample prev c
  let stop := coreEnd opts maxSample c
  if stop ≤ coreStart then none
  else
    let decodeStart :=
      (coreStart - padLeft opts strictLimitSamples maxSample prev c) / opts.alignTo * opts.alignTo
    let padded := min (stop + padRight opts strictLimitSamples maxSample c next) maxSample
    let decodeEnd := min ((padded + opts.alignTo - 1) / opts.alignTo * opts.alignTo) maxSample
    if decodeEnd ≤ decodeStart then none
    else some ⟨coreStart, stop, decodeStart, decodeEnd⟩

/-- The chunks after `prev`. -/
def audioChunks (prev : Option (ℕ × ℕ)) : List (ℕ × ℕ) → List AudioChunk
  | [] => []
  | c :: chunks =>
    (audioChunk opts strictLimitSamples maxSample prev c chunks.head?).toList ++
      audioChunks (some c) chunks

end PostProcess

section Chunks

variable {P D : Type*} [LinearOrder P] [LinearOrder D] [Zero D] (opts : ChunkerOpts P D)
  (toProbs : D →o ℕ)

/-- The last sample a chunk may reach. -/
def maxSample (probsLen : ℕ) : ℕ :=
  min (opts.maxTotalSamples.getD (probsLen * opts.samplesPerProb)) (probsLen * opts.samplesPerProb)

/-- `post_process`. -/
def postProcess (chunks : List (ℕ × ℕ)) (probsLen : ℕ) : List AudioChunk :=
  audioChunks opts (toProbs opts.strictLimitDuration * opts.samplesPerProb)
    (maxSample opts probsLen) none chunks

/-- `validate`. -/
def validate : Except (Error D) Unit := do
  if opts.samplesPerProb = 0 then throw .zeroSamplesPerProb
  if opts.alignTo = 0 then throw .zeroAlignTo
  unless opts.minDuration ≤ opts.maxDuration do
    throw (.minExceedsMax opts.minDuration opts.maxDuration)
  unless opts.maxDuration ≤ opts.strictLimitDuration do
    throw (.maxExceedsStrict opts.maxDuration opts.strictLimitDuration)
  if let some t := opts.targetDuration then
    unless 0 < t do
      throw (.targetNonPositive t)

/-- The soft target in probabilities, when it is one below the maximum. -/
def targetProbs : Option ℕ :=
  (opts.targetDuration.map toProbs).filter fun t =>
    decide (0 < t ∧ t < toProbs opts.maxDuration)

/-- The radius of the search for a trough. -/
def troughRadius : ℕ := opts.troughSearchProbs.getD opts.minSilenceProbs

/-- The chunks of a probability sequence before `post_process`. -/
def rawChunks (probs : List P) : List (ℕ × ℕ) :=
  let strictLimit := toProbs opts.strictLimitDuration
  let minProbs := toProbs opts.minDuration
  let maxProbs := toProbs opts.maxDuration
  let segments := splitLongRuns probs
    (adaptedSegments opts.threshold opts.minSpeechProbs probs strictLimit opts.minSilenceProbs
      opts.mergeGapProbs)
    (troughRadius opts) opts.troughThreshold strictLimit
  match targetProbs opts toProbs with
  | some t =>
    -- pack toward the target, then split again at one and a half times it
    let packCap := min t maxProbs
    let splitCap := min (t + t / 2) maxProbs
    splitLongRuns probs (packSegments (min minProbs packCap) packCap strictLimit segments)
      (troughRadius opts) none splitCap
  | none => packSegments minProbs maxProbs strictLimit segments

/-- `chunks_from_probs`. -/
def chunksFromProbs (probs : List P) : Except (Error D) (List AudioChunk) := do
  validate opts
  if probs = [] then return []
  return postProcess opts toProbs (rawChunks opts toProbs probs) probs.length

end Chunks

end Svod.Arch.Vad
