/-
  Svod.Arch.Segments

  From the per-frame probabilities of one speaker to speech segments
  (`arch/src/diarization/segments.rs`): hysteresis thresholds, padding, the
  merge of what the padding made overlap, and the two duration filters in
  either order.

  Probabilities and seconds are rationals.
-/

import Mathlib.Algebra.Order.Ring.Rat
import Svod.Lib.Intervals

namespace Svod.Arch.Segments

open Svod.Intervals

/-- `Binarization`. -/
structure Binarization where
  onset : ℚ
  offset : ℚ
  padOnset : ℚ
  padOffset : ℚ
  minDurationOn : ℚ
  minDurationOff : ℚ
  filterSpeechFirst : Bool

namespace Binarization

variable (b : Binarization)

/-- The state after a frame of probability `p`.  Between the thresholds it is kept, or toggled
    when they are the wrong way round. -/
def next (active : Bool) (p : ℚ) : Bool :=
  if b.offset ≤ b.onset then
    if b.onset < p then true
    else if p < b.offset then false
    else active
  else if b.offset ≤ p then true
  else if p ≤ b.onset then false
  else !active

/-- The runs of active frames; `start` is where the current one began and `frame` the index of
    the next frame of `track`. -/
def runs (active : Bool) (start frame : ℕ) : List ℚ → List (ℕ × ℕ)
  | [] => if active then [(start, frame)] else []
  | p :: track =>
    match active, b.next active p with
    | false, true => runs true frame (frame + 1) track
    | true, false => (start, frame) :: runs false start (frame + 1) track
    | true, true => runs true start (frame + 1) track
    | false, false => runs false start (frame + 1) track

/-- The seconds of a run of frames, widened by the padding. -/
def widen (frameSec : ℚ) (run : ℕ × ℕ) : ℚ × ℚ :=
  (max (run.1 * frameSec - b.padOnset) 0, run.2 * frameSec + b.padOffset)

def dropShort (segments : List (ℚ × ℚ)) : List (ℚ × ℚ) :=
  if 0 < b.minDurationOn then
    segments.filter fun s => decide (b.minDurationOn ≤ s.2 - s.1)
  else segments

/-- The gaps shorter than `minDurationOff`. -/
def shortGaps (segments : List (ℚ × ℚ)) : List (ℚ × ℚ) :=
  ((segments.zip segments.tail).map fun w => (w.1.2, w.2.1)).filter
    fun g => decide (g.2 - g.1 < b.minDurationOff)

def fillGaps (segments : List (ℚ × ℚ)) : List (ℚ × ℚ) :=
  if b.minDurationOff ≤ 0 ∨ segments = [] then segments
  else mergeOverlaps (segments ++ b.shortGaps segments)

/-- `filter`: drop short speech and fill short gaps, in the configured order. -/
def filter (segments : List (ℚ × ℚ)) : List (ℚ × ℚ) :=
  if b.filterSpeechFirst then b.fillGaps (b.dropShort segments)
  else b.dropShort (b.fillGaps segments)

/-- The segments before the duration filters. -/
def padded (track : List ℚ) (frameSec : ℚ) : List (ℚ × ℚ) :=
  let segments := ((b.runs false 0 0 track).map (b.widen frameSec)).filter
    fun s => decide (s.1 < s.2)
  if 0 < b.padOnset ∨ 0 < b.padOffset then mergeOverlaps segments else segments

/-- One speaker's track to intervals in seconds. -/
def segments (track : List ℚ) (frameSec : ℚ) : List (ℚ × ℚ) :=
  b.filter (b.padded track frameSec)

/-- What the segments of a track have to be. -/
structure WellFormed (segments : List (ℚ × ℚ)) : Prop where
  nonempty : ∀ s ∈ segments, s.1 < s.2
  sorted : segments.Pairwise fun s t => s.1 < t.1
  disjoint : segments.Pairwise fun s t => s.2 < t.1
  separated : segments.Pairwise fun s t => b.minDurationOff ≤ t.1 - s.2
  lasting : ∀ s ∈ segments, b.minDurationOn ≤ s.2 - s.1

end Binarization

end Svod.Arch.Segments
