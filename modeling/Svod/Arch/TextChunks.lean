/-
  Svod.Arch.TextChunks

  The text chunkers (`arch/src/pipelines/text.rs`): the encoding of a text or of
  a pair is cut to a row of at most `max_seq` tokens, or windowed, with its
  special tokens kept.

  A slice with its ends the wrong way round or past the end of the field, and a
  subtraction below zero, is a panic: `none`.
-/

import Mathlib.Data.List.Basic

namespace Svod.Arch.Text

/-! ## Encodings -/

structure Encoding where
  inputIds : List ℕ
  attentionMask : List ℕ
  tokenTypeIds : List ℕ
  offsets : List (ℕ × ℕ)
  specialTokensMask : List ℕ
  /-- The text each token comes from, empty when not recorded. -/
  sequenceIds : List (Option ℕ)
  pair : Bool
deriving DecidableEq

namespace Encoding

variable (enc : Encoding)

def len : ℕ := enc.inputIds.length

/-- The fields of an encoding are as long as its ids. -/
structure WellFormed (enc : Encoding) : Prop where
  attentionMask : enc.attentionMask.length = enc.len
  tokenTypeIds : enc.tokenTypeIds.length = enc.len
  offsets : enc.offsets.length = enc.len
  specialTokensMask : enc.specialTokensMask.length = enc.len
  sequenceIds : enc.sequenceIds.length = enc.len ∨ enc.sequenceIds = []

end Encoding

structure TextChunk where
  encoding : Encoding
  byteOffset : ℕ
  firstToken : ℕ
deriving DecidableEq

/-! ## Chunk geometry -/

/-- `start..stop`. -/
structure Range where
  start : ℕ
  stop : ℕ
deriving DecidableEq

def Range.len (r : Range) : ℕ := r.stop - r.start

/-- Leading and trailing runs of the mask; a mask of ones only is all leading. -/
def boundarySpecials (mask : List ℕ) : ℕ × ℕ :=
  let lead := (mask.takeWhile (· = 1)).length
  (lead, min (mask.reverse.takeWhile (· = 1)).length (mask.length - lead))

structure Segments where
  fixedPrefix : Range
  first : Range
  content : Range
  trail : Range
deriving DecidableEq

namespace Segments

/-- From the first token of a text to its last. -/
def span (sequenceIds : List (Option ℕ)) (id : ℕ) : Option Range := do
  let start ← sequenceIds.findIdx? (· = some id)
  let back ← sequenceIds.reverse.findIdx? (· = some id)
  some ⟨start, sequenceIds.length - 1 - back + 1⟩

def of (enc : Encoding) : Segments :=
  let len := enc.len
  if enc.pair = true ∧ enc.sequenceIds.length = len then
    let content := (span enc.sequenceIds 1).getD ⟨len, len⟩
    let first := (span enc.sequenceIds 0).getD ⟨content.start, content.start⟩
    { fixedPrefix := ⟨0, content.start⟩, first, trail := ⟨content.stop, len⟩, content }
  else
    let (lead, trail) := boundarySpecials enc.specialTokensMask
    { fixedPrefix := ⟨0, lead⟩, first := ⟨lead, lead⟩, content := ⟨lead, len - trail⟩
      trail := ⟨len - trail, len⟩ }

end Segments

/-- `&v[r]`. -/
def slice {α : Type} (v : List α) (r : Range) : Option (List α) :=
  if r.start ≤ r.stop ∧ r.stop ≤ v.length then some ((v.take r.stop).drop r.start) else none

def pick {α : Type} (v : List α) (ranges : List Range) : Option (List α) :=
  (ranges.mapM (slice v)).map List.flatten

def gather (enc : Encoding) (ranges : List Range) : Option Encoding := do
  let inputIds ← pick enc.inputIds ranges
  let attentionMask ← pick enc.attentionMask ranges
  let tokenTypeIds ← pick enc.tokenTypeIds ranges
  let offsets ← pick enc.offsets ranges
  let specialTokensMask ← pick enc.specialTokensMask ranges
  let sequenceIds ←
    if enc.sequenceIds.length = enc.len then pick enc.sequenceIds ranges else some []
  some { inputIds, attentionMask, tokenTypeIds, offsets, specialTokensMask, sequenceIds
         pair := enc.pair }

/-! ## Truncation -/

inductive PairTruncation where
  | longestFirst
  | onlyFirst
  | onlySecond
deriving DecidableEq

inductive TruncatingChunkerError where
  | maxSeqTooSmall
  | maxSeqTooSmallForSpecials (maxSeq specials : ℕ)
  | pairTooLong (strategy : PairTruncation) (len excess : ℕ)
deriving DecidableEq

/-- The chunkers that `try_new` builds. -/
structure TruncatingChunker where
  maxSeq : ℕ
  pairTruncation : PairTruncation
  maxSeq_pos : 1 ≤ maxSeq

/-- The lengths a pair's texts keep within `budget` content tokens. -/
def pairLengths (n1 n2 budget : ℕ) (strategy : PairTruncation) :
    Except TruncatingChunkerError (ℕ × ℕ) :=
  let excess := n1 + n2 - budget
  if excess = 0 then .ok (n1, n2)
  else if budget = 0 then .ok (0, 0)
  else
    match strategy with
    | .longestFirst =>
      let short := min n1 n2
      let keep := (short, if short > budget then short else max short (budget - short))
      let keep := if keep.1 + keep.2 > budget then (budget / 2, budget / 2 + budget % 2) else keep
      let (k1, k2) := if n1 > n2 then (keep.2, keep.1) else keep
      .ok (min n1 k1, min n2 k2)
    | .onlyFirst =>
      if n1 > excess then .ok (n1 - excess, n2) else .error (.pairTooLong strategy n1 excess)
    | .onlySecond =>
      if n2 > excess then .ok (n1, n2 - excess) else .error (.pairTooLong strategy n2 excess)

namespace TruncatingChunker

variable (c : TruncatingChunker) (enc : Encoding)

/-- The tokens of a long input that are of neither text. -/
def specials : ℕ := enc.len - (Segments.of enc).first.len - (Segments.of enc).content.len

/-- What the texts of a long input keep. -/
def kept : Except TruncatingChunkerError (ℕ × ℕ) :=
  let s := Segments.of enc
  if specials enc ≤ c.maxSeq then
    let budget := c.maxSeq - specials enc
    if enc.pair then pairLengths s.first.len s.content.len budget c.pairTruncation
    else .ok (0, budget)
  else .error (.maxSeqTooSmallForSpecials c.maxSeq (specials enc))

/-- The ranges a long input is cut to. -/
def keptRanges (n : ℕ × ℕ) : List Range :=
  let s := Segments.of enc
  [⟨0, s.first.start⟩, ⟨s.first.start, s.first.start + n.1⟩, ⟨s.first.stop, s.content.start⟩,
    ⟨s.content.start, s.content.start + n.2⟩, s.trail]

def chunk : Option (Except TruncatingChunkerError (List TextChunk)) :=
  if enc.len = 0 then some (.ok [])
  else if enc.len ≤ c.maxSeq then some (.ok [⟨enc, 0, 0⟩])
  else
    -- the count of the specials may not go below zero
    let s := Segments.of enc
    if s.first.len + s.content.len ≤ enc.len then
      match c.kept enc with
      | .error e => some (.error e)
      | .ok n => (gather enc (keptRanges enc n)).map fun encoding => .ok [⟨encoding, 0, 0⟩]
    else none

end TruncatingChunker

/-! ## Windows -/

inductive SlidingWindowChunkerError where
  | windowTooSmall
  | strideOutOfRange
  | windowTooSmallForFixed (window fixed : ℕ)
deriving DecidableEq

/-- The chunkers that `try_new` builds. -/
structure SlidingWindowChunker where
  window : ℕ
  stride : ℕ
  fullLastWindow : Bool
  stride_pos : 1 ≤ stride
  stride_le : stride ≤ window

namespace SlidingWindowChunker

variable (c : SlidingWindowChunker) (enc : Encoding)

/-- The tokens attached to every window. -/
def fixed : ℕ := (Segments.of enc).fixedPrefix.len + (Segments.of enc).trail.len

def contentWindow : ℕ := c.window - fixed enc

/-- The start a turn of the loop works with: pulled back where the window would not be full. -/
def pulledBack (start : ℕ) : ℕ :=
  let contentLen := (Segments.of enc).content.len
  if c.fullLastWindow ∧ start + c.contentWindow enc > contentLen then
    contentLen - c.contentWindow enc
  else start

/-- The ranges of the window at `start`. -/
def windowRanges (start : ℕ) : List Range :=
  let s := Segments.of enc
  let stop := min (start + c.contentWindow enc) s.content.len
  [s.fixedPrefix, ⟨s.content.start + start, s.content.start + stop⟩, s.trail]

/-- The loop, in at most `fuel` turns. -/
def windows : ℕ → ℕ → Option (List TextChunk)
  | 0, _ => none
  | fuel + 1, start => do
    let s := Segments.of enc
    let start := c.pulledBack enc start
    let stop := min (start + c.contentWindow enc) s.content.len
    let byteOffset := (enc.offsets[s.content.start + start]?.map Prod.fst).getD 0
    let encoding ← gather enc (c.windowRanges enc start)
    if s.content.len ≤ stop then some [⟨encoding, byteOffset, start⟩]
    else
      let rest ← windows fuel (start + min c.stride (c.contentWindow enc))
      some (⟨encoding, byteOffset, start⟩ :: rest)

/-- `chunk`; each turn of the loop but the last moves on by a token at least. -/
def chunk : Option (Except SlidingWindowChunkerError (List TextChunk)) :=
  if enc.len = 0 then some (.ok [])
  else if (Segments.of enc).content.len = 0 then
    if fixed enc ≤ c.window then some (.ok [⟨enc, 0, 0⟩])
    else some (.error (.windowTooSmallForFixed c.window (fixed enc)))
  else if 1 ≤ c.contentWindow enc then
    (c.windows enc ((Segments.of enc).content.len + 1) 0).map .ok
  else some (.error (.windowTooSmallForFixed c.window (fixed enc)))

end SlidingWindowChunker

end Svod.Arch.Text
