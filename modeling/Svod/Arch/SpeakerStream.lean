/-
  Svod.Arch.SpeakerStream

  The bookkeeping of the speaker cache over any sequence of updates.

  `AudioStream` carries beside the cache which frame of the audio each row of
  the context is (`none` for silence) and which probabilities were ever given
  for it; the cache itself only knows rows of the last step.  `AudioStream.Inv`
  is kept by every update, so that the cache and the FIFO account for every
  frame until the first compression.
-/

import Svod.Arch.SpeakerCacheSound

namespace Svod.Arch.Diarization

variable {F : Type}

/-- A stream of audio behind a speaker cache. -/
structure AudioStream (F : Type) where
  cache : SpeakerCache F
  /-- The frame behind each row of the context. -/
  context : List (Option ℕ)
  seen : ℕ
  /-- The rows of probabilities that some step gave for a frame. -/
  given : Set (ℕ × List F)

namespace AudioStream

/-- The frames behind the rows of a step: those of the context, then the chunk. -/
def stepRows (s : AudioStream F) (numChunk : ℕ) : List (Option ℕ) :=
  s.context ++ (List.range' s.seen numChunk).map some

/-- The frame behind a row of the next context. -/
def frameAt (rows : List (Option ℕ)) : ContextRow → Option ℕ
  | .step row => rows.getD row none
  | .silence => none

/-- The rows that one step gives. -/
def givenBy (s : AudioStream F) (numChunk : ℕ) (probs : List F) : Set (ℕ × List F) :=
  {e | ∃ row, (s.stepRows numChunk)[row]? = some (some e.1) ∧
    e.2 = rowOf s.cache.config.numSpeakers probs row}

section

variable [LinearOrder F] (ops : ScoreOps F)

/-- One call of `update`; a call that fails has no effect. -/
def step (s : AudioStream F) (call : ℕ × List F) : AudioStream F :=
  match s.cache.update ops call.1 call.2 with
  | .error _ => s
  | .ok cache => {
      cache := cache
      context := cache.layout.map (frameAt (s.stepRows call.1))
      seen := s.seen + call.1
      given := s.given ∪ s.givenBy call.1 call.2 }

/-- A sequence of calls. -/
def run (s : AudioStream F) (calls : List (ℕ × List F)) : AudioStream F :=
  calls.foldl (step ops) s

end

/-- The start of a stream. -/
def start (cache : SpeakerCache F) : AudioStream F :=
  { cache := cache, context := [], seen := 0, given := ∅ }

/-- A row of a cache: silence without probabilities, or a frame older than `bound` with
    probabilities that some step gave for it. -/
def RowSound (zeros : List F) (given : Set (ℕ × List F)) (bound : ℕ) (frame : Option (Option ℕ))
    (row : List F) : Prop :=
  (frame = some none ∧ row = zeros) ∨ ∃ t < bound, frame = some (some t) ∧ (t, row) ∈ given

/-- The bookkeeping of a stream. -/
structure Inv (ops : ScoreOps F) (config : Config F) (s : AudioStream F) : Prop where
  config_eq : s.cache.config = config
  context_length : s.context.length = s.cache.layout.length
  cache_le_layout : s.cache.cacheFrames ≤ s.cache.layout.length
  cache_le : s.cache.cacheFrames ≤ config.cacheLen
  fifo_le : s.cache.fifoFrames ≤ config.fifoLen
  probs_length : s.cache.probs.length = s.cache.cacheFrames * config.numSpeakers
  fifo_seen : s.cache.fifoFrames ≤ s.seen
  fifo : s.context.drop s.cache.cacheFrames =
    (List.range' (s.seen - s.cache.fifoFrames) s.cache.fifoFrames).map some
  lossless : s.cache.compressed = false → s.context = (List.range s.seen).map some
  cache_row : ∀ i < s.cache.cacheFrames,
    RowSound (List.replicate config.numSpeakers ops.zero) s.given (s.seen - s.cache.fifoFrames)
      s.context[i]? (rowOf config.numSpeakers s.cache.probs i)

theorem RowSound.mono {zeros row : List F} {given given' : Set (ℕ × List F)} {bound bound' : ℕ}
    {frame : Option (Option ℕ)} (hgiven : given ⊆ given') (hbound : bound ≤ bound')
    (h : RowSound zeros given bound frame row) : RowSound zeros given' bound' frame row := by
  obtain hsilence | ⟨t, ht, hframe, hmem⟩ := h
  · exact .inl hsilence
  · exact .inr ⟨t, ht.trans_le hbound, hframe, hgiven hmem⟩

/-! ## The rows of a step -/

section Step

variable {ops : ScoreOps F} {config : Config F} {s : AudioStream F} {numChunk : ℕ}
  {probs : List F}

theorem Inv.layout_eq (hs : Inv ops config s) :
    s.cache.layout.length = s.cache.cacheFrames + s.cache.fifoFrames := by
  have := hs.cache_le_layout
  rw [SpeakerCache.fifoFrames]
  omega

/-- Past the cache, the rows of a step are the latest frames in order. -/
theorem Inv.stepRows_eq (hs : Inv ops config s) :
    s.stepRows numChunk = s.context.take s.cache.cacheFrames ++
      (List.range' (s.seen - s.cache.fifoFrames) (s.cache.fifoFrames + numChunk)).map some := by
  have hsplit := List.take_append_drop s.cache.cacheFrames s.context
  have hseen := hs.fifo_seen
  rw [stepRows, ← List.range'_append_1, List.map_append, ← List.append_assoc, ← hs.fifo, hsplit,
    Nat.sub_add_cancel hseen]

theorem Inv.take_length (hs : Inv ops config s) :
    (s.context.take s.cache.cacheFrames).length = s.cache.cacheFrames := by
  rw [List.length_take, hs.context_length]
  exact min_eq_left hs.cache_le_layout

theorem Inv.stepRows_length (hs : Inv ops config s) : (s.stepRows numChunk).length =
    s.cache.cacheFrames + (s.cache.fifoFrames + numChunk) := by
  rw [hs.stepRows_eq, List.length_append, hs.take_length, List.length_map, List.length_range']

theorem Inv.stepRows_cache (hs : Inv ops config s) {i : ℕ} (hi : i < s.cache.cacheFrames) :
    (s.stepRows numChunk)[i]? = s.context[i]? := by
  have hlen := hs.take_length
  rw [hs.stepRows_eq, List.getElem?_append_left (by omega), List.getElem?_take, if_pos hi]

theorem Inv.stepRows_queue (hs : Inv ops config s) {j : ℕ}
    (hj : j < s.cache.fifoFrames + numChunk) :
    (s.stepRows numChunk)[s.cache.cacheFrames + j]? =
      some (some (s.seen - s.cache.fifoFrames + j)) := by
  have hlen := hs.take_length
  rw [hs.stepRows_eq, List.getElem?_append_right (by omega), hlen, Nat.add_sub_cancel_left,
    List.getElem?_map, List.getElem?_range' (by omega), Option.map_some, Nat.one_mul]

/-- The frames of the rows of a step from one on. -/
theorem Inv.map_queue (hs : Inv ops config s) {j n : ℕ}
    (hj : j + n ≤ s.cache.fifoFrames + numChunk) :
    ((List.range' (s.cache.cacheFrames + j) n).map ContextRow.step).map
        (frameAt (s.stepRows numChunk)) =
      (List.range' (s.seen - s.cache.fifoFrames + j) n).map some := by
  refine List.ext_getElem? fun i => ?_
  rw [List.getElem?_map, List.getElem?_map, List.getElem?_map]
  by_cases hi : i < n
  · rw [List.getElem?_range' hi, List.getElem?_range' hi, Option.map_some, Option.map_some,
      Option.map_some, Nat.one_mul, frameAt, Nat.add_assoc, List.getD_eq_getElem?_getD,
      hs.stepRows_queue (by omega), Option.getD_some, Nat.add_assoc]
  · rw [List.getElem?_eq_none (by simpa using hi), List.getElem?_eq_none (by simpa using hi)]
    rfl

/-- A row of the step as a row of the next context. -/
theorem Inv.frameAt_step (hs : Inv ops config s) {row : ℕ}
    (hrow : row < s.cache.cacheFrames + (s.cache.fifoFrames + numChunk)) :
    some (frameAt (s.stepRows numChunk) (.step row)) = (s.stepRows numChunk)[row]? := by
  have hlen := @Inv.stepRows_length F ops config s numChunk hs
  rw [frameAt, List.getD_eq_getElem?_getD, List.getElem?_eq_getElem (by omega), Option.getD_some]

/-! ## What an update keeps -/

theorem popped_le (c : SpeakerCache F) (queued : ℕ) : c.poppedFrames queued ≤ queued := by
  rw [SpeakerCache.poppedFrames]
  split
  case isTrue => exact Nat.zero_le _
  case isFalse => exact min_le_right _ _

/-- What stays in the FIFO fits. -/
theorem queued_sub_popped_le (c : SpeakerCache F) (queued : ℕ) :
    queued - c.poppedFrames queued ≤ c.config.fifoLen := by
  rw [SpeakerCache.poppedFrames]
  split
  case isTrue h => exact h
  case isFalse => omega

/-- An uncompressed context is every frame seen. -/
theorem Inv.seen_eq (hs : Inv ops config s) (hflag : s.cache.compressed = false) :
    s.seen = s.cache.cacheFrames + s.cache.fifoFrames := by
  have hlen := congrArg List.length (hs.lossless hflag)
  rw [List.length_map, List.length_range, hs.context_length, hs.layout_eq] at hlen
  exact hlen.symm

theorem Inv.movedProbs_length (hs : Inv ops config s)
    (hcovers : (s.cache.cacheFrames + (s.cache.fifoFrames + numChunk)) * config.numSpeakers ≤
      probs.length) :
    (s.cache.movedProbs numChunk probs).length = (s.cache.cacheFrames +
      s.cache.poppedFrames (s.cache.fifoFrames + numChunk)) * config.numSpeakers := by
  have hpopped := popped_le s.cache (s.cache.fifoFrames + numChunk)
  have hmul := Nat.mul_le_mul_right config.numSpeakers hpopped
  rw [Nat.add_mul] at hcovers
  rw [SpeakerCache.movedProbs, hs.config_eq]
  rw [List.length_append, List.length_take, List.length_drop, Nat.add_mul, min_eq_left (by omega)]
  congr 1
  split
  case isTrue => exact hs.probs_length
  case isFalse => rw [List.length_take, min_eq_left (by omega)]

/-- The rows of a cache that takes the moved frames: an old row keeps its probabilities, or gets
    those of this step when they are plain past frames, and so do the moved ones. -/
theorem Inv.moved_sound (hs : Inv ops config s)
    (hcovers : (s.cache.cacheFrames + (s.cache.fifoFrames + numChunk)) * config.numSpeakers ≤
      probs.length) {f : ℕ}
    (hf : f < s.cache.cacheFrames + s.cache.poppedFrames (s.cache.fifoFrames + numChunk)) :
    RowSound (List.replicate config.numSpeakers ops.zero) (s.given ∪ s.givenBy numChunk probs)
      (s.seen - s.cache.fifoFrames + s.cache.poppedFrames (s.cache.fifoFrames + numChunk))
      (s.stepRows numChunk)[f]?
      (rowOf config.numSpeakers (s.cache.movedProbs numChunk probs) f) := by
  have hpopped := popped_le s.cache (s.cache.fifoFrames + numChunk)
  have hmul := Nat.mul_le_mul_right config.numSpeakers hpopped
  rw [Nat.add_mul] at hcovers
  -- a row that this step gives
  have hgiven : ∀ t, (s.stepRows numChunk)[f]? = some (some t) →
      (t, rowOf config.numSpeakers probs f) ∈ s.given ∪ s.givenBy numChunk probs :=
    fun t ht => .inr ⟨f, ht, by rw [hs.config_eq]⟩
  have hold : (if s.cache.compressed then s.cache.probs
      else probs.take (s.cache.cacheFrames * config.numSpeakers)).length =
      s.cache.cacheFrames * config.numSpeakers := by
    split
    case isTrue => exact hs.probs_length
    case isFalse => rw [List.length_take, min_eq_left (by omega)]
  rw [SpeakerCache.movedProbs, hs.config_eq]
  by_cases hcache : f < s.cache.cacheFrames
  · rw [rowOf_append_left hold hcache]
    cases hflag : s.cache.compressed with
    | true =>
      rw [if_pos rfl, hs.stepRows_cache hcache]
      exact (hs.cache_row f hcache).mono Set.subset_union_left (Nat.le_add_right _ _)
    | false =>
      have hseen := hs.seen_eq hflag
      have hframe : (s.stepRows numChunk)[f]? = some (some f) := by
        rw [hs.stepRows_cache hcache, hs.lossless hflag, List.getElem?_map,
          List.getElem?_range (by omega), Option.map_some]
      rw [if_neg Bool.false_ne_true, rowOf_take hcache]
      exact .inr ⟨f, by omega, hframe, hgiven f hframe⟩
  · obtain ⟨j, rfl⟩ := Nat.exists_eq_add_of_le (not_lt.mp hcache)
    rw [rowOf_append_right hold, rowOf_take (by omega : j < _), rowOf_drop]
    have hframe := @Inv.stepRows_queue F ops config s numChunk hs j (by omega)
    exact .inr ⟨_, by omega, hframe, hgiven _ hframe⟩

theorem range_add (m n : ℕ) : List.range (m + n) = List.range m ++ List.range' m n := by
  rw [List.range_eq_range', List.range_eq_range', ← List.range'_append_1, Nat.zero_add]

/-- The next stream, whatever cache the update builds. -/
theorem Inv.next (hs : Inv ops config s) {c' : SpeakerCache F} {cache : List ContextRow}
    (hconfig : c'.config = config)
    (hlayout : c'.layout = cache ++ (List.range' (s.cache.cacheFrames +
        s.cache.poppedFrames (s.cache.fifoFrames + numChunk))
      (s.cache.fifoFrames + numChunk -
        s.cache.poppedFrames (s.cache.fifoFrames + numChunk))).map ContextRow.step)
    (hframes : c'.cacheFrames = cache.length) (hle : cache.length ≤ config.cacheLen)
    (hprobs : c'.probs.length = cache.length * config.numSpeakers)
    (hlossless : c'.compressed = false → cache.map (frameAt (s.stepRows numChunk)) =
      (List.range (s.seen - s.cache.fifoFrames +
        s.cache.poppedFrames (s.cache.fifoFrames + numChunk))).map some)
    (hrow : ∀ i < cache.length,
      RowSound (List.replicate config.numSpeakers ops.zero) (s.given ∪ s.givenBy numChunk probs)
        (s.seen - s.cache.fifoFrames + s.cache.poppedFrames (s.cache.fifoFrames + numChunk))
        (cache[i]?.map (frameAt (s.stepRows numChunk))) (rowOf config.numSpeakers c'.probs i)) :
    Inv ops config {
      cache := c'
      context := c'.layout.map (frameAt (s.stepRows numChunk))
      seen := s.seen + numChunk
      given := s.given ∪ s.givenBy numChunk probs } := by
  have hpopped := popped_le s.cache (s.cache.fifoFrames + numChunk)
  have hseen := hs.fifo_seen
  have hfifo := queued_sub_popped_le s.cache (s.cache.fifoFrames + numChunk)
  have hqueue := @Inv.map_queue F ops config s numChunk hs
    (s.cache.poppedFrames (s.cache.fifoFrames + numChunk))
    (s.cache.fifoFrames + numChunk - s.cache.poppedFrames (s.cache.fifoFrames + numChunk))
    (by omega)
  rw [hs.config_eq] at hfifo
  generalize s.cache.poppedFrames (s.cache.fifoFrames + numChunk) = popped at *
  have hfifo' : c'.fifoFrames = s.cache.fifoFrames + numChunk - popped := by
    rw [SpeakerCache.fifoFrames, hlayout, List.length_append, List.length_map, List.length_range',
      hframes, Nat.add_sub_cancel_left]
  have hbound : s.seen + numChunk - c'.fifoFrames = s.seen - s.cache.fifoFrames + popped := by
    omega
  have hmap : (cache.map (frameAt (s.stepRows numChunk))).length = cache.length :=
    List.length_map _
  constructor
  case config_eq => exact hconfig
  case context_length => exact List.length_map _
  case cache_le_layout =>
    show c'.cacheFrames ≤ c'.layout.length
    rw [hlayout, hframes, List.length_append]
    exact Nat.le_add_right _ _
  case cache_le => exact hframes.trans_le hle
  case fifo_le => exact hfifo'.trans_le hfifo
  case probs_length => rw [hprobs, hframes]
  case fifo_seen =>
    show c'.fifoFrames ≤ s.seen + numChunk
    omega
  case fifo =>
    dsimp only
    rw [hlayout, List.map_append, hframes, ← hmap, List.drop_left, hqueue, hbound, hfifo']
  case lossless =>
    intro hflag
    dsimp only
    have hrange : s.seen + numChunk = (s.seen - s.cache.fifoFrames + popped) +
        (s.cache.fifoFrames + numChunk - popped) := by omega
    rw [hlayout, List.map_append, hlossless hflag, hqueue, ← List.map_append, ← range_add,
      ← hrange]
  case cache_row =>
    dsimp only
    intro i hi
    rw [hframes] at hi
    rw [hbound, hlayout, List.map_append, List.getElem?_append_left (hmap.symm ▸ hi),
      List.getElem?_map]
    exact hrow i hi

/-- The first rows of a step, before any compression, are every frame that left the FIFO. -/
theorem Inv.map_cache (hs : Inv ops config s) (hflag : s.cache.compressed = false) :
    ((List.range (s.cache.cacheFrames +
        s.cache.poppedFrames (s.cache.fifoFrames + numChunk))).map ContextRow.step).map
        (frameAt (s.stepRows numChunk)) =
      (List.range (s.seen - s.cache.fifoFrames +
        s.cache.poppedFrames (s.cache.fifoFrames + numChunk))).map some := by
  have hpopped := popped_le s.cache (s.cache.fifoFrames + numChunk)
  have hseen := hs.seen_eq hflag
  have hcache : s.seen - s.cache.fifoFrames = s.cache.cacheFrames := by omega
  rw [hcache, List.map_map]
  refine List.map_congr_left fun row hrow => ?_
  have hrow : row < s.seen + numChunk := by
    have := List.mem_range.mp hrow
    omega
  rw [Function.comp_apply, frameAt, stepRows, hs.lossless hflag, ← List.map_append, ← range_add,
    List.getD_eq_getElem?_getD, List.getElem?_map, List.getElem?_range hrow]
  rfl

/-- An update keeps the bookkeeping. -/
theorem Inv.step [LinearOrder F] (hpos : 0 < config.numSpeakers) (hs : Inv ops config s)
    (call : ℕ × List F) : Inv ops config (s.step ops call) := by
  obtain ⟨numChunk, probs⟩ := call
  rw [AudioStream.step]
  split
  case h_1 => exact hs
  case h_2 c' h =>
    have h : s.cache.update ops numChunk probs = .ok c' := h
    obtain ⟨hcovers, hconfig, cache, hlayout, hframes, hmoved⟩ := update_spec h
    rw [hs.config_eq] at hcovers hconfig
    have hlen := hs.movedProbs_length hcovers
    have hpopped := popped_le s.cache (s.cache.fifoFrames + numChunk)
    -- a cache that takes the rows of the step is as long as they are, and reads each
    have hplain : ∀ n ≤ s.cache.cacheFrames + (s.cache.fifoFrames + numChunk), ∀ i < n,
        (((List.range n).map ContextRow.step)[i]?.map (frameAt (s.stepRows numChunk))) =
          (s.stepRows numChunk)[i]? := by
      intro n hn i hi
      rw [List.getElem?_map, List.getElem?_range hi, Option.map_some, Option.map_some,
        hs.frameAt_step (by omega)]
    cases hmoved with
    | kept hpop hcache hprobs hflag =>
      refine hs.next hconfig hlayout hframes ?_ ?_ (fun hfalse => ?_) fun i hi => ?_
      all_goals rw [hcache] at *
      · simpa using hs.cache_le
      · simpa [hprobs] using hs.probs_length
      · have := @Inv.map_cache F ops config s numChunk hs (hflag ▸ hfalse)
        rwa [hpop] at this ⊢
      · rw [List.length_map, List.length_range] at hi
        rw [hplain _ (by omega) i hi, hs.stepRows_cache hi, hprobs]
        exact (hs.cache_row i hi).mono Set.subset_union_left (Nat.le_add_right _ _)
    | grown hpop hfits hcache hprobs hflag =>
      rw [hs.config_eq] at hfits
      refine hs.next hconfig hlayout hframes ?_ ?_ (fun hfalse => ?_) fun i hi => ?_
      all_goals rw [hcache] at *
      · simpa using hfits
      · simpa [hprobs] using hlen
      · exact hs.map_cache (hflag ▸ hfalse)
      · rw [List.length_map, List.length_range] at hi
        rw [hplain _ (by omega) i hi, hprobs]
        exact hs.moved_sound hcovers hi
    | compressed hpop hover hcompress hflag =>
      rw [hs.config_eq] at hover
      have hcache : cache = _ := congrArg Prod.fst hcompress
      have hprobs : c'.probs = _ := congrArg Prod.snd hcompress
      obtain ⟨hlen1, hlen2, hrow⟩ := @compress_spec F _ ops s.cache
        (s.cache.movedProbs numChunk probs) ((List.range (s.cache.cacheFrames +
          s.cache.poppedFrames (s.cache.fifoFrames + numChunk))).map ContextRow.step)
        (by rw [hs.config_eq]; exact hpos) (by rw [hs.config_eq]; simpa using hover.le)
        (by rw [hs.config_eq]; simpa using hlen)
      rw [← hcache, ← hprobs, hs.config_eq] at hrow
      rw [← hcache, hs.config_eq] at hlen1
      rw [← hprobs, hs.config_eq] at hlen2
      refine hs.next hconfig hlayout hframes hlen1.le (hlen1 ▸ hlen2) (fun hfalse => ?_)
        fun i hi => ?_
      · rw [hflag] at hfalse
        cases hfalse
      · rw [hlen1] at hi
        obtain ⟨hsilence, hzeros⟩ | ⟨f, hf, hstep, hkeep⟩ := hrow i hi
        · exact .inl ⟨by rw [hsilence]; rfl, hzeros⟩
        · rw [List.length_map, List.length_range] at hf
          rw [hstep, hplain _ (by omega) f hf, hkeep]
          exact hs.moved_sound hcovers hf

/-! ## Runs -/

theorem Inv.run [LinearOrder F] (hpos : 0 < config.numSpeakers) (hs : Inv ops config s)
    (calls : List (ℕ × List F)) : Inv ops config (s.run ops calls) := by
  induction calls generalizing s with
  | nil => exact hs
  | cons call calls ih => exact ih (hs.step hpos call)

theorem new_spec {cache : SpeakerCache F} (hnew : SpeakerCache.new ops config = .ok cache) :
    0 < config.numSpeakers ∧ cache.config = config ∧ cache.layout = [] ∧ cache.cacheFrames = 0 ∧
      cache.probs = [] := by
  rw [SpeakerCache.new] at hnew
  cases hvalid : config.validate ops with
  | error e =>
    rw [hvalid] at hnew
    cases hnew
  | ok u =>
    rw [hvalid] at hnew
    cases hnew
    refine ⟨?_, rfl, rfl, rfl, rfl⟩
    by_contra hpos
    rw [Config.validate, if_neg hpos] at hvalid
    cases hvalid

theorem start_inv {cache : SpeakerCache F} (hnew : SpeakerCache.new ops config = .ok cache) :
    Inv ops config (start cache) := by
  obtain ⟨-, hconfig, hlayout, hframes, hprobs⟩ := new_spec hnew
  constructor
  all_goals simp [start, hconfig, hlayout, hframes, hprobs, SpeakerCache.fifoFrames]

/-- How an update lays the next context out in rows of its step: the FIFO is the last of them in
    order, and the cache is the first of them in order or, once they overflow it, some of them
    grouped by speaker. -/
def LaidOut (c c' : SpeakerCache F) (numChunk : ℕ) : Prop :=
  let moved := c.cacheFrames + c.poppedFrames (c.fifoFrames + numChunk)
  c'.layout.drop c'.cacheFrames =
      (List.range' moved (c.cacheFrames + (c.fifoFrames + numChunk) - moved)).map .step ∧
    ((c'.layout.take c'.cacheFrames = (List.range moved).map .step ∧
        c'.compressed = c.compressed) ∨
      (c.config.cacheLen < moved ∧ c'.compressed = true ∧
        Grouped c.config.numSpeakers moved c.config.silenceFramesPerSpeaker
          (c'.layout.take c'.cacheFrames)))

theorem update_laidOut [LinearOrder F] {c c' : SpeakerCache F}
    (h : c.update ops numChunk probs = .ok c') : LaidOut c c' numChunk := by
  obtain ⟨-, -, cache, hlayout, hframes, hmoved⟩ := update_spec h
  have hpopped := popped_le c (c.fifoFrames + numChunk)
  rw [LaidOut, hlayout, hframes, List.take_left, List.drop_left]
  refine ⟨by rw [Nat.add_sub_add_left], ?_⟩
  cases hmoved with
  | kept hpop hcache _ hflag => exact .inl ⟨by rw [hcache, hpop]; rfl, hflag⟩
  | grown _ _ hcache _ hflag => exact .inl ⟨hcache, hflag⟩
  | compressed hpop hover hcompress hflag =>
    have hcache : cache = _ := congrArg Prod.fst hcompress
    rw [hcache]
    exact .inr ⟨hover, hflag, compress_grouped (by omega)⟩

/-- The bookkeeping of the speaker cache: whatever calls a stream has made, the cache and the FIFO
    are within their capacities and hold the frames that they should with the probabilities given
    for them, and the next update lays the context out in order. -/
theorem bookkeeping [LinearOrder F] {cache : SpeakerCache F}
    (hnew : SpeakerCache.new ops config = .ok cache) (calls : List (ℕ × List F)) :
    Inv ops config ((start cache).run ops calls) ∧
      ∀ numChunk probs c',
        ((start cache).run ops calls).cache.update ops numChunk probs = .ok c' →
          LaidOut ((start cache).run ops calls).cache c' numChunk :=
  ⟨(start_inv hnew).run (new_spec hnew).1 calls, fun _ _ _ h => update_laidOut h⟩

/-- Scores of integers, with the logarithm as the identity. -/
def integerScores : ScoreOps ℤ where
  zero := 0
  half := 1
  one := 4
  negInf := -1000
  posInf := 1000
  add := (· + ·)
  sub := (· - ·)
  mul := (· * ·)
  neg := (- ·)
  max := max
  ln := id
  lt := fun a b => decide (a < b)
  le := fun a b => decide (a ≤ b)
  isFinite := fun _ => true
  ofUsize := fun n => n
  floor := Int.toNat

/-- Two speakers with two frames each. -/
def twoSpeakers : Config ℤ where
  numSpeakers := 2
  cacheLen := 4
  fifoLen := 1
  updatePeriod := 2
  silenceFramesPerSpeaker := 1
  scoreThreshold := 2
  latestFramesBoost := 0
  strongBoostRate := 1
  weakBoostRate := 1
  minPositiveRate := 1

theorem bookkeeping_twoSpeakers :
    let calls := [(3, [3, 0, 3, 0, 0, 3]), (3, [3, 0, 3, 0, 0, 3, 3, 3, 0, 0, 3, 0]), (1, [])]
    ∃ cache, SpeakerCache.new integerScores twoSpeakers = .ok cache ∧
      Inv integerScores twoSpeakers ((start cache).run integerScores calls) ∧
      ∀ numChunk probs c',
        ((start cache).run integerScores calls).cache.update integerScores numChunk probs =
          .ok c' →
        LaidOut ((start cache).run integerScores calls).cache c' numChunk :=
  ⟨_, rfl, bookkeeping rfl _⟩

end Step

end AudioStream

end Svod.Arch.Diarization
