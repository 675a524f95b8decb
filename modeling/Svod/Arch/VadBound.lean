/-
  Svod.Arch.VadBound

  When the chunks of a voice activity detector stay within the size bound
  (`strict_chunk_sample_bound`), for all probability sequences.

  The bound counts on a split near the equal division.  A split at a trough may
  be anywhere in the legal range, and a hard limit of zero splits nothing; for
  every option set that leaves one of these open there is a sequence whose first
  chunk is too long: one long run with a single trough at the far end of the
  range of the first split.
-/

import Svod.Arch.VadSound

namespace Svod.Arch.Vad

open Svod.Intervals

section

variable {P D : Type*} [LinearOrder P] [LinearOrder D] [Zero D] (opts : ChunkerOpts P D)
  (toProbs : D →o ℕ) (bound : ℕ)

/-- The bound of the options. -/
def sampleBound : Option ℕ :=
  strictChunkSampleBound (toProbs opts.strictLimitDuration) (troughRadius opts)
    opts.samplesPerProb opts.padSamples opts.alignTo

/-- What the chunker promises of a probability sequence, where the bound of the options is
    `bound`. -/
structure Meets (probs : List P) : Prop where
  /-- Every run is cut in consecutive pieces that are not empty. -/
  partitions : ∀ (segments : List (ℕ × ℕ)) (r : ℕ) (tt : Option P) (limit : ℕ),
    (∀ s ∈ segments, Proper s) → ∃ cut : ℕ × ℕ → List (ℕ × ℕ),
      splitLongRuns probs segments r tt limit = segments.flatMap cut ∧
        ∀ s ∈ segments, Tiles s.1 s.2 (cut s)
  /-- The chunks are the hulls of consecutive groups of all segments. -/
  packs : ∀ (minProbs maxProbs strictLimit : ℕ) (segments : List (ℕ × ℕ)),
    ∃ groups : List (List (ℕ × ℕ)), groups.flatten = segments ∧ (∀ g ∈ groups, g ≠ []) ∧
      packSegments minProbs maxProbs strictLimit segments = groups.map hull
  within : ∀ chunks, chunksFromProbs opts toProbs probs = .ok chunks →
    ∀ a ∈ chunks, a.decodeLen ≤ bound

/-- No frame of a speech run can be below the trough threshold `t`: no probability is, or the runs
    have no frame below the speech threshold. -/
def Quiet (t : P) : Prop :=
  (∀ p, t ≤ p) ∨ (t ≤ opts.threshold ∧ opts.minSilenceProbs ≤ 1 ∧ opts.mergeGapProbs = 0)

/-- The options with which the bound is kept. -/
def BoundKept : Prop :=
  (∃ m, opts.maxTotalSamples = some m ∧ m ≤ bound) ∨
  (0 < toProbs opts.strictLimitDuration ∧
    (toProbs opts.strictLimitDuration = 1 ∨ targetProbs opts toProbs ≠ none ∨
      ∀ t, opts.troughThreshold = some t → Quiet opts t))

end

/-! ## Runs without a frame below the threshold -/

section Speech

variable {P : Type*} [LinearOrder P] {threshold : P} {minSpeech minSilence : ℕ}

/-- When one silent frame ends a run, all frames of a run are speech. -/
theorem scan_speechOnly (hsilence : minSilence ≤ 1) {Q : ℕ → Prop} (probs : List P) {i : ℕ}
    {start : Option ℕ} (hQ : ∀ j p, probs[j]? = some p → threshold ≤ p → Q (i + j))
    (hstart : ∀ s, start = some s → ∀ j, s ≤ j → j < i → Q j) :
    ∀ seg ∈ scan threshold minSpeech minSilence i start 0 probs,
      ∀ j, seg.1 ≤ j → j < seg.2 → Q j := by
  induction probs generalizing i start with
  | nil =>
    cases start with
    | none => simp [scan]
    | some s =>
      intro seg hseg
      simp only [scan] at hseg
      split at hseg
      · obtain rfl := List.mem_singleton.mp hseg
        exact hstart s rfl
      · exact absurd hseg List.not_mem_nil
  | cons p probs ih =>
    have hrest : ∀ j q, probs[j]? = some q → threshold ≤ q → Q (i + 1 + j) := fun j q hq hle => by
      have h := hQ (j + 1) q hq hle
      rwa [Nat.add_assoc, Nat.add_comm 1 j]
    by_cases hp : threshold ≤ p
    · rw [scan_speech hp]
      refine ih hrest ?_
      rintro s ⟨⟩ j hj hlt
      rcases Nat.lt_succ_iff_lt_or_eq.mp hlt with hlt | rfl
      · cases start with
        | none => exact absurd hlt (not_lt.mpr hj)
        | some s => exact hstart s rfl j hj hlt
      · exact hQ 0 p rfl hp
    · cases start with
      | none =>
        rw [scan_idle hp]
        exact ih hrest (by simp)
      | some s =>
        rw [scan_silence hp, if_pos (by omega)]
        intro seg hseg
        rcases List.mem_append.mp hseg with hseg | hseg
        · split at hseg
          · obtain rfl := List.mem_singleton.mp hseg
            exact hstart s rfl
          · exact absurd hseg List.not_mem_nil
        · exact @ih (i + 1) none hrest (by simp) seg hseg

theorem mergeGaps_zero {last : ℕ × ℕ} {raw : List (ℕ × ℕ)} (h : Spaced (last :: raw)) :
    mergeGaps 0 last raw = last :: raw := by
  induction raw generalizing last with
  | nil => rfl
  | cons seg raw ih =>
    have hgap : last.2 < seg.1 := (List.pairwise_cons.mp h.apart).1 seg List.mem_cons_self
    rw [mergeGaps, if_neg (by omega), ih h.tail]

/-- The runs of an option set that joins no silence are of speech only. -/
theorem adaptedSegments_speechOnly (hsilence : minSilence ≤ 1) (probs : List P) (limit : ℕ) :
    ∀ seg ∈ adaptedSegments threshold minSpeech probs limit minSilence 0,
      ∀ j, seg.1 ≤ j → j < seg.2 → ∀ p, probs[j]? = some p → threshold ≤ p := by
  have hscan := @scan_speechOnly P _ threshold minSpeech minSilence hsilence
    (fun j => ∀ p, probs[j]? = some p → threshold ≤ p) probs 0 none
    (fun j p hp hle q hq => by
      rw [Nat.zero_add, hp] at hq
      exact Option.some.inj hq ▸ hle) nofun
  obtain ⟨hspaced, -⟩ := @scan_spaced P _ threshold minSpeech minSilence probs 0 0 none nofun
  rw [adaptedSegments, if_pos (.inr (by omega)), thresholdSegments]
  split
  case h_1 => simp
  case h_2 seg raw heq =>
    rw [heq] at hscan hspaced
    rw [mergeGaps_zero hspaced]
    exact hscan

end Speech

/-! ## Options that keep the bound -/

section Kept

variable {P D : Type*} [LinearOrder P] [LinearOrder D] [Zero D] {opts : ChunkerOpts P D}
  {toProbs : D →o ℕ}

omit [LinearOrder P] in
/-- What `validate` accepts. -/
theorem validate_ok (h : validate opts = .ok ()) :
    0 < opts.samplesPerProb ∧ 0 < opts.alignTo ∧ opts.minDuration ≤ opts.maxDuration ∧
      opts.maxDuration ≤ opts.strictLimitDuration := by
  rw [validate] at h
  by_cases hspp : opts.samplesPerProb = 0
  · rw [if_pos hspp] at h
    cases h
  by_cases halign : opts.alignTo = 0
  · rw [if_neg hspp, if_pos halign] at h
    cases h
  by_cases hmin : opts.minDuration ≤ opts.maxDuration
  · by_cases hmax : opts.maxDuration ≤ opts.strictLimitDuration
    · exact ⟨Nat.pos_of_ne_zero hspp, Nat.pos_of_ne_zero halign, hmin, hmax⟩
    · rw [if_neg hspp, if_neg halign, if_pos hmin, if_neg hmax] at h
      cases h
  · rw [if_neg hspp, if_neg halign, if_neg hmin] at h
    cases h

theorem chunksFromProbs_eq (hvalid : validate opts = .ok ()) (probs : List P) :
    chunksFromProbs opts toProbs probs =
      .ok (if probs = [] then []
        else postProcess opts toProbs (rawChunks opts toProbs probs) probs.length) := by
  rw [chunksFromProbs, hvalid]
  by_cases hnil : probs = []
  · rw [if_pos hnil]
    simp [hnil, bind, Except.bind, pure, Except.pure]
  · rw [if_neg hnil]
    simp [hnil, bind, Except.bind, pure, Except.pure]

omit [Zero D] [LinearOrder D] in
/-- The runs that are split have no trough below the threshold. -/
theorem noTrough_of_quiet (probs : List P) (limit : ℕ)
    (hquiet : ∀ t, opts.troughThreshold = some t → Quiet opts t) :
    ∀ s ∈ adaptedSegments opts.threshold opts.minSpeechProbs probs limit opts.minSilenceProbs
      opts.mergeGapProbs, NoTrough probs opts.troughThreshold s.1 s.2 := by
  intro s hs
  cases htt : opts.troughThreshold with
  | none => exact noTrough_none _ _
  | some t =>
    refine noTrough_of_le fun j hlo hhi p hp => ?_
    rcases hquiet t htt with hleast | ⟨hle, hsilence, hgap⟩
    · exact hleast p
    · rw [hgap] at hs
      exact hle.trans (adaptedSegments_speechOnly hsilence probs limit s hs j hlo hhi p hp)

/-- The chunks before `post_process` are within the hard limit and twice the radius. -/
theorem rawChunks_le (hvalid : validate opts = .ok ())
    (hpos : 0 < toProbs opts.strictLimitDuration)
    (hkept : toProbs opts.strictLimitDuration = 1 ∨ targetProbs opts toProbs ≠ none ∨
      ∀ t, opts.troughThreshold = some t → Quiet opts t) (probs : List P) :
    ∀ c ∈ rawChunks opts toProbs probs,
      c.2 - c.1 ≤ toProbs opts.strictLimitDuration + 2 * troughRadius opts := by
  have hmax : toProbs opts.maxDuration ≤ toProbs opts.strictLimitDuration :=
    toProbs.monotone (validate_ok hvalid).2.2.2
  rw [rawChunks]
  cases htarget : targetProbs opts toProbs with
  | some t =>
    -- the second split has no troughs, and a cap below the hard limit
    have ht : 0 < t ∧ t < toProbs opts.maxDuration := by
      have h := (Option.filter_eq_some_iff.mp htarget).2
      exact of_decide_eq_true h
    intro c hc
    have hcap : 0 < min (t + t / 2) (toProbs opts.maxDuration) := by omega
    have hle := splitLongRuns_le hcap (fun s _ => .inr (noTrough_none s.1 s.2)) c hc
    omega
  | none =>
    refine packSegments_le (by omega) (by omega) (splitLongRuns_le hpos fun s hs => ?_)
    rcases hkept with hone | htarget' | hquiet
    · exact .inl hone
    · exact absurd htarget htarget'
    · exact .inr (noTrough_of_quiet probs _ hquiet s hs)

omit [LinearOrder P] [Zero D] in
theorem sampleBound_eq {bound : ℕ} (h : sampleBound opts toProbs = some bound) :
    bound = (toProbs opts.strictLimitDuration + 2 * troughRadius opts) * opts.samplesPerProb +
      2 * opts.padSamples + 2 * opts.alignTo := by
  simp only [sampleBound, strictChunkSampleBound, usize, Option.bind_eq_bind,
    Option.bind_eq_some_iff, Option.ite_none_right_eq_some, Option.some.injEq] at h
  obtain ⟨_, ⟨-, rfl⟩, _, ⟨-, rfl⟩, _, ⟨-, rfl⟩, _, ⟨-, rfl⟩, _, ⟨-, rfl⟩, _, ⟨-, rfl⟩, -, rfl⟩ := h
  rfl

theorem within_of_boundKept (hvalid : validate opts = .ok ()) {bound : ℕ}
    (hbound : sampleBound opts toProbs = some bound) (hkept : BoundKept opts toProbs bound)
    (probs : List P) {chunks : List AudioChunk}
    (hchunks : chunksFromProbs opts toProbs probs = .ok chunks) :
    ∀ a ∈ chunks, a.decodeLen ≤ bound := by
  rw [chunksFromProbs_eq hvalid] at hchunks
  obtain rfl := Except.ok.inj hchunks
  intro a ha
  split at ha
  case isTrue => exact absurd ha List.not_mem_nil
  case isFalse =>
    obtain ⟨prev, c, hc, next, heq⟩ := mem_audioChunks ha
    rcases hkept with ⟨m, hm, hle⟩ | ⟨hpos, hkept⟩
    · -- no window reaches beyond the audio
      obtain ⟨-, -, -, -, hend⟩ := audioChunk_eq heq
      have hmax : maxSample opts probs.length ≤ m := by
        rw [maxSample, hm]
        exact min_le_left _ _
      have hlen : a.decodeEndSample ≤ m := hend ▸ (min_le_right _ _).trans hmax
      rw [AudioChunk.decodeLen]
      omega
    · rw [sampleBound_eq hbound]
      exact decodeLen_le (validate_ok hvalid).2.1 rfl (Nat.le_add_right _ _)
        (rawChunks_le hvalid hpos hkept probs c hc) heq

end Kept

/-! ## A run with one trough -/

section OneTrough

variable {P : Type*} [LinearOrder P] {threshold hi lo t : P} {minSpeech minSilence mergeGap : ℕ}

/-- A run of speech with one frame of its own after `x` frames. -/
def dip (hi lo : P) (x y : ℕ) : List P := List.replicate x hi ++ lo :: List.replicate y hi

omit [LinearOrder P] in
theorem dip_length (x y : ℕ) : (dip hi lo x y).length = x + 1 + y := by
  simp [dip]
  omega

theorem scan_replicate (hhi : threshold ≤ hi) (m i silence : ℕ) (start : Option ℕ)
    (rest : List P) :
    scan threshold minSpeech minSilence i start silence (List.replicate (m + 1) hi ++ rest) =
      scan threshold minSpeech minSilence (i + (m + 1)) (some (start.getD i)) 0 rest := by
  induction m generalizing i silence start with
  | zero => exact scan_speech hhi i start silence rest
  | succ m ih =>
    rw [List.replicate_succ, List.cons_append, scan_speech hhi, ih, Option.getD_some,
      Nat.add_assoc, Nat.add_comm 1]

/-- The frame does not end the run: it is speech, or too short a silence, or a gap that is merged. -/
theorem thresholdSegments_dip (hhi : threshold ≤ hi)
    (hdip : threshold ≤ lo ∨ 2 ≤ minSilence ∨ 1 ≤ mergeGap) {x y : ℕ} (hx : minSpeech ≤ x)
    (hy : minSpeech ≤ y) (hx0 : 0 < x) (hy0 : 0 < y) :
    thresholdSegments threshold minSpeech minSilence mergeGap (dip hi lo x y) =
      [(0, x + 1 + y)] := by
  obtain ⟨x, rfl⟩ := Nat.exists_eq_succ_of_ne_zero hx0.ne'
  obtain ⟨y, rfl⟩ := Nat.exists_eq_succ_of_ne_zero hy0.ne'
  have hrest : ∀ (i silence : ℕ) (start : Option ℕ),
      scan threshold minSpeech minSilence i start silence (List.replicate (y + 1) hi) =
        scan threshold minSpeech minSilence (i + (y + 1)) (some (start.getD i)) 0 [] :=
    fun i silence start => by
      have h := @scan_replicate P _ threshold hi minSpeech minSilence hhi y i silence start []
      rwa [List.append_nil] at h
  rw [thresholdSegments, dip, scan_replicate hhi, Option.getD_none, Nat.zero_add]
  by_cases hlo : threshold ≤ lo
  · rw [scan_speech hlo, hrest]
    simp only [scan, Option.getD_some]
    rw [if_pos (by omega)]
    rfl
  · rw [scan_silence hlo]
    by_cases hend : minSilence = 0 ∨ minSilence ≤ 0 + 1
    · -- two runs with a gap of one frame
      have hgap : 1 ≤ mergeGap := (hdip.resolve_left hlo).resolve_left (by omega)
      rw [if_pos hend, if_pos (by omega), hrest]
      simp only [scan, Option.getD_none, List.singleton_append]
      rw [if_pos (by omega)]
      simp only [mergeGaps]
      rw [if_pos (by omega)]
    · rw [if_neg hend, hrest]
      simp only [scan, Option.getD_some]
      rw [if_pos (by omega)]
      rfl

theorem adaptedSegments_dip (hhi : threshold ≤ hi)
    (hdip : threshold ≤ lo ∨ 2 ≤ minSilence ∨ 1 ≤ mergeGap) {x y : ℕ} (hx : minSpeech ≤ x)
    (hy : minSpeech ≤ y) (hx0 : 0 < x) (hy0 : 0 < y) (limit : ℕ) :
    adaptedSegments threshold minSpeech (dip hi lo x y) limit minSilence mergeGap =
      [(0, x + 1 + y)] := by
  induction minSilence, mergeGap using
    adaptedSegments.induct threshold minSpeech (dip hi lo x y) limit with
  | case1 minSilence mergeGap segs hstop =>
    rw [adaptedSegments, if_pos hstop]
    exact thresholdSegments_dip hhi hdip hx hy hx0 hy0
  | case2 minSilence mergeGap segs hgo ih =>
    rw [adaptedSegments, if_neg hgo]
    exact ih (.inr (.inl (le_max_right _ _)))

/-- The only trough of the run decides the split. -/
theorem troughSplit_dip (hhi : t ≤ hi) (hlo : lo < t) {a x y : ℕ} (hax : a ≤ x) (target : ℕ) :
    troughSplit (dip hi lo x y) (some t) a x target = some x := by
  have hslice : slice (dip hi lo x y) a x = List.replicate (x - a) hi ++ [lo] := by
    rw [slice, dip, List.take_append, List.take_of_length_le (by simp), List.length_replicate,
      Nat.add_sub_cancel_left, List.take_succ_cons, List.take_zero, List.drop_append,
      List.drop_replicate, List.length_replicate, Nat.sub_eq_zero_of_le hax, List.drop_zero]
  have htroughs : troughs (dip hi lo x y) t a x = [x - a] := by
    rw [troughs, hslice, List.zipIdx_append, List.filter_append, List.length_replicate]
    have hnil : (List.replicate (x - a) hi).zipIdx.filter (fun e => decide (e.1 < t)) = [] := by
      refine List.filter_eq_nil_iff.mpr fun e he => ?_
      have hmem : e.1 = hi := List.eq_of_mem_replicate (List.fst_mem_of_mem_zipIdx he)
      simpa [hmem] using hhi
    rw [hnil]
    simp [hlo]
  show (if x < a then none else _) = some x
  rw [if_neg (not_lt.mpr hax), htroughs, List.argmin_singleton, Option.map_some]
  congr 1
  omega

/-- The first piece of the run ends at its trough. -/
theorem splitRun_dip (hhi : t ≤ hi) (hlo : lo < t) {n limit : ℕ} (hn : 1 < n) (hlimit : 1 < limit)
    (r : ℕ) :
    let mp := max (n * limit / (2 * n)) 1
    let y := (n - 1) * mp
    let x := n * limit - y - 1
    n ≤ x ∧ n - 1 ≤ y ∧ x + 1 + y = n * limit ∧
      ∃ rest, splitRun (dip hi lo x y) r (some t) limit (0, x + 1 + y) = (0, x) :: rest ∧
        Tiles x (x + 1 + y) rest := by
  intro mp y x
  have hlen : n ≤ n * limit := Nat.le_mul_of_pos_right n (by omega)
  have hmpPos : 1 ≤ mp := le_max_right _ _
  -- a piece takes at most half of its share
  have hmp : mp + 1 ≤ limit := by
    have hhalf : n * limit / (2 * n) = limit / 2 := by
      rw [Nat.mul_comm 2 n, Nat.mul_div_mul_left _ _ (by omega)]
    have : mp = max (limit / 2) 1 := by rw [← hhalf]
    omega
  have hy : y + (n - 1) ≤ (n - 1) * limit := by
    calc y + (n - 1) = (n - 1) * (mp + 1) := by rw [Nat.mul_succ]
      _ ≤ (n - 1) * limit := Nat.mul_le_mul_left _ hmp
  have hyn : n - 1 ≤ y := Nat.le_mul_of_pos_right _ hmpPos
  have hsplit : n * limit = (n - 1) * limit + limit := by
    obtain ⟨m, rfl⟩ := Nat.exists_eq_succ_of_ne_zero (Nat.ne_zero_of_lt hn)
    rw [Nat.succ_sub_one, Nat.succ_mul]
  have hsum : x + 1 + y = n * limit := by omega
  refine ⟨by omega, hyn, hsum, ?_⟩
  have hcount : (n * limit + limit - 1) / limit = n := by
    rw [Nat.add_sub_assoc (by omega), Nat.add_comm, Nat.add_mul_div_right _ _ (by omega),
      Nat.div_eq_of_lt (by omega), Nat.zero_add]
  rw [hsum, splitRun, if_neg (by dsimp only; omega)]
  dsimp only
  rw [Nat.sub_zero, hcount]
  obtain ⟨m, rfl⟩ : ∃ m, n = m + 2 := ⟨n - 2, by omega⟩
  have hk : m + 2 - (m + 1) = 1 := by omega
  have hat : splitAt (dip hi lo x y) r (some t) 0 ((m + 2) * limit) (m + 2) mp 1 0 = x := by
    have htrough := @troughSplit_dip P _ hi lo t hhi hlo (0 + mp) x y (by omega)
      (0 + ((m + 2) * limit - 0) * 1 / (m + 2))
    rw [splitAt, show (m + 2) * limit - (m + 2 - 1) * mp - 1 = x from rfl, htrough]
  refine ⟨pieces (dip hi lo x y) r (some t) 0 ((m + 2) * limit) (m + 2) mp m x, ?_, ?_⟩
  · show pieces _ _ _ _ _ _ mp (m + 1) 0 = _
    rw [pieces, hk, hat, if_pos ⟨by omega, by omega⟩]
  · refine pieces_tiles hmpPos m (by omega) ?_
    have hyeq : y = (m + 1) * mp := rfl
    omega

end OneTrough

/-! ## Options that do not -/

section Broken

variable {P D : Type*} [LinearOrder P] [LinearOrder D] [Zero D] {opts : ChunkerOpts P D}
  {toProbs : D →o ℕ} {bound : ℕ}

/-- A first chunk from the start of the audio is decoded in full. -/
theorem exists_long (hvalid : validate opts = .ok ()) {probs : List P} {x : ℕ}
    {rest : List (ℕ × ℕ)} (hraw : rawChunks opts toProbs probs = (0, x) :: rest)
    (hx : bound < x) (hlen : x ≤ probs.length)
    (hmax : ∀ m, opts.maxTotalSamples = some m → bound < m) :
    ∃ chunks, chunksFromProbs opts toProbs probs = .ok chunks ∧
      ∃ a ∈ chunks, bound < a.decodeLen := by
  obtain ⟨hspp, halign, -⟩ := validate_ok hvalid
  have hne : probs ≠ [] := by
    rintro rfl
    exact absurd hlen (by simp; omega)
  refine ⟨_, chunksFromProbs_eq hvalid probs, ?_⟩
  rw [if_neg hne, hraw, postProcess, audioChunks]
  generalize toProbs opts.strictLimitDuration * opts.samplesPerProb = strict
  generalize hmaxSample : maxSample opts probs.length = last
  have hgrid : x ≤ probs.length * opts.samplesPerProb :=
    hlen.trans (Nat.le_mul_of_pos_right _ hspp)
  have hlast : bound < last := by
    rw [← hmaxSample, maxSample]
    cases hm : opts.maxTotalSamples with
    | none =>
      rw [Option.getD_none, min_self]
      omega
    | some m =>
      have := hmax m hm
      rw [Option.getD_some]
      omega
  have hcore : bound < coreEnd opts last (0, x) := by
    have := Nat.le_mul_of_pos_right x hspp
    rw [coreEnd]
    dsimp only
    omega
  have hstart : coreStartAdj opts strict last none (0, x) = 0 := by
    simp [coreStartAdj]
  have hnonempty : coreStartAdj opts strict last none (0, x) < coreEnd opts last (0, x) :=
    hstart.trans_lt (Nat.zero_lt_of_lt hcore)
  obtain ⟨a, ha⟩ := exists_audioChunk halign rest.head? hnonempty
  refine ⟨a, List.mem_append_left _ (Option.mem_toList.mpr ha), ?_⟩
  obtain ⟨hleft, hright, -⟩ := audioChunk_window halign ha
  obtain ⟨hcoreStart, hcoreEnd, -⟩ := audioChunk_eq ha
  rw [AudioChunk.decodeLen]
  omega

omit [LinearOrder P] [Zero D] in
theorem targetProbs_of_zero (hzero : toProbs opts.maxDuration = 0) :
    targetProbs opts toProbs = none := by
  rw [targetProbs, hzero]
  cases opts.targetDuration with
  | none => rfl
  | some d => simp

/-- A hard limit of zero splits nothing, and a run of any length is one chunk. -/
theorem exists_long_zero (hvalid : validate opts = .ok ())
    (hzero : toProbs opts.strictLimitDuration = 0)
    (hmax : ∀ m, opts.maxTotalSamples = some m → bound < m) :
    ∃ probs chunks, chunksFromProbs opts toProbs probs = .ok chunks ∧
      ∃ a ∈ chunks, bound < a.decodeLen := by
  have hmaxZero : toProbs opts.maxDuration = 0 :=
    Nat.le_zero.mp (hzero ▸ toProbs.monotone (validate_ok hvalid).2.2.2)
  let m := bound + opts.minSpeechProbs + 1
  let probs := dip opts.threshold opts.threshold m m
  have hraw : rawChunks opts toProbs probs = [(0, m + 1 + m)] := by
    rw [rawChunks, targetProbs_of_zero hmaxZero, hzero,
      adaptedSegments_dip le_rfl (.inl le_rfl) (by omega) (by omega) (by omega) (by omega)]
    rfl
  refine ⟨probs, exists_long hvalid hraw (by omega) ?_ hmax⟩
  rw [dip_length]

/-- A single trough at the far end of the range of the first split makes the first piece too
    long. -/
theorem exists_long_trough (hvalid : validate opts = .ok ())
    (hlimit : 1 < toProbs opts.strictLimitDuration) (htarget : targetProbs opts toProbs = none)
    {t : P} (htt : opts.troughThreshold = some t) (hquiet : ¬ Quiet opts t)
    (hmax : ∀ m, opts.maxTotalSamples = some m → bound < m) :
    ∃ probs chunks, chunksFromProbs opts toProbs probs = .ok chunks ∧
      ∃ a ∈ chunks, bound < a.decodeLen := by
  obtain ⟨-, -, hminMax, hmaxStrict⟩ := validate_ok hvalid
  have hmin := toProbs.monotone hminMax
  have hstrict := toProbs.monotone hmaxStrict
  obtain ⟨hleast, hjoin⟩ := not_or.mp hquiet
  -- a frame below the trough threshold that does not end the run
  obtain ⟨lo, hlo, hdip⟩ : ∃ lo, lo < t ∧
      (opts.threshold ≤ lo ∨ 2 ≤ opts.minSilenceProbs ∨ 1 ≤ opts.mergeGapProbs) := by
    rcases lt_or_ge opts.threshold t with hlt | hge
    · exact ⟨opts.threshold, hlt, .inl le_rfl⟩
    · obtain ⟨p, hp⟩ := not_forall.mp hleast
      refine ⟨p, not_le.mp hp, .inr ?_⟩
      by_contra hnone
      exact hjoin ⟨hge, by omega, by omega⟩
  let hi := max opts.threshold t
  let n := toProbs opts.strictLimitDuration + bound + opts.minSpeechProbs + 2
  have hrun := splitRun_dip (le_max_right opts.threshold t) hlo
    (show 1 < n by omega) hlimit (troughRadius opts)
  dsimp only at hrun
  generalize (n - 1) * max (n * toProbs opts.strictLimitDuration /
    (2 * n)) 1 = y at hrun
  generalize n * toProbs opts.strictLimitDuration - y - 1 = x at hrun
  obtain ⟨hx, hy, -, rest, hsplit, htiles⟩ := hrun
  obtain ⟨last, hpacked⟩ : ∃ last, rawChunks opts toProbs (dip hi lo x y) = (0, x) :: last := by
    rw [rawChunks, htarget,
      adaptedSegments_dip (le_max_left _ _) hdip (by omega) (by omega) (by omega) (by omega), htt,
      splitLongRuns, if_neg (by omega), List.flatMap_singleton, hsplit]
    cases rest with
    | nil =>
      exact absurd htiles (show ¬ x = x + 1 + y by omega)
    | cons seg rest =>
      -- the second piece would push the chunk past the maximum
      obtain ⟨hseg, hproper, -⟩ := htiles
      have hlt : seg.1 < seg.2 := hproper
      rw [packSegments, packFrom, if_pos (by dsimp only; omega)]
      exact ⟨_, rfl⟩
  refine ⟨dip hi lo x y, exists_long hvalid hpacked (by omega) ?_ hmax⟩
  rw [dip_length]
  omega

end Broken

/-! ## The size bound -/

section

variable {P D : Type*} [LinearOrder P] [LinearOrder D] [Zero D] (opts : ChunkerOpts P D)
  (toProbs : D →o ℕ)

/-- For options that `validate` accepts and that have a bound, the chunks of all probability
    sequences are what is promised exactly when the bound does not hang on where a trough is: the
    hard limit is not zero, and it is one, a soft target splits again, or no frame of a run can be
    below the trough threshold; or the audio is no longer than the bound. -/
theorem chunksFromProbs_meets_iff (hvalid : validate opts = .ok ()) {bound : ℕ}
    (hbound : sampleBound opts toProbs = some bound) :
    (∀ probs, Meets opts toProbs bound probs) ↔ BoundKept opts toProbs bound := by
  constructor
  · intro hmeets
    by_contra hbroken
    obtain ⟨hmax, hkept⟩ := not_or.mp hbroken
    have hmax : ∀ m, opts.maxTotalSamples = some m → bound < m :=
      fun m hm => not_le.mp fun hle => hmax ⟨m, hm, hle⟩
    obtain ⟨probs, chunks, hchunks, a, ha, hlong⟩ : ∃ probs chunks,
        chunksFromProbs opts toProbs probs = .ok chunks ∧
          ∃ a ∈ chunks, bound < a.decodeLen := by
      rcases Nat.eq_zero_or_pos (toProbs opts.strictLimitDuration) with hzero | hpos
      · exact exists_long_zero hvalid hzero hmax
      · obtain ⟨hone, hrest⟩ := not_or.mp fun h => hkept ⟨hpos, h⟩
        obtain ⟨htarget, hquiet⟩ := not_or.mp hrest
        obtain ⟨t, ht⟩ := not_forall.mp hquiet
        obtain ⟨htt, ht⟩ := Classical.not_imp.mp ht
        exact exists_long_trough hvalid (by omega) (not_not.mp htarget) htt ht hmax
    exact absurd ((hmeets probs).within chunks hchunks a ha) hlong.not_ge
  · intro hkept probs
    exact
      { partitions := fun segments r tt limit hs => splitLongRuns_tiles hs r tt limit
        packs := packSegments_groups
        within := fun chunks hchunks => within_of_boundKept hvalid hbound hkept probs hchunks }

end

/-- A hard limit of four probabilities and a trough threshold; probabilities in percent. -/
def troughOpts : ChunkerOpts ℕ ℕ where
  samplesPerProb := 512
  threshold := 50
  minDuration := 1
  maxDuration := 4
  targetDuration := none
  strictLimitDuration := 4
  minSpeechProbs := 1
  minSilenceProbs := 1
  mergeGapProbs := 0
  troughSearchProbs := some 0
  troughThreshold := some 80
  padSamples := 0
  prerollSamples := 0
  alignTo := 1
  maxTotalSamples := none

theorem chunksFromProbs_meets_iff_narrow :
    Meets { troughOpts with troughThreshold := none } OrderHom.id 2050
      [90, 90, 90, 90, 90, 60, 90, 90] :=
  (chunksFromProbs_meets_iff { troughOpts with troughThreshold := none } OrderHom.id rfl
    (by decide)).mpr (.inr ⟨by decide, .inr (.inr nofun)⟩) _

/-- Eight frames of speech, the sixth less sure: the split there leaves a chunk of five frames,
    2560 samples, over the bound of 2050. -/
theorem chunksFromProbs_exceeds :
    validate troughOpts = .ok () ∧ sampleBound troughOpts OrderHom.id = some 2050 ∧
      ¬ Meets troughOpts OrderHom.id 2050 [90, 90, 90, 90, 90, 60, 90, 90] := by
  refine ⟨rfl, by decide, fun hmeets => ?_⟩
  have hsegments : adaptedSegments troughOpts.threshold troughOpts.minSpeechProbs
      [90, 90, 90, 90, 90, 60, 90, 90] (OrderHom.id troughOpts.strictLimitDuration)
      troughOpts.minSilenceProbs troughOpts.mergeGapProbs = [(0, 8)] := by
    rw [adaptedSegments, if_pos (.inr (by decide))]
    rfl
  have hraw : rawChunks troughOpts OrderHom.id [90, 90, 90, 90, 90, 60, 90, 90] =
      [(0, 5), (5, 8)] := by
    rw [rawChunks, hsegments]
    decide
  have h := hmeets.within _ (chunksFromProbs_eq rfl _) ⟨0, 2560, 0, 2560⟩ (by
    rw [if_neg (by decide), hraw]
    decide)
  exact absurd h (by decide)

end Svod.Arch.Vad
