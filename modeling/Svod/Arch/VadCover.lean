/-
  Svod.Arch.VadCover

  The chunks that `post_process` makes of raw chunks in order: cores in order
  inside the audio, each inside its decode window.  Two decode windows next to
  each other overlap by less than an alignment step except where both ends of a
  gap, padded, lie strictly inside one step of the alignment: the floor of the
  one and the ceiling of the other are then a whole step apart.
-/

import Mathlib.Data.List.Chain
import Svod.Arch.VadBound

namespace Svod.Arch.Vad

open Svod.Intervals

variable {c : ℕ × ℕ} {prev : Option (ℕ × ℕ)} {chunks : List (ℕ × ℕ)}

section

variable {P D : Type*} (opts : ChunkerOpts P D) (strict last : ℕ)

/-- What the chunks have to be, `last` being the end of the audio. -/
structure Cover (align last : ℕ) (out : List AudioChunk) : Prop where
  cores : ∀ a ∈ out, a.startSample < a.endSample ∧ a.endSample ≤ last
  /-- The cores are sorted and disjoint. -/
  sorted : out.Pairwise fun a b => a.endSample ≤ b.startSample
  windows : ∀ a ∈ out, a.decodeStartSample ≤ a.startSample ∧
    a.endSample ≤ a.decodeEndSample ∧ a.decodeEndSample ≤ last
  overlap : out.IsChain fun a b => a.decodeEndSample - b.decodeStartSample ≤ align - 1

/-- The core of `c` has something of the audio. -/
def InAudio (prev : Option (ℕ × ℕ)) (c : ℕ × ℕ) : Prop :=
  coreStartAdj opts strict last prev c < coreEnd opts last c

/-- The padding on both sides of the gap between two cores. -/
def gapPad (c d : ℕ × ℕ) : ℕ :=
  min opts.padSamples
    ((coreStartAdj opts strict last (some c) d - coreEnd opts last c) / 2)

/-- An alignment step that ends inside the audio has the end of the first core and the start of
    the second, both padded, strictly inside. -/
def SharesStep (c d : ℕ × ℕ) : Prop :=
  ∃ k, k * opts.alignTo < coreEnd opts last c + gapPad opts strict last c d ∧
    coreStartAdj opts strict last (some c) d - gapPad opts strict last c d <
      (k + 1) * opts.alignTo ∧
    (k + 1) * opts.alignTo ≤ last

/-- No two neighbouring cores share a step. -/
def StepsApart (chunks : List (ℕ × ℕ)) : Prop :=
  chunks.IsChain fun c d => InAudio opts strict last (some c) d → ¬ SharesStep opts strict last c d

end

section Chunks

variable {P D : Type*} {opts : ChunkerOpts P D} {strict last : ℕ}

/-! ## Cores -/

theorem coreStartAdj_le (prev : Option (ℕ × ℕ)) (c : ℕ × ℕ) :
    coreStartAdj opts strict last prev c ≤ c.1 * opts.samplesPerProb := by
  rw [coreStartAdj.eq_def]
  exact Nat.sub_le _ _

/-- The pre-roll leaves at least half of the gap. -/
theorem coreEnd_le_start {c d : ℕ × ℕ} (hcd : c.2 ≤ d.1) :
    coreEnd opts last c ≤ coreStartAdj opts strict last (some c) d := by
  have hend : coreEnd opts last c ≤ d.1 * opts.samplesPerProb :=
    (min_le_left _ _).trans (Nat.mul_le_mul_right _ hcd)
  simp only [coreStartAdj]
  omega

theorem coreEnd_mono {c d : ℕ × ℕ} (hcd : c.2 ≤ d.2) : coreEnd opts last c ≤ coreEnd opts last d :=
  min_le_min_right _ (Nat.mul_le_mul_right _ hcd)

/-- A core that starts at its end is past the audio. -/
theorem coreEnd_of_not_inAudio (hspp : 0 < opts.samplesPerProb) (hc : Proper c)
    (hout : ¬ InAudio opts strict last prev c) : coreEnd opts last c = last := by
  have hle := @coreStartAdj_le P D opts strict last prev c
  have hlt : c.1 * opts.samplesPerProb < c.2 * opts.samplesPerProb :=
    Nat.mul_lt_mul_of_pos_right hc hspp
  rw [InAudio, coreEnd] at hout
  rw [coreEnd]
  omega

theorem audioChunk_eq_none (next : Option (ℕ × ℕ)) (hout : ¬ InAudio opts strict last prev c) :
    audioChunk opts strict last prev c next = none := by
  rw [audioChunk, if_pos (not_lt.mp hout)]

/-- Past the end of the audio there are no chunks. -/
theorem audioChunks_past (hspp : 0 < opts.samplesPerProb) (hord : Ordered (c :: chunks))
    (hend : coreEnd opts last c = last) :
    audioChunks opts strict last (some c) chunks = [] ∧
      StepsApart opts strict last (c :: chunks) := by
  induction chunks generalizing c with
  | nil => exact ⟨rfl, List.isChain_singleton _⟩
  | cons d chunks ih =>
    have hcd : c.2 ≤ d.1 := (List.pairwise_cons.mp hord.before).1 d List.mem_cons_self
    have hout : ¬ InAudio opts strict last (some c) d := by
      have hstart : coreEnd opts last c ≤ coreStartAdj opts strict last (some c) d :=
        coreEnd_le_start hcd
      exact not_lt.mpr ((min_le_right _ _).trans (hend.symm.trans_le hstart))
    obtain ⟨hnone, happart⟩ := ih hord.tail
      (coreEnd_of_not_inAudio hspp (hord.tail.proper d List.mem_cons_self) hout)
    refine ⟨?_, List.IsChain.cons_cons (fun h => absurd h hout) happart⟩
    rw [audioChunks, audioChunk_eq_none _ hout, hnone]
    rfl

/-- The chunks after a core start at its end or later. -/
theorem start_of_mem_audioChunks (hord : Ordered (c :: chunks)) {a : AudioChunk}
    (ha : a ∈ audioChunks opts strict last (some c) chunks) :
    coreEnd opts last c ≤ a.startSample := by
  induction chunks generalizing c with
  | nil => exact absurd ha List.not_mem_nil
  | cons d chunks ih =>
    have hcd : c.2 ≤ d.1 := (List.pairwise_cons.mp hord.before).1 d List.mem_cons_self
    have hd : d.1 < d.2 := hord.tail.proper d List.mem_cons_self
    rw [audioChunks] at ha
    rcases List.mem_append.mp ha with ha | ha
    · rw [(audioChunk_eq (Option.mem_toList.mp ha)).1]
      exact coreEnd_le_start hcd
    · exact (coreEnd_mono (hcd.trans hd.le)).trans (ih hord.tail ha)

theorem audioChunks_sorted (hord : Ordered chunks) :
    (audioChunks opts strict last prev chunks).Pairwise
      fun a b => a.endSample ≤ b.startSample := by
  induction chunks generalizing prev with
  | nil => exact .nil
  | cons c chunks ih =>
    rw [audioChunks]
    cases hc : audioChunk opts strict last prev c chunks.head? with
    | none => exact ih hord.tail
    | some a =>
      refine List.pairwise_cons.mpr ⟨fun b hb => ?_, ih hord.tail⟩
      rw [(audioChunk_eq hc).2.1]
      exact start_of_mem_audioChunks hord hb

/-! ## Neighbouring windows -/

/-- Of two ends in order, the ceiling of the first is a step past the floor of the second exactly
    when both are strictly inside one step. -/
theorem overlap_iff {align : ℕ} (halign : 0 < align) {e s : ℕ} (hes : e ≤ s) :
    min ((e + align - 1) / align * align) last - s / align * align ≤ align - 1 ↔
      ¬ ∃ k, k * align < e ∧ s < (k + 1) * align ∧ (k + 1) * align ≤ last := by
  obtain ⟨hfloor, hnext, hceil, habove⟩ := align_window halign s e
  have hsucc : ∀ k, (k + 1) * align = k * align + align := fun k => Nat.succ_mul k align
  constructor
  · rintro hle ⟨k, hke, hsk, hlast⟩
    rw [hsucc] at hsk hlast
    have hq : s / align = k :=
      Nat.div_eq_of_lt_le (hke.le.trans hes) (by rw [hsucc]; exact hsk)
    -- the ceiling of the first end is above `k` steps, so it is at least `k + 1`
    have hstep : (k + 1) * align ≤ (e + align - 1) / align * align :=
      Nat.mul_le_mul_right _ (Nat.lt_of_mul_lt_mul_right (hke.trans_le hceil))
    rw [hsucc] at hstep
    rw [hq] at hle
    omega
  · intro hnone
    by_contra hgt
    refine hnone ⟨s / align, by omega, ?_, ?_⟩
    all_goals
      rw [hsucc]
      omega

/-- The windows of two cores next to each other. -/
theorem audioChunk_overlap_iff (halign : 0 < opts.alignTo) {prev next : Option (ℕ × ℕ)}
    {c d : ℕ × ℕ} (hcd : c.2 ≤ d.1) {a b : AudioChunk}
    (ha : audioChunk opts strict last prev c (some d) = some a)
    (hb : audioChunk opts strict last (some c) d next = some b) :
    a.decodeEndSample - b.decodeStartSample ≤ opts.alignTo - 1 ↔
      ¬ SharesStep opts strict last c d := by
  obtain ⟨-, haend, -, -, hadecode⟩ := audioChunk_eq ha
  obtain ⟨hbstart, hbend, hbcore, hbdecode, -⟩ := audioChunk_eq hb
  have hgap : coreEnd opts last c ≤ coreStartAdj opts strict last (some c) d :=
    coreEnd_le_start hcd
  have hlast : b.endSample ≤ last := hbend ▸ min_le_right _ _
  have hpad : 2 * gapPad opts strict last c d ≤
      coreStartAdj opts strict last (some c) d - coreEnd opts last c := by
    have hhalf : gapPad opts strict last c d ≤
        (coreStartAdj opts strict last (some c) d - coreEnd opts last c) / 2 := min_le_right _ _
    omega
  have hright : padRight opts strict last c (some d) = gapPad opts strict last c d := rfl
  have hleft : padLeft opts strict last (some c) d = gapPad opts strict last c d := rfl
  rw [hadecode, hbdecode, haend, hbstart, hright, hleft, SharesStep]
  generalize gapPad opts strict last c d = pad at hpad ⊢
  rw [min_eq_left (show coreEnd opts last c + pad ≤ last by omega)]
  exact overlap_iff halign (by omega)

/-- The overlaps along the chunks, and the steps along the raw chunks. -/
theorem audioChunks_overlap_iff (hspp : 0 < opts.samplesPerProb) (halign : 0 < opts.alignTo)
    (hord : Ordered chunks) :
    ((audioChunks opts strict last prev chunks).IsChain
      fun a b => a.decodeEndSample - b.decodeStartSample ≤ opts.alignTo - 1) ↔
        StepsApart opts strict last chunks := by
  induction chunks generalizing prev with
  | nil => exact iff_of_true .nil .nil
  | cons c chunks ih =>
    have hc : Proper c := hord.proper c List.mem_cons_self
    by_cases hin : InAudio opts strict last prev c
    case neg =>
      obtain ⟨hnone, hapart⟩ :=
        audioChunks_past hspp hord (coreEnd_of_not_inAudio hspp hc hin)
      rw [audioChunks, audioChunk_eq_none _ hin, hnone]
      exact iff_of_true .nil hapart
    case pos =>
      obtain ⟨a, ha⟩ := exists_audioChunk halign chunks.head? hin
      rw [audioChunks, ha]
      cases chunks with
      | nil => exact iff_of_true (List.isChain_singleton _) (List.isChain_singleton _)
      | cons d chunks =>
        have hcd : c.2 ≤ d.1 := (List.pairwise_cons.mp hord.before).1 d List.mem_cons_self
        by_cases hnext : InAudio opts strict last (some c) d
        case neg =>
          -- `d` and all after it are past the audio
          obtain ⟨hnone, hapart⟩ := audioChunks_past hspp hord.tail
            (coreEnd_of_not_inAudio hspp (hord.tail.proper d List.mem_cons_self) hnext)
          rw [audioChunks, audioChunk_eq_none _ hnext, hnone]
          exact iff_of_true (List.isChain_singleton _)
            (List.IsChain.cons_cons (fun h => absurd h hnext) hapart)
        case pos =>
          obtain ⟨b, hb⟩ := exists_audioChunk halign chunks.head? hnext
          have hrest := @ih (some c) hord.tail
          rw [audioChunks, hb] at hrest ⊢
          rw [StepsApart, List.isChain_cons_cons]
          refine List.isChain_cons_cons.trans (and_congr ?_ hrest)
          rw [audioChunk_overlap_iff halign hcd ha hb]
          exact ⟨fun h _ => h, fun h => h hnext⟩

end Chunks

/-! ## The cover -/

section

variable {P D : Type*} [LinearOrder P] [LinearOrder D] [Zero D] (opts : ChunkerOpts P D)
  (toProbs : D →o ℕ)

omit [LinearOrder P] [Zero D] in
/-- For raw chunks in order, `post_process` gives a cover whose neighbouring windows overlap by
    less than an alignment step exactly when no two neighbouring cores share one. -/
theorem postProcess_cover_iff (hspp : 0 < opts.samplesPerProb) (halign : 0 < opts.alignTo)
    {chunks : List (ℕ × ℕ)} (hord : Ordered chunks) (probsLen : ℕ) :
    Cover opts.alignTo (maxSample opts probsLen) (postProcess opts toProbs chunks probsLen) ↔
      StepsApart opts (toProbs opts.strictLimitDuration * opts.samplesPerProb)
        (maxSample opts probsLen) chunks := by
  rw [postProcess]
  constructor
  · intro h
    exact (audioChunks_overlap_iff hspp halign hord).mp h.overlap
  · intro h
    refine ⟨fun a ha => ?_, audioChunks_sorted hord, fun a ha => ?_,
      (audioChunks_overlap_iff hspp halign hord).mpr h⟩
    · obtain ⟨prev, c, -, next, heq⟩ := mem_audioChunks ha
      obtain ⟨-, hend, hlt, -⟩ := audioChunk_eq heq
      exact ⟨hlt, hend ▸ min_le_right _ _⟩
    · obtain ⟨prev, c, -, next, heq⟩ := mem_audioChunks ha
      exact audioChunk_window halign heq

end

/-- Windows of whole samples never share one. -/
theorem postProcess_cover_iff_samples :
    Cover 1 4096 (postProcess troughOpts OrderHom.id [(0, 1), (2, 3)] 8) := by
  have hord : Ordered [(0, 1), (2, 3)] := ⟨by simp [Proper], by simp⟩
  refine (postProcess_cover_iff troughOpts OrderHom.id (by decide) (by decide) hord 8).mpr
    (List.IsChain.cons_cons (fun _ => ?_) (List.isChain_singleton _))
  rintro ⟨k, hend, hstart, -⟩
  have h1 : k * 1 < 512 := hend
  have h2 : 1024 < (k + 1) * 1 := hstart
  omega

/-- Windows aligned to the frames of an encoder of stride 1280. -/
def strideOpts : ChunkerOpts ℕ ℕ := { troughOpts with alignTo := 1280 }

/-- The cores end at 512 and start at 1024, inside the first stride: both windows have all of
    it. -/
theorem postProcess_overlaps :
    Ordered [(0, 1), (2, 3)] ∧
      postProcess strideOpts OrderHom.id [(0, 1), (2, 3)] 8 =
        [⟨0, 512, 0, 1280⟩, ⟨1024, 1536, 0, 2560⟩] ∧
      ¬ Cover 1280 4096 (postProcess strideOpts OrderHom.id [(0, 1), (2, 3)] 8) := by
  have hout : postProcess strideOpts OrderHom.id [(0, 1), (2, 3)] 8 =
      [⟨0, 512, 0, 1280⟩, ⟨1024, 1536, 0, 2560⟩] := by decide
  refine ⟨⟨by simp [Proper], by simp⟩, hout, fun hcover => ?_⟩
  have hoverlap := hcover.overlap
  rw [hout] at hoverlap
  exact absurd (List.isChain_cons_cons.mp hoverlap).1 (by decide)

end Svod.Arch.Vad
