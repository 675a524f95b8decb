/-
  Svod.Arch.TextWindows

  The windows of a text cover its content, and each one fits.

  `Takes` is what `gather` does to all fields at once.  The rest is arithmetic on
  token ranges: where the segments of an encoding lie (`Laid`), and how far a
  turn of the window loop moves (`Turns.cons`).
-/

import Mathlib.Algebra.GroupWithZero.Nat
import Svod.Arch.TextChunks
import Svod.Lib.Intervals

namespace Svod.Arch.Text

/-! ## Gathering ranges -/

/-- The elements of a field in the listed ranges. -/
def cuts {α : Type} (v : List α) (ranges : List Range) : List α :=
  ranges.flatMap fun r => (v.take r.stop).drop r.start

/-- A range of a field of length `n`. -/
def Range.Within (r : Range) (n : ℕ) : Prop := r.start ≤ r.stop ∧ r.stop ≤ n

/-- `e` is the listed ranges of `enc`, in every field. -/
structure Takes (enc : Encoding) (ranges : List Range) (e : Encoding) : Prop where
  within : ∀ r ∈ ranges, r.Within enc.len
  inputIds : e.inputIds = cuts enc.inputIds ranges
  attentionMask : e.attentionMask = cuts enc.attentionMask ranges
  tokenTypeIds : e.tokenTypeIds = cuts enc.tokenTypeIds ranges
  offsets : e.offsets = cuts enc.offsets ranges
  specialTokensMask : e.specialTokensMask = cuts enc.specialTokensMask ranges
  sequenceIds : e.sequenceIds = cuts enc.sequenceIds ranges
  pair : e.pair = enc.pair

variable {enc e : Encoding} {ranges : List Range}

theorem cuts_cons {α : Type} (v : List α) (r : Range) :
    cuts v (r :: ranges) = (v.take r.stop).drop r.start ++ cuts v ranges := List.flatMap_cons

theorem pick_eq {α : Type} {v : List α} (h : ∀ r ∈ ranges, r.Within v.length) :
    pick v ranges = some (cuts v ranges) := by
  induction ranges with
  | nil => rfl
  | cons r ranges ih =>
    have hr : slice v r = some ((v.take r.stop).drop r.start) := if_pos (h r List.mem_cons_self)
    have hrest := ih fun r' hr' => h r' (List.mem_cons_of_mem r hr')
    rw [pick] at hrest ⊢
    obtain ⟨parts, hparts, hflat⟩ := Option.map_eq_some_iff.mp hrest
    rw [List.mapM_cons, hr, hparts, cuts_cons, ← hflat]
    rfl

theorem pick_eq_none {α : Type} {v : List α} {r : Range} (hr : r ∈ ranges)
    (h : ¬ r.Within v.length) : pick v ranges = none := by
  induction ranges with
  | nil => cases hr
  | cons r' ranges ih =>
    rw [pick, List.mapM_cons]
    rcases List.mem_cons.mp hr with rfl | hr
    · rw [show slice v r = none from if_neg h]
      rfl
    · have hrest := Option.map_eq_none_iff.mp (ih hr)
      cases slice v r' with
      | none => rfl
      | some part =>
        rw [hrest]
        rfl

theorem cuts_nil {α : Type} (ranges : List Range) : cuts ([] : List α) ranges = [] := by
  induction ranges with
  | nil => rfl
  | cons r ranges ih => rw [cuts_cons, ih, List.take_nil, List.drop_nil, List.append_nil]

theorem gather_spec (henc : enc.WellFormed) (h : ∀ r ∈ ranges, r.Within enc.len) :
    ∃ e, gather enc ranges = some e ∧ Takes enc ranges e := by
  have hids : pick enc.inputIds ranges = some (cuts enc.inputIds ranges) := pick_eq h
  have hmask := pick_eq (v := enc.attentionMask) fun r hr => henc.attentionMask ▸ h r hr
  have htypes := pick_eq (v := enc.tokenTypeIds) fun r hr => henc.tokenTypeIds ▸ h r hr
  have hoffsets := pick_eq (v := enc.offsets) fun r hr => henc.offsets ▸ h r hr
  have hspecial := pick_eq (v := enc.specialTokensMask) fun r hr => henc.specialTokensMask ▸ h r hr
  by_cases hrec : enc.sequenceIds.length = enc.len
  · have hseq := pick_eq (v := enc.sequenceIds) fun r hr => hrec ▸ h r hr
    refine ⟨_, by simp only [gather, hids, hmask, htypes, hoffsets, hspecial, hrec, if_pos, hseq,
      Option.bind_eq_bind, Option.bind_some]; rfl, ?_⟩
    exact ⟨h, rfl, rfl, rfl, rfl, rfl, rfl, rfl⟩
  · refine ⟨_, by simp only [gather, hids, hmask, htypes, hoffsets, hspecial, if_neg hrec,
      Option.bind_eq_bind, Option.bind_some]; rfl, ?_⟩
    have hseq := henc.sequenceIds.resolve_left hrec
    exact ⟨h, rfl, rfl, rfl, rfl, rfl, by rw [hseq, cuts_nil], rfl⟩

theorem gather_eq_none {r : Range} (hr : r ∈ ranges) (h : ¬ r.Within enc.len) :
    gather enc ranges = none := by
  have hids : pick enc.inputIds ranges = none := pick_eq_none hr h
  rw [gather, hids]
  rfl

theorem length_cuts {α : Type} {v : List α} (h : ∀ r ∈ ranges, r.Within v.length) :
    (cuts v ranges).length = (ranges.map Range.len).sum := by
  induction ranges with
  | nil => rfl
  | cons r ranges ih =>
    obtain ⟨hr, hranges⟩ := List.forall_mem_cons.mp h
    have hlen := hr.2
    rw [cuts_cons, List.length_append, ih hranges, List.map_cons, List.sum_cons, List.length_drop,
      List.length_take, Range.len, Nat.min_eq_left hlen]

theorem Takes.len_eq (h : Takes enc ranges e) : e.len = (ranges.map Range.len).sum := by
  rw [Encoding.len, h.inputIds, length_cuts h.within]

/-- The whole encoding is its one range. -/
theorem takes_whole (henc : enc.WellFormed) : Takes enc [⟨0, enc.len⟩] enc := by
  have hwhole : ∀ {α : Type} (v : List α), v.length ≤ enc.len → v = cuts v [⟨0, enc.len⟩] := by
    intro α v hv
    rw [cuts_cons, List.take_of_length_le hv, List.drop_zero]
    exact (List.append_nil v).symm
  refine ⟨by simp [Range.Within], hwhole _ (le_refl _), hwhole _ henc.attentionMask.le,
    hwhole _ henc.tokenTypeIds.le, hwhole _ henc.offsets.le, hwhole _ henc.specialTokensMask.le,
    hwhole _ ?_, rfl⟩
  rcases henc.sequenceIds with hrec | hnone
  · exact hrec.le
  · rw [hnone]
    exact Nat.zero_le _

/-! ## Where the segments lie -/

theorem boundarySpecials_le (mask : List ℕ) :
    (boundarySpecials mask).1 + (boundarySpecials mask).2 ≤ mask.length := by
  have hlead : (mask.takeWhile (· = 1)).length ≤ mask.length := (List.takeWhile_sublist _).length_le
  simp only [boundarySpecials]
  omega

theorem span_within {ids : List (Option ℕ)} {id : ℕ} {r : Range}
    (h : Segments.span ids id = some r) : r.start ≤ r.stop ∧ r.stop ≤ ids.length := by
  obtain ⟨start, hstart, h⟩ := Option.bind_eq_some_iff.mp h
  obtain ⟨back, hback, h⟩ := Option.bind_eq_some_iff.mp h
  cases h
  obtain ⟨hlt, hfound, -⟩ := List.findIdx?_eq_some_iff_getElem.mp hstart
  obtain ⟨hbackLt, -, hfirst⟩ := List.findIdx?_eq_some_iff_getElem.mp hback
  rw [List.length_reverse] at hbackLt
  -- the first token from the front is not before the first from the back
  have hle : back ≤ ids.length - 1 - start := by
    by_contra hgt
    refine hfirst (ids.length - 1 - start) (by omega) ?_
    rw [List.getElem_reverse]
    have hindex : ids.length - 1 - (ids.length - 1 - start) = start := by omega
    simp only [hindex]
    exact hfound
  dsimp only
  omega

/-- Where the segments of an encoding lie; only the place of a pair's first text is free. -/
structure Laid (enc : Encoding) (s : Segments) : Prop where
  fixedPrefix : s.fixedPrefix = ⟨0, s.content.start⟩
  trail : s.trail = ⟨s.content.stop, enc.len⟩
  first : s.first.Within enc.len
  content : s.content.Within enc.len
  /-- One text has no first text. -/
  single : enc.pair = false → s.first = ⟨s.content.start, s.content.start⟩

theorem Segments.laid (henc : enc.WellFormed) : Laid enc (Segments.of enc) := by
  rw [Segments.of]
  split
  · next hpair =>
    have hspan : ∀ id r, Segments.span enc.sequenceIds id = some r → r.Within enc.len :=
      fun id r hr => hpair.2 ▸ span_within hr
    have hcontent : ((Segments.span enc.sequenceIds 1).getD ⟨enc.len, enc.len⟩).Within enc.len := by
      cases hspan1 : Segments.span enc.sequenceIds 1 with
      | none => exact ⟨le_refl _, le_refl _⟩
      | some r => exact hspan 1 r hspan1
    refine ⟨rfl, rfl, ?_, hcontent, fun hsingle => ?_⟩
    · cases hspan0 : Segments.span enc.sequenceIds 0 with
      | none => exact ⟨le_refl _, hcontent.1.trans hcontent.2⟩
      | some r => exact hspan 0 r hspan0
    · rw [hsingle] at hpair
      cases hpair.1
  · have hmask := boundarySpecials_le enc.specialTokensMask
    rw [henc.specialTokensMask] at hmask
    refine ⟨rfl, rfl, ⟨le_refl _, ?_⟩, ⟨?_, Nat.sub_le _ _⟩, fun _ => rfl⟩
    · dsimp only
      omega
    · dsimp only
      omega

/-! ## Windows -/

namespace SlidingWindowChunker

variable (c : SlidingWindowChunker) (enc)

/-- The content tokens of the window at `start`, as an interval. -/
def contentOf (start : ℕ) : ℕ × ℕ :=
  (start, min (start + c.contentWindow enc) (Segments.of enc).content.len)

/-- The windows of a text. -/
structure WindowsOf (chunks : List TextChunk) : Prop where
  /-- A window is the fixed tokens around a slice of the content from its first token on. -/
  takes : ∀ k ∈ chunks, Takes enc (c.windowRanges enc k.firstToken) k.encoding
  fits : ∀ k ∈ chunks, k.encoding.len ≤ c.window
  byteOffset : ∀ k ∈ chunks, ∀ o ∈ enc.offsets[(Segments.of enc).content.start + k.firstToken]?,
    k.byteOffset = o.1
  /-- From the first content token to the last, each window past the one before and not past its
      end. -/
  steps : Intervals.Steps 0 (Segments.of enc).content.len
    (chunks.map fun k => c.contentOf enc k.firstToken)
  stride : chunks.IsChain fun a b => b.firstToken ≤ a.firstToken + c.stride

/-- What a chunker of windows is for. -/
def Meets : Prop :=
  ∃ r, c.chunk enc = some r ∧
    match r with
    | .ok chunks =>
      if enc.len = 0 then chunks = []
      else if (Segments.of enc).content.len = 0 then
        chunks = [⟨enc, 0, 0⟩] ∧ enc.len ≤ c.window
      else c.WindowsOf enc chunks ∧ ∀ j < (Segments.of enc).content.len,
        ∃ k ∈ chunks, k.firstToken ≤ j ∧ j < k.firstToken + c.contentWindow enc
    | .error _ => c.window < fixed enc + min 1 (Segments.of enc).content.len

variable {c enc}

/-- A turn keeps its start or moves it back to the last full window. -/
theorem pulledBack_cases (c : SlidingWindowChunker) (enc : Encoding) (start : ℕ) :
    c.pulledBack enc start = start ∨
      (Segments.of enc).content.len < start + c.contentWindow enc ∧
        c.pulledBack enc start = (Segments.of enc).content.len - c.contentWindow enc := by
  simp only [pulledBack]
  split
  · next h => exact .inr ⟨h.2, rfl⟩
  · exact .inl rfl

/-- A window of a text has room for itself. -/
theorem windowRanges_within (hlaid : Laid enc (Segments.of enc)) {start : ℕ}
    (hstart : start ≤ (Segments.of enc).content.len) :
    ∀ r ∈ c.windowRanges enc start, r.Within enc.len := by
  obtain ⟨hlow, hhigh⟩ := hlaid.content
  have hlen : (Segments.of enc).content.len =
    (Segments.of enc).content.stop - (Segments.of enc).content.start := rfl
  intro r hr
  simp only [windowRanges, List.mem_cons, List.not_mem_nil, or_false] at hr
  rcases hr with rfl | rfl | rfl
  · rw [hlaid.fixedPrefix]
    exact ⟨Nat.zero_le _, hlow.trans hhigh⟩
  · refine ⟨?_, ?_⟩
    · dsimp only
      omega
    · dsimp only
      omega
  · rw [hlaid.trail]
    exact ⟨hhigh, le_refl _⟩

theorem window_len_le (hwindow : 1 ≤ c.contentWindow enc) {start : ℕ} {e : Encoding}
    (h : Takes enc (c.windowRanges enc start) e) : e.len ≤ c.window := by
  have hfixed : fixed enc ≤ c.window := by
    rw [contentWindow] at hwindow
    omega
  rw [h.len_eq]
  simp only [windowRanges, List.map_cons, List.map_nil, List.sum_cons, List.sum_nil]
  rw [contentWindow, fixed] at *
  simp only [Range.len] at *
  omega

/-- The turns of the loop from `start` on. -/
structure Turns (c : SlidingWindowChunker) (enc : Encoding) (start : ℕ) (chunks : List TextChunk) :
    Prop where
  head : ∃ k rest, chunks = k :: rest ∧ k.firstToken = c.pulledBack enc start
  takes : ∀ k ∈ chunks, Takes enc (c.windowRanges enc k.firstToken) k.encoding
  byteOffset : ∀ k ∈ chunks, ∀ o ∈ enc.offsets[(Segments.of enc).content.start + k.firstToken]?,
    k.byteOffset = o.1
  steps : Intervals.Steps (c.pulledBack enc start) (Segments.of enc).content.len
    (chunks.map fun k => c.contentOf enc k.firstToken)
  stride : chunks.IsChain fun a b => b.firstToken ≤ a.firstToken + c.stride

/-- One turn of the loop: the last window, or one that the next window moves on from. -/
theorem Turns.cons (hwindow : 1 ≤ c.contentWindow enc) {start : ℕ} {k : TextChunk}
    {chunks : List TextChunk} (hk : k.firstToken = c.pulledBack enc start)
    (htakes : Takes enc (c.windowRanges enc k.firstToken) k.encoding)
    (hbyte : ∀ o ∈ enc.offsets[(Segments.of enc).content.start + k.firstToken]?,
      k.byteOffset = o.1)
    (hmore : c.pulledBack enc start + c.contentWindow enc < (Segments.of enc).content.len)
    (h : c.Turns enc (c.pulledBack enc start + min c.stride (c.contentWindow enc)) chunks) :
    c.Turns enc start (k :: chunks) := by
  have hpos := c.stride_pos
  -- the next window starts past this one's start and at its end at the latest
  have hnext : k.firstToken < c.pulledBack enc
        (c.pulledBack enc start + min c.stride (c.contentWindow enc)) ∧
      c.pulledBack enc (c.pulledBack enc start + min c.stride (c.contentWindow enc)) ≤
        k.firstToken + min c.stride (c.contentWindow enc) := by
    rw [hk]
    rcases pulledBack_cases c enc
      (c.pulledBack enc start + min c.stride (c.contentWindow enc)) with heq | ⟨hfar, heq⟩
    · rw [heq]
      omega
    · rw [heq]
      omega
  obtain ⟨k', rest, rfl, hk'⟩ := h.head
  refine ⟨⟨k, k' :: rest, rfl, hk⟩, List.forall_mem_cons.mpr ⟨htakes, h.takes⟩,
    List.forall_mem_cons.mpr ⟨hbyte, h.byteOffset⟩, ?_, ?_⟩
  · refine h.steps.cons hk hnext.1 (hnext.2.trans ?_)
    simp only [contentOf]
    rw [hk] at hnext ⊢
    omega
  · refine List.IsChain.cons_cons ?_ h.stride
    rw [hk']
    omega

theorem windows_spec (henc : enc.WellFormed) (hwindow : 1 ≤ c.contentWindow enc) {fuel start : ℕ}
    (hstart : start < (Segments.of enc).content.len)
    (hfuel : (Segments.of enc).content.len < start + fuel) :
    ∃ chunks, c.windows enc fuel start = some chunks ∧ c.Turns enc start chunks := by
  induction fuel generalizing start with
  | zero => omega
  | succ fuel ih =>
    have hle : c.pulledBack enc start ≤ start := by
      rcases pulledBack_cases c enc start with heq | ⟨hfar, heq⟩
      · exact heq.le
      · rw [heq]
        omega
    obtain ⟨e, he, htakes⟩ := gather_spec henc
      (windowRanges_within (c := c) (Segments.laid henc) (hle.trans hstart.le))
    have hbyte : ∀ o ∈ enc.offsets[(Segments.of enc).content.start + c.pulledBack enc start]?,
        (enc.offsets[(Segments.of enc).content.start + c.pulledBack enc start]?.map
          Prod.fst).getD 0 = o.1 := by
      intro o ho
      rw [Option.mem_def.mp ho, Option.map_some, Option.getD_some]
    simp only [windows, he, Option.bind_eq_bind, Option.bind_some]
    by_cases hlast : (Segments.of enc).content.len ≤
        min (c.pulledBack enc start + c.contentWindow enc) (Segments.of enc).content.len
    · refine ⟨_, if_pos hlast, ⟨_, [], rfl, rfl⟩, ?_, ?_, ?_, List.IsChain.singleton _⟩
      · exact List.forall_mem_singleton.mpr htakes
      · exact List.forall_mem_singleton.mpr hbyte
      · exact ⟨rfl, le_antisymm (min_le_right _ _) hlast⟩
    · -- a window that was pulled back is the last
      have hkept : c.pulledBack enc start = start := by
        rcases pulledBack_cases c enc start with heq | ⟨hfar, heq⟩
        · exact heq
        · rw [heq] at hlast
          omega
      have hpos := c.stride_pos
      obtain ⟨chunks, hchunks, hturns⟩ :=
        @ih (c.pulledBack enc start + min c.stride (c.contentWindow enc)) (by omega) (by omega)
      refine ⟨_, by rw [if_neg hlast, hchunks]; rfl, ?_⟩
      exact hturns.cons hwindow rfl htakes hbyte (by omega)

theorem chunk_meets (c : SlidingWindowChunker) (henc : enc.WellFormed) : c.Meets enc := by
  have hlaid := Segments.laid henc
  rw [Meets, chunk]
  by_cases hempty : enc.len = 0
  · exact ⟨_, if_pos hempty, by simp [hempty]⟩
  · rw [if_neg hempty]
    by_cases hcontent : (Segments.of enc).content.len = 0
    · rw [if_pos hcontent]
      by_cases hfits : fixed enc ≤ c.window
      · refine ⟨_, if_pos hfits, ?_⟩
        have hlow := hlaid.content.1
        have hhigh := hlaid.content.2
        rw [fixed, hlaid.fixedPrefix, hlaid.trail] at hfits
        simp only [Range.len] at hfits hcontent
        simp only [if_neg hempty, Range.len, if_pos hcontent]
        exact ⟨trivial, by omega⟩
      · refine ⟨_, if_neg hfits, ?_⟩
        dsimp only
        omega
    · rw [if_neg hcontent]
      by_cases hwindow : 1 ≤ c.contentWindow enc
      · obtain ⟨chunks, hchunks, hturns⟩ := windows_spec (c := c) henc hwindow
          (Nat.pos_of_ne_zero hcontent) (Nat.lt_add_left 0 (Nat.lt_succ_self _))
        have hzero : c.pulledBack enc 0 = 0 := by
          rcases pulledBack_cases c enc 0 with heq | ⟨hfar, heq⟩
          · exact heq
          · rw [heq]
            omega
        refine ⟨_, by rw [if_pos hwindow, hchunks]; rfl, ?_⟩
        have hsteps := hturns.steps
        rw [hzero] at hsteps
        simp only [if_neg hempty, if_neg hcontent]
        refine ⟨⟨hturns.takes, fun k hk => window_len_le hwindow (hturns.takes k hk),
          hturns.byteOffset, hsteps, hturns.stride⟩, fun j hj => ?_⟩
        obtain ⟨iv, hiv, hin⟩ := hsteps.covers (Nat.zero_le j) hj
        obtain ⟨k, hk, rfl⟩ := List.mem_map.mp hiv
        exact ⟨k, hk, hin.1, hin.2.trans_le (min_le_left _ _)⟩
      · refine ⟨_, if_neg hwindow, ?_⟩
        rw [contentWindow] at hwindow
        dsimp only
        omega

end SlidingWindowChunker

end Svod.Arch.Text
