/-
  Svod.Arch.TextTruncation

  A truncated row fits and keeps every special token, unless a pair that has to
  be cut has its second text first: then the range between the two texts has its
  ends the wrong way round.
-/

import Svod.Arch.TextWindows

namespace Svod.Arch.Text

variable {enc : Encoding}

/-! ## The lengths of a pair -/

/-- A split of `budget` between texts of `n1` and `n2` tokens. -/
structure Split (n1 n2 budget : ℕ) (strategy : PairTruncation) (k : ℕ × ℕ) : Prop where
  le : k.1 ≤ n1 ∧ k.2 ≤ n2
  fits : k.1 + k.2 ≤ budget
  /-- Nothing is cut when both fit, and no room is left when something is cut. -/
  maximal : k.1 + k.2 = min (n1 + n2) budget
  /-- A side is cut only if it is longer than its half or the other side fills the rest. -/
  balanced : (k.1 < n1 → budget / 2 < n1 ∨ k.2 = n2 ∧ k.1 + n2 = budget) ∧
    (k.2 < n2 → budget / 2 < n2 ∨ k.1 = n1 ∧ n1 + k.2 = budget)
  /-- The longest text is cut first, and not below its half. -/
  longestFirst : strategy = .longestFirst →
    (k.1 < n1 → budget / 2 < n1 ∧ budget / 2 ≤ k.1) ∧
      (k.2 < n2 → budget / 2 < n2 ∧ budget / 2 ≤ k.2)

/-- The one text that may be cut cannot give the excess. -/
def Rejects (n1 n2 budget : ℕ) (strategy : PairTruncation) : Prop :=
  0 < budget ∧ budget < n1 + n2 ∧
    (strategy = .onlyFirst ∧ budget ≤ n2 ∨ strategy = .onlySecond ∧ budget ≤ n1)

variable {n1 n2 budget : ℕ}

/-- The longer text's share of the arithmetic of `longestFirst` is past the budget exactly when the
    shorter text has more than its half. -/
theorem short_add_keep (short budget : ℕ) :
    (short + if short > budget then short else max short (budget - short)) > budget ↔
      budget < 2 * short := by
  split
  · omega
  · omega

/-- What the longest-first arithmetic comes to: the shorter text whole where it has no more than its
    half, and the halves otherwise, the odd token to the longer. -/
theorem pairLengths_longestFirst (hcut : budget < n1 + n2) (hbudget : 0 < budget) :
    pairLengths n1 n2 budget .longestFirst = .ok (
      if n2 < n1 then
        if 2 * n2 ≤ budget then (budget - n2, n2) else (budget / 2 + budget % 2, budget / 2)
      else if 2 * n1 ≤ budget then (n1, budget - n1)
      else (budget / 2, budget / 2 + budget % 2)) := by
  have hexcess : n1 + n2 - budget ≠ 0 := by omega
  simp only [pairLengths, if_neg hexcess, if_neg hbudget.ne', short_add_keep]
  by_cases hlonger : n2 < n1
  · rw [Nat.min_eq_right hlonger.le, if_pos hlonger, if_pos hlonger]
    by_cases hhalf : 2 * n2 ≤ budget
    · rw [if_pos hhalf, if_neg (not_lt.mpr hhalf), if_neg (show ¬ n2 > budget by omega),
        Nat.max_eq_right (by omega), Nat.min_eq_right (by omega), Nat.min_self]
    · rw [if_neg hhalf, if_pos (not_le.mp hhalf), Nat.min_eq_right (by omega),
        Nat.min_eq_right (by omega)]
  · rw [Nat.min_eq_left (not_lt.mp hlonger), if_neg hlonger, if_neg hlonger]
    by_cases hhalf : 2 * n1 ≤ budget
    · rw [if_pos hhalf, if_neg (not_lt.mpr hhalf), if_neg (show ¬ n1 > budget by omega),
        Nat.max_eq_right (by omega), Nat.min_self]
      have hrest : min n2 (budget - n1) = budget - n1 := by omega
      exact congrArg (fun k => Except.ok (n1, k)) hrest
    · rw [if_neg hhalf, if_pos (not_le.mp hhalf), Nat.min_eq_right (by omega),
        Nat.min_eq_right (by omega)]

theorem split_longestFirst (hcut : budget < n1 + n2) :
    Split n1 n2 budget .longestFirst (
      if n2 < n1 then
        if 2 * n2 ≤ budget then (budget - n2, n2) else (budget / 2 + budget % 2, budget / 2)
      else if 2 * n1 ≤ budget then (n1, budget - n1)
      else (budget / 2, budget / 2 + budget % 2)) := by
  split
  · split
    · constructor <;> dsimp only <;> omega
    · constructor <;> dsimp only <;> omega
  · split
    · constructor <;> dsimp only <;> omega
    · constructor <;> dsimp only <;> omega

/-- The lengths are a split of the budget, or the strategy rejects the pair. -/
theorem pairLengths_spec (n1 n2 budget : ℕ) (strategy : PairTruncation) :
    (∃ k, pairLengths n1 n2 budget strategy = .ok k ∧ Split n1 n2 budget strategy k ∧
      ¬ Rejects n1 n2 budget strategy) ∨
    (∃ e, pairLengths n1 n2 budget strategy = .error e) ∧ Rejects n1 n2 budget strategy := by
  by_cases hfits : n1 + n2 - budget = 0
  · -- both fit
    refine .inl ⟨(n1, n2), by simp only [pairLengths.eq_def, if_pos hfits], ?_, fun h => ?_⟩
    · constructor <;> dsimp only <;> omega
    · have := h.2.1
      omega
  · by_cases hbudget : budget = 0
    · refine .inl ⟨(0, 0), by simp only [pairLengths.eq_def, if_neg hfits, if_pos hbudget],
      ?_, fun h => ?_⟩
      · constructor <;> dsimp only <;> omega
      · exact absurd hbudget h.1.ne'
    · have hcut : budget < n1 + n2 := by omega
      have hpos : 0 < budget := Nat.pos_of_ne_zero hbudget
      cases strategy with
      | longestFirst =>
        refine .inl ⟨_, pairLengths_longestFirst hcut hpos, split_longestFirst hcut, fun h => ?_⟩
        rcases h.2.2 with ⟨h, -⟩ | ⟨h, -⟩
        · cases h
        · cases h
      | onlyFirst =>
        by_cases hlen : n1 > n1 + n2 - budget
        · refine .inl ⟨(n1 - (n1 + n2 - budget), n2), ?_, ?_, fun h => ?_⟩
          · simp only [pairLengths, if_neg hfits, if_neg hbudget, if_pos hlen]
          · constructor <;> simp <;> omega
          · have hle := h.2.2
            simp at hle
            omega
        · refine .inr ⟨⟨.pairTooLong .onlyFirst n1 (n1 + n2 - budget), ?_⟩, hpos, hcut,
            .inl ⟨rfl, ?_⟩⟩
          · simp only [pairLengths, if_neg hfits, if_neg hbudget, if_neg hlen]
          · omega
      | onlySecond =>
        by_cases hlen : n2 > n1 + n2 - budget
        · refine .inl ⟨(n1, n2 - (n1 + n2 - budget)), ?_, ?_, fun h => ?_⟩
          · simp only [pairLengths, if_neg hfits, if_neg hbudget, if_pos hlen]
          · constructor <;> simp <;> omega
          · have hle := h.2.2
            simp at hle
            omega
        · refine .inr ⟨⟨.pairTooLong .onlySecond n2 (n1 + n2 - budget), ?_⟩, hpos, hcut,
            .inr ⟨rfl, ?_⟩⟩
          · simp only [pairLengths, if_neg hfits, if_neg hbudget, if_neg hlen]
          · omega

/-! ## Truncated rows -/

namespace TruncatingChunker

variable (c : TruncatingChunker) (enc)

/-- A token of neither text. -/
def IsSpecial (i : ℕ) : Prop :=
  i < enc.len ∧
    ¬ ((Segments.of enc).first.start ≤ i ∧ i < (Segments.of enc).first.stop) ∧
    ¬ ((Segments.of enc).content.start ≤ i ∧ i < (Segments.of enc).content.stop)

/-- A row of an encoding that fits and has every special token, the tokens in their order. -/
def RowOf (e : Encoding) : Prop :=
  e.len ≤ c.maxSeq ∧ ∃ ranges, Takes enc ranges e ∧
    ranges.Pairwise (fun r r' => r.stop ≤ r'.start) ∧
    ∀ i, IsSpecial enc i → ∃ r ∈ ranges, r.start ≤ i ∧ i < r.stop

/-- The texts of a long input cannot be cut to the room beside the specials. -/
def Refused : Prop :=
  c.maxSeq < specials enc ∨ enc.pair = true ∧
    Rejects (Segments.of enc).first.len (Segments.of enc).content.len (c.maxSeq - specials enc)
      c.pairTruncation

/-- What a truncating chunker is for: a row for every input but one of no tokens, or an error where
    there is no room for one. -/
def Meets : Prop :=
  ∃ r, c.chunk enc = some r ∧
    match r with
    | .ok chunks =>
      if enc.len = 0 then chunks = [] else ∃ e, chunks = [⟨e, 0, 0⟩] ∧ c.RowOf enc e
    | .error _ => c.maxSeq < enc.len ∧ c.Refused enc

/-- The input fits, or its first text is before its second, or it is refused. -/
def InOrder : Prop :=
  enc.len ≤ c.maxSeq ∨ (Segments.of enc).first.stop ≤ (Segments.of enc).content.start ∨
    (Segments.of enc).first.len + (Segments.of enc).content.len ≤ enc.len ∧ c.Refused enc

variable {c enc}

/-- One range after the other up to the last. -/
theorem keptRanges_pairwise (hlaid : Laid enc (Segments.of enc))
    (horder : (Segments.of enc).first.stop ≤ (Segments.of enc).content.start) {n : ℕ × ℕ}
    (h1 : n.1 ≤ (Segments.of enc).first.len) (h2 : n.2 ≤ (Segments.of enc).content.len) :
    (∀ r ∈ keptRanges enc n, r.Within enc.len) ∧
      (keptRanges enc n).Pairwise fun r r' => r.stop ≤ r'.start := by
  have hfirst := hlaid.first.1
  have hlow := hlaid.content.1
  have hhigh := hlaid.content.2
  rw [Range.len] at h1 h2
  rw [keptRanges, hlaid.trail]
  constructor
  · simp only [List.mem_cons, List.not_mem_nil, or_false, Range.Within, forall_eq_or_imp, forall_eq]
    omega
  · simp only [List.pairwise_cons, List.mem_cons, List.not_mem_nil, or_false, forall_eq_or_imp,
      forall_eq, List.Pairwise.nil, and_true, false_implies, implies_true]
    omega

theorem kept_spec (hlong : c.maxSeq < enc.len) (hlaid : Laid enc (Segments.of enc))
    (hsum : (Segments.of enc).first.len + (Segments.of enc).content.len ≤ enc.len) :
    (∃ n, c.kept enc = .ok n ∧ ¬ c.Refused enc ∧ n.1 ≤ (Segments.of enc).first.len ∧
      n.2 ≤ (Segments.of enc).content.len ∧ specials enc + (n.1 + n.2) ≤ c.maxSeq) ∨
    (∃ e, c.kept enc = .error e) ∧ c.Refused enc := by
  simp only [kept]
  by_cases hroom : specials enc ≤ c.maxSeq
  · rw [if_pos hroom]
    cases hpair : enc.pair with
    | false =>
      -- one text keeps what fits of it
      refine .inl ⟨(0, c.maxSeq - specials enc), rfl, fun h => ?_, Nat.zero_le _, ?_, ?_⟩
      · rcases h with h | h
        · omega
        · rw [hpair] at h
          cases h.1
      · have hfirst : (Segments.of enc).first.len = 0 := by
          rw [hlaid.single hpair, Range.len, Nat.sub_self]
        rw [specials] at hroom ⊢
        omega
      · omega
    | true =>
      rcases pairLengths_spec (Segments.of enc).first.len (Segments.of enc).content.len
        (c.maxSeq - specials enc) c.pairTruncation with ⟨n, hn, hsplit, hnot⟩ | ⟨⟨e, he⟩, hrejects⟩
      · refine .inl ⟨n, hn, fun h => ?_, hsplit.le.1, hsplit.le.2, ?_⟩
        · rcases h with h | h
          · omega
          · exact hnot h.2
        · have := hsplit.fits
          omega
      · exact .inr ⟨⟨e, he⟩, .inr ⟨hpair, hrejects⟩⟩
  · rw [if_neg hroom]
    exact .inr ⟨⟨_, rfl⟩, .inl (not_le.mp hroom)⟩

/-- What is cut in order is a row. -/
theorem rowOf_keptRanges (hlaid : Laid enc (Segments.of enc))
    (horder : (Segments.of enc).first.stop ≤ (Segments.of enc).content.start) {n : ℕ × ℕ}
    (h1 : n.1 ≤ (Segments.of enc).first.len) (h2 : n.2 ≤ (Segments.of enc).content.len)
    (hfits : specials enc + (n.1 + n.2) ≤ c.maxSeq) {e : Encoding}
    (htakes : Takes enc (keptRanges enc n) e) : c.RowOf enc e := by
  have hfirst := hlaid.first.1
  have hlow := hlaid.content.1
  have hhigh := hlaid.content.2
  refine ⟨?_, keptRanges enc n, htakes, (keptRanges_pairwise hlaid horder h1 h2).2, ?_⟩
  · rw [htakes.len_eq, keptRanges, hlaid.trail]
    rw [specials, Range.len, Range.len] at hfits
    simp only [List.map_cons, List.map_nil, List.sum_cons, List.sum_nil, Range.len]
    omega
  · rintro i ⟨hi, hnotFirst, hnotContent⟩
    rw [keptRanges, hlaid.trail]
    by_cases hlead : i < (Segments.of enc).first.start
    · exact ⟨⟨0, (Segments.of enc).first.start⟩, by simp, Nat.zero_le _, hlead⟩
    · by_cases hbetween : i < (Segments.of enc).content.start
      · exact ⟨⟨(Segments.of enc).first.stop, (Segments.of enc).content.start⟩, by simp,
          by dsimp only; omega, hbetween⟩
      · exact ⟨⟨(Segments.of enc).content.stop, enc.len⟩, by simp, by dsimp only; omega, hi⟩

section Long

variable (hempty : enc.len ≠ 0) (hlong : c.maxSeq < enc.len)
  (hsum : (Segments.of enc).first.len + (Segments.of enc).content.len ≤ enc.len)

include hempty hlong hsum

theorem chunk_of_kept {n : ℕ × ℕ} (h : c.kept enc = .ok n) :
    c.chunk enc = (gather enc (keptRanges enc n)).map fun encoding => .ok [⟨encoding, 0, 0⟩] := by
  simp only [chunk, if_neg hempty, if_neg (not_le.mpr hlong), if_pos hsum, h]

theorem chunk_of_refused {e : TruncatingChunkerError} (h : c.kept enc = .error e) :
    c.chunk enc = some (.error e) := by
  simp only [chunk, if_neg hempty, if_neg (not_le.mpr hlong), if_pos hsum, h]

end Long

theorem chunk_meets_iff (henc : enc.WellFormed) : c.Meets enc ↔ c.InOrder enc := by
  have hlaid := Segments.laid henc
  by_cases hempty : enc.len = 0
  · refine ⟨fun _ => .inl (hempty ▸ Nat.zero_le _), fun _ => ⟨.ok [], ?_, ?_⟩⟩
    · rw [chunk, if_pos hempty]
    · simp [hempty]
  · by_cases hlong : c.maxSeq < enc.len
    · by_cases hsum : (Segments.of enc).first.len + (Segments.of enc).content.len ≤ enc.len
      · rcases kept_spec hlong hlaid hsum with
          ⟨n, hn, hnot, h1, h2, hfits⟩ | ⟨⟨e, he⟩, hrefused⟩
        · have hchunk := chunk_of_kept hempty hlong hsum hn
          by_cases horder : (Segments.of enc).first.stop ≤ (Segments.of enc).content.start
          · obtain ⟨e, he, htakes⟩ :=
              gather_spec henc (keptRanges_pairwise hlaid horder h1 h2).1
            refine ⟨fun _ => .inr (.inl horder), fun _ =>
              ⟨.ok [⟨e, 0, 0⟩], by rw [hchunk, he]; rfl, ?_⟩⟩
            simp only [if_neg hempty]
            exact ⟨e, rfl, rowOf_keptRanges hlaid horder h1 h2 hfits htakes⟩
          · -- the range between the texts has its ends the wrong way round
            have hbad : gather enc (keptRanges enc n) = none :=
              gather_eq_none (r := ⟨(Segments.of enc).first.stop, (Segments.of enc).content.start⟩)
                (by simp [keptRanges]) fun h => horder h.1
            rw [hbad] at hchunk
            refine ⟨fun ⟨r, hr, _⟩ => ?_, fun h => ?_⟩
            · rw [hchunk] at hr
              cases hr
            · rcases h with h | h | h
              · omega
              · exact absurd h horder
              · exact absurd h.2 hnot
        · exact ⟨fun _ => .inr (.inr ⟨hsum, hrefused⟩), fun _ =>
            ⟨.error e, chunk_of_refused hempty hlong hsum he, hlong, hrefused⟩⟩
      · -- texts that overlap have more tokens than the encoding
        have hnone : c.chunk enc = none := by
          simp only [chunk, if_neg hempty, if_neg (not_le.mpr hlong), if_neg hsum]
        rw [Meets, hnone]
        refine ⟨fun ⟨r, hr, _⟩ => ?_, fun h => ?_⟩
        · cases hr
        · rcases h with h | h | h
          · omega
          · have hfirst := hlaid.first.1
            have hlow := hlaid.content.1
            have hhigh := hlaid.content.2
            rw [Range.len, Range.len] at hsum
            omega
          · exact absurd h.1 hsum
    · have hfits := not_lt.mp hlong
      refine ⟨fun _ => .inl hfits, fun _ => ⟨.ok [⟨enc, 0, 0⟩], ?_, ?_⟩⟩
      · rw [chunk, if_neg hempty, if_pos hfits]
      · simp only [if_neg hempty]
        refine ⟨enc, rfl, hfits, _, takes_whole henc, List.pairwise_singleton _ _, fun i hi => ?_⟩
        exact ⟨_, List.mem_singleton_self _, Nat.zero_le i, hi.1⟩

end TruncatingChunker

/-! ## Both chunkers -/

/-- Windows cover a text and fit, a pair's budget is split, and a truncated row fits and keeps every
    special token exactly when no pair is cut that has its second text first. -/
theorem chunkers_meet_iff (w : SlidingWindowChunker) (c : TruncatingChunker) (enc : Encoding)
    (henc : enc.WellFormed) :
    (w.Meets enc ∧ c.Meets enc ∧ ∀ n1 n2 budget strategy,
      (∃ k, pairLengths n1 n2 budget strategy = .ok k ∧ Split n1 n2 budget strategy k) ∨
        (∃ e, pairLengths n1 n2 budget strategy = .error e) ∧ Rejects n1 n2 budget strategy) ↔
      c.InOrder enc := by
  refine ⟨fun h => (TruncatingChunker.chunk_meets_iff henc).mp h.2.1, fun h =>
    ⟨w.chunk_meets henc, (TruncatingChunker.chunk_meets_iff henc).mpr h, ?_⟩⟩
  intro n1 n2 budget strategy
  exact (pairLengths_spec n1 n2 budget strategy).imp_left fun ⟨k, hk, hsplit, _⟩ => ⟨k, hk, hsplit⟩

/-- `[CLS] second [SEP] first [SEP]`, each text of two tokens. -/
def secondFirst : Encoding where
  inputIds := [2, 20, 21, 3, 10, 11, 3]
  attentionMask := [1, 1, 1, 1, 1, 1, 1]
  tokenTypeIds := [0, 1, 1, 0, 0, 0, 0]
  offsets := [(0, 0), (0, 1), (1, 2), (0, 0), (0, 1), (1, 2), (0, 0)]
  specialTokensMask := [1, 0, 0, 1, 0, 0, 1]
  sequenceIds := [none, some 1, some 1, none, some 0, some 0, none]
  pair := true

/-- Six tokens at most. -/
def cutToSix : TruncatingChunker := ⟨6, .longestFirst, by decide⟩

/-- A pair with its second text first is a panic when it has to be cut. -/
theorem chunkers_meet_fails : secondFirst.WellFormed ∧ ¬ cutToSix.Meets secondFirst := by
  refine ⟨⟨rfl, rfl, rfl, rfl, .inl rfl⟩, ?_⟩
  rintro ⟨r, hr, -⟩
  have hnone : cutToSix.chunk secondFirst = none := by decide
  rw [hnone] at hr
  cases hr

/-- Windows of six tokens, each two content tokens past the one before. -/
def windowsOfSix : SlidingWindowChunker := ⟨6, 2, false, by decide, by decide⟩

theorem chunkers_meet_iff_secondFirst :
    (windowsOfSix.Meets secondFirst ∧ cutToSix.Meets secondFirst ∧ ∀ n1 n2 budget strategy,
      (∃ k, pairLengths n1 n2 budget strategy = .ok k ∧ Split n1 n2 budget strategy k) ∨
        (∃ e, pairLengths n1 n2 budget strategy = .error e) ∧ Rejects n1 n2 budget strategy) ↔
      cutToSix.InOrder secondFirst :=
  chunkers_meet_iff windowsOfSix cutToSix secondFirst ⟨rfl, rfl, rfl, rfl, .inl rfl⟩

end Svod.Arch.Text
