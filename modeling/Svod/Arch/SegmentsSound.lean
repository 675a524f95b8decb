/-
  Svod.Arch.SegmentsSound

  The segments of a track are well formed, for every setting of thresholds,
  paddings and durations: in order, not empty, apart by the least gap and no
  shorter than the least duration.

  The runs and the padding give spaced intervals; the two filters keep that,
  and whichever of the two comes second keeps what the first one established.
-/

import Mathlib.Tactic.Linarith
import Svod.Arch.Segments

namespace Svod.Arch.Segments

open Svod.Intervals

namespace Binarization

variable (b : Binarization)

/-! ## Runs and padding -/

/-- The runs are in order and not empty, with an inactive frame between two of them. -/
theorem runs_spaced (track : List ℚ) {active : Bool} {start frame : ℕ}
    (hstart : active = true → start < frame) :
    Spaced (b.runs active start frame track) ∧
      ∀ r ∈ b.runs active start frame track, (if active then start else frame) ≤ r.1 := by
  induction track generalizing active start frame with
  | nil =>
    cases active with
    | false => exact ⟨.nil, by simp [runs]⟩
    | true => exact ⟨.singleton (hstart rfl), by simp [runs]⟩
  | cons p track ih =>
    simp only [runs]
    split
    case h_1 => exact ih fun _ => Nat.lt_succ_self frame
    case h_2 =>
      obtain ⟨hspaced, hfrom⟩ := @ih false start (frame + 1) nofun
      simp only [Bool.false_eq_true, ↓reduceIte] at hfrom
      have hlt := hstart rfl
      -- the frame that ended the run is not in the next one
      refine ⟨hspaced.cons hlt fun r hr => Nat.lt_of_succ_le (hfrom r hr),
        List.forall_mem_cons.mpr ⟨le_rfl, fun r hr => ?_⟩⟩
      have hr := hfrom r hr
      simp only [↓reduceIte]
      omega
    case h_3 => exact @ih true start (frame + 1) fun h => (hstart h).trans (Nat.lt_succ_self frame)
    case h_4 =>
      obtain ⟨hspaced, hfrom⟩ := @ih false start (frame + 1) nofun
      exact ⟨hspaced, fun r hr => Nat.le_of_succ_le (hfrom r hr)⟩

variable {b}

/-- Without padding, two runs stay apart in seconds; a frame time that is not positive leaves
    no run that is not empty. -/
theorem widen_apart {frameSec : ℚ} (hon : ¬ 0 < b.padOnset) (hoff : ¬ 0 < b.padOffset)
    {r s : ℕ × ℕ} (hapart : r.2 < s.1) (hr : Proper (b.widen frameSec r)) :
    Apart (b.widen frameSec r) (b.widen frameSec s) := by
  have hend : 0 < (r.2 : ℚ) * frameSec := by
    have h0 : 0 ≤ (b.widen frameSec r).1 := le_max_right _ _
    have h1 : (b.widen frameSec r).1 < (r.2 : ℚ) * frameSec + b.padOffset := hr
    linarith
  have hpos : 0 < frameSec := pos_of_mul_pos_right hend (Nat.cast_nonneg _)
  have hlt : (r.2 : ℚ) * frameSec < s.1 * frameSec :=
    mul_lt_mul_of_pos_right (by exact_mod_cast hapart) hpos
  calc (r.2 : ℚ) * frameSec + b.padOffset < s.1 * frameSec - b.padOnset := by linarith
    _ ≤ max (s.1 * frameSec - b.padOnset) 0 := le_max_left _ _

variable (b)

theorem padded_spaced (track : List ℚ) (frameSec : ℚ) : Spaced (b.padded track frameSec) := by
  have hproper : ∀ s ∈ ((b.runs false 0 0 track).map (b.widen frameSec)).filter
      (fun s => decide (s.1 < s.2)), Proper s :=
    fun s hs => show s.1 < s.2 from of_decide_eq_true (List.mem_filter.mp hs).2
  rw [padded]
  split
  case isTrue => exact (mergeOverlaps_merged hproper).spaced
  case isFalse hpad =>
    obtain ⟨hon, hoff⟩ := not_or.mp hpad
    refine ⟨hproper, List.pairwise_filter.mpr (List.pairwise_map.mpr ?_)⟩
    refine (@runs_spaced b track false 0 0 nofun).1.apart.imp fun {r s} hapart hr _ => ?_
    have hr' : (b.widen frameSec r).1 < (b.widen frameSec r).2 := of_decide_eq_true hr
    exact widen_apart hon hoff hapart hr'

/-! ## The duration filters -/

variable {b} {segments : List (ℚ × ℚ)}

theorem dropShort_sublist : (b.dropShort segments).Sublist segments := by
  rw [dropShort]
  split
  · exact List.filter_sublist
  · exact List.Sublist.refl _

/-- What `dropShort` leaves is long enough. -/
theorem lasting_of_mem_dropShort (h : Spaced segments) {s : ℚ × ℚ}
    (hs : s ∈ b.dropShort segments) : b.minDurationOn ≤ s.2 - s.1 := by
  rw [dropShort] at hs
  split at hs
  case isTrue => exact of_decide_eq_true (List.mem_filter.mp hs).2
  case isFalse hon =>
    have hproper : s.1 < s.2 := h.proper s hs
    linarith

/-- A short gap is between two segments that follow each other. -/
theorem mem_shortGaps {g : ℚ × ℚ} : g ∈ b.shortGaps segments ↔
    g.2 - g.1 < b.minDurationOff ∧
      ∃ x y, (x, y) ∈ segments.zip segments.tail ∧ g = (x.2, y.1) := by
  simp only [shortGaps, List.mem_filter, List.mem_map, decide_eq_true_eq, Prod.exists]
  constructor
  · rintro ⟨⟨x1, x2, y1, y2, hmem, rfl⟩, hlt⟩
    exact ⟨hlt, x1, x2, y1, y2, hmem, rfl⟩
  · rintro ⟨hlt, x1, x2, y1, y2, hmem, rfl⟩
    exact ⟨⟨x1, x2, y1, y2, hmem, rfl⟩, hlt⟩

section FillGaps

variable (h : Spaced segments)

include h

theorem shortGaps_proper {g : ℚ × ℚ} (hg : g ∈ b.shortGaps segments) : Proper g := by
  obtain ⟨-, x, y, hmem, rfl⟩ := mem_shortGaps.mp hg
  exact h.apart_of_mem_zip hmem

/-- The segments are merged across their short gaps. -/
theorem merged_shortGaps :
    Merged (segments ++ b.shortGaps segments) (mergeOverlaps (segments ++ b.shortGaps segments)) :=
  mergeOverlaps_merged (List.forall_mem_append.mpr ⟨h.proper, fun _ => shortGaps_proper h⟩)

omit h in
theorem end_of_shortGaps : ∀ g ∈ b.shortGaps segments, ∃ y ∈ segments, y.1 = g.2 := by
  intro g hg
  obtain ⟨-, x, y, hmem, rfl⟩ := mem_shortGaps.mp hg
  exact ⟨y, List.mem_of_mem_tail (List.of_mem_zip hmem).2, rfl⟩

omit h in
theorem start_of_shortGaps : ∀ g ∈ b.shortGaps segments, ∃ x ∈ segments, x.2 = g.1 := by
  intro g hg
  obtain ⟨-, x, y, hmem, rfl⟩ := mem_shortGaps.mp hg
  exact ⟨x, (List.of_mem_zip hmem).1, rfl⟩

theorem fillGaps_spaced : Spaced (b.fillGaps segments) := by
  rw [fillGaps]
  split
  · exact h
  · exact (merged_shortGaps h).spaced

/-- Two results are no nearer than the least gap: between them is the gap after the last segment
    of the first one, and a short one would have been closed. -/
theorem fillGaps_separated :
    (b.fillGaps segments).Pairwise fun s t => b.minDurationOff ≤ t.1 - s.2 := by
  refine (fillGaps_spaced h).apart.imp_of_mem fun {s t} hs ht hapart => ?_
  rw [fillGaps] at hs ht
  split at hs
  case isTrue hkeep =>
    rcases hkeep with hoff | hnil
    · have hlt : s.2 < t.1 := hapart
      linarith
    · exact absurd (hnil ▸ hs) List.not_mem_nil
  case isFalse hfill =>
    rw [if_neg hfill] at ht
    have hm := merged_shortGaps (b := b) h
    obtain ⟨x, hx, hxs⟩ := hm.end_of_gaps h end_of_shortGaps hs
    obtain ⟨y, hy, hyt⟩ := hm.start_of_gaps h start_of_shortGaps ht
    have hxy : Apart x y := by rw [Apart, hxs, hyt]; exact hapart
    obtain ⟨z, hz, hzy⟩ := h.next hx hy hxy
    -- the gap between `x` and the segment after it is not short
    have hlong : b.minDurationOff ≤ z.1 - x.2 := by
      by_contra hshort
      have hg : (x.2, z.1) ∈ b.shortGaps segments :=
        mem_shortGaps.mpr ⟨not_le.mp hshort, x, z, hz, rfl⟩
      exact hm.not_gap_at_end hs hg hxs (shortGaps_proper h hg)
    linarith

/-- A result contains a segment. -/
theorem exists_inside_of_mem_fillGaps {s : ℚ × ℚ} (hs : s ∈ b.fillGaps segments) :
    ∃ x ∈ segments, Inside x s := by
  rw [fillGaps] at hs
  split at hs
  case isTrue => exact ⟨s, hs, le_rfl, le_rfl⟩
  case isFalse =>
    have hm := merged_shortGaps (b := b) h
    obtain ⟨x, hx, hxs⟩ := hm.start_of_gaps h start_of_shortGaps hs
    obtain ⟨c, hc, hin⟩ := hm.covers x (List.mem_append_left _ hx)
    -- the result that `x` is in is the one that starts where `x` does
    have hcs : c = s := hm.spaced.eq_of_mem hc hs (p := s.1)
      ⟨hin.1.trans_eq hxs, (hxs.symm.trans_le (h.proper x hx).le).trans hin.2⟩
      ⟨le_rfl, (hm.spaced.proper s hs).le⟩
    exact ⟨x, hx, hcs ▸ hin⟩

end FillGaps

/-! ## Both orders -/

theorem filter_wellFormed (h : Spaced segments) : b.WellFormed (b.filter segments) := by
  suffices hspec : Spaced (b.filter segments) ∧
      ((b.filter segments).Pairwise fun s t => b.minDurationOff ≤ t.1 - s.2) ∧
      ∀ s ∈ b.filter segments, b.minDurationOn ≤ s.2 - s.1 from
    { nonempty := hspec.1.proper
      sorted := hspec.1.apart.imp_of_mem fun {s t} hs _ hlt => (hspec.1.proper s hs).trans hlt
      disjoint := hspec.1.apart
      separated := hspec.2.1
      lasting := hspec.2.2 }
  rw [filter]
  split
  case isTrue =>
    -- a result of the fill contains a segment that was long enough
    have hdrop : Spaced (b.dropShort segments) := h.sublist dropShort_sublist
    refine ⟨fillGaps_spaced hdrop, fillGaps_separated hdrop, fun s hs => ?_⟩
    obtain ⟨x, hx, hin⟩ := exists_inside_of_mem_fillGaps hdrop hs
    have hlong := lasting_of_mem_dropShort h hx
    linarith [hin.1, hin.2]
  case isFalse =>
    -- what is dropped widens a gap
    have hfill : Spaced (b.fillGaps segments) := fillGaps_spaced h
    exact ⟨hfill.sublist dropShort_sublist, (fillGaps_separated h).sublist dropShort_sublist,
      fun s hs => lasting_of_mem_dropShort hfill hs⟩

variable (b)

/-- The segments of every track are in order and not empty, apart by at least the least gap, and
    each lasts at least the least duration. -/
theorem segments_wellFormed (track : List ℚ) (frameSec : ℚ) :
    b.WellFormed (b.segments track frameSec) :=
  filter_wellFormed (b.padded_spaced track frameSec)

end Binarization

end Svod.Arch.Segments
