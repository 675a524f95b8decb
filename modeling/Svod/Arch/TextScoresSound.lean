/-
  Svod.Arch.TextScoresSound

  The scores of a text from its windows: where the windows agree on the row of
  a token, the weighted mean of the row over the windows is the row.

  The loop over the windows adds one share a content token.  `Weighed` is what
  the sums are after the shares of the tokens seen so far.
-/

import Mathlib.Data.List.GetD
import Mathlib.Tactic.Linarith
import Svod.Arch.TextSpansSound

namespace Svod.Arch.Text

variable {K : Type} [Field K] [LinearOrder K]

/-! ## The content tokens of a window -/

namespace ChunkTokenClassification

variable (chunk : ChunkTokenClassification K)

/-- A row of a window that a content token has. -/
def Content (r : ((List K × ℕ) × (ℕ × ℕ)) × ℕ) : Prop :=
  r.1.1.2 = 0 ∧ chunk.contentRange.start ≤ r.2 ∧ r.2 < chunk.contentRange.stop

instance (r : ((List K × ℕ) × (ℕ × ℕ)) × ℕ) : Decidable (chunk.Content r) :=
  inferInstanceAs (Decidable (_ ∧ _))

/-- The place of a row's token in the text. -/
def place (r : ((List K × ℕ) × (ℕ × ℕ)) × ℕ) : ℕ :=
  chunk.firstToken + (r.2 - chunk.contentRange.start)

/-- The tokens that a window holds: the place in the text, the byte span and the logits. -/
def contentRows : List (ℕ × (ℕ × ℕ) × List K) :=
  (chunk.rows.filter fun r => chunk.Content r).map fun r => (chunk.place r, r.1.2, r.1.1.1)

end ChunkTokenClassification

/-- Windows that hold the tokens of a text, and agree on the span and the logits of each. -/
structure ScoreWindows (chunks : List (ChunkTokenClassification K))
    (text : ℕ → Option ((ℕ × ℕ) × List K)) : Prop where
  labels : ∀ c ∈ chunks, ∀ c' ∈ chunks, c.numLabels = c'.numLabels
  agrees : ∀ c ∈ chunks, ∀ t ∈ c.contentRows, text t.1 = some t.2
  covers : ∀ i t, text i = some t → ∃ c ∈ chunks, (i, t) ∈ c.contentRows

/-- What a window adds for one token. -/
structure Share (K : Type) where
  place : ℕ
  weight : K
  row : List K
  span : ℕ × ℕ

/-- The shares of the tokens of a window. -/
def ChunkTokenClassification.shares (weighting : WindowWeighting)
    (chunk : ChunkTokenClassification K) : List (Share K) :=
  (chunk.rows.filter fun r => chunk.Content r).map fun r =>
    { place := chunk.place r
      weight := weighting.weight (r.2 - chunk.contentRange.start) chunk.contentRange.len
      row := r.1.1.1
      span := r.1.2 }

def addShare (lo numLabels : ℕ) (acc : Sums K) (s : Share K) : Sums K :=
  acc.add numLabels (s.place - lo) s.weight s.row s.span

theorem foldl_addRow (weighting : WindowWeighting) (lo : ℕ) (chunk : ChunkTokenClassification K)
    (acc : Sums K) :
    chunk.rows.foldl (addRow weighting lo chunk) acc =
      (chunk.shares weighting).foldl (addShare lo chunk.numLabels) acc := by
  rw [ChunkTokenClassification.shares, List.foldl_map, List.foldl_filter]
  congr 1
  funext acc r
  -- the loop skips what is no content
  by_cases hin : chunk.Content r
  · rw [if_pos (decide_eq_true hin), addRow]
    exact if_neg fun h => h.elim (fun hspecial => hspecial hin.1) fun hout => hout hin.2
  · rw [if_neg (by simpa using hin), addRow]
    refine if_pos ?_
    by_contra hno
    rw [not_or, not_not, not_not] at hno
    exact hin hno

theorem addWindows_eq (weighting : WindowWeighting) (lo numLabels : ℕ) (acc : Sums K) (window : ℕ)
    {chunks : List (ChunkTokenClassification K)} (h : ∀ c ∈ chunks, c.numLabels = numLabels) :
    addWindows weighting lo numLabels acc window chunks = .ok
      ((chunks.flatMap fun c => c.shares weighting).foldl (addShare lo numLabels) acc) := by
  induction chunks generalizing acc window with
  | nil => rfl
  | cons chunk chunks ih =>
    have hhead := h chunk List.mem_cons_self
    rw [addWindows, if_pos hhead, ih _ _ fun c hc => h c (List.mem_cons_of_mem _ hc),
      List.flatMap_cons, List.foldl_append, foldl_addRow, hhead]

/-! ## Rows of a flat list -/

theorem length_of_mem_chunksExact {α : Type} {xs row : List α} {n : ℕ} (h : row ∈ chunksExact xs n) :
    row.length = n := by
  obtain ⟨i, hi, rfl⟩ := List.mem_map.mp h
  have hlast : (i + 1) * n ≤ xs.length :=
    (Nat.mul_le_mul_right n (List.mem_range.mp hi)).trans (Nat.div_mul_le_self _ _)
  rw [Nat.succ_mul] at hlast
  rw [List.length_take, List.length_drop, min_eq_left (by omega)]

/-- Rows of one length, put one after the other and cut again. -/
theorem chunksExact_flatMap {α β : Type} {f : α → List β} {n : ℕ} (hn : 0 < n) {xs : List α}
    (h : ∀ x ∈ xs, (f x).length = n) : chunksExact (xs.flatMap f) n = xs.map f := by
  induction xs with
  | nil => simp [chunksExact]
  | cons x xs ih =>
    have hx : (f x).length = n := h x List.mem_cons_self
    have hcount : (f x ++ xs.flatMap f).length / n = (xs.flatMap f).length / n + 1 := by
      rw [List.length_append, hx, Nat.add_div_left _ hn]
    rw [List.map_cons, ← ih fun y hy => h y (List.mem_cons_of_mem _ hy), List.flatMap_cons,
      chunksExact, hcount, List.range_succ_eq_map, List.map_cons, List.map_map]
    congr 1
    · rw [Nat.zero_mul, List.drop_zero, ← hx, List.take_left]
    · -- past the first row
      refine List.map_congr_left fun i _ => ?_
      have hskip : (i + 1) * n = (f x).length + i * n := by rw [hx, Nat.succ_mul, Nat.add_comm]
      rw [Function.comp_apply, Nat.succ_eq_add_one, hskip, List.drop_length_add_append]

/-! ## Weights -/

section Weights

variable [IsStrictOrderedRing K]

/-- A window gives each of its tokens a positive weight. -/
theorem WindowWeighting.weight_pos (weighting : WindowWeighting) {k n : ℕ} (h : k < n) :
    0 < (weighting.weight k n : K) := by
  rw [WindowWeighting.weight]
  split
  · rename_i hhat
    have hn : (0 : K) < n := Nat.cast_pos.mpr (by omega)
    have hlast : (0 : K) < ((n - 1 : ℕ) : K) := Nat.cast_pos.mpr (by omega)
    have hk : (k : K) ≤ ((n - 1 : ℕ) : K) := Nat.cast_le.mpr (by omega)
    have hhalf : (0 : K) ≤ 1 - 1 / n :=
      sub_nonneg.mpr ((div_le_one hn).mpr (Nat.one_le_cast.mpr (by omega)))
    have hless : (1 : K) - 1 / n < 1 := sub_lt_self _ (by positivity)
    -- the place in the window, from nought to one
    have hshare : (0 : K) ≤ k / ((n - 1 : ℕ) : K) := by positivity
    have hshareLe : (k : K) / ((n - 1 : ℕ) : K) ≤ 1 := (div_le_one hlast).mpr hk
    have heq : 2 * (1 - 1 / (n : K)) * k / ((n - 1 : ℕ) : K) =
        2 * (1 - 1 / (n : K)) * (k / ((n - 1 : ℕ) : K)) := mul_div_assoc _ _ _
    have hslope : (0 : K) ≤ 2 * (1 - 1 / (n : K)) := by linarith
    have hlow : 0 ≤ 2 * (1 - 1 / (n : K)) * (k / ((n - 1 : ℕ) : K)) := mul_nonneg hslope hshare
    have hhigh : 2 * (1 - 1 / (n : K)) * (k / ((n - 1 : ℕ) : K)) ≤ 2 * (1 - 1 / (n : K)) :=
      mul_le_of_le_one_right hslope hshareLe
    refine sub_pos.mpr (lt_of_le_of_lt ?_ hless)
    rw [heq, abs_le]
    exact ⟨by linarith, by linarith⟩
  · exact one_pos

end Weights

/-! ## One share -/

namespace Sums

variable (acc : Sums K) (numLabels i : ℕ) (w : K) (row : List K) (span : ℕ × ℕ)

omit [LinearOrder K] in
theorem getD_add_weights (i' : ℕ) (h : i' < acc.weights.length) :
    (acc.add numLabels i w row span).weights.getD i' 0 =
      if i' = i then acc.weights.getD i' 0 + w else acc.weights.getD i' 0 := by
  simp [Sums.add, List.getD_eq_getElem?_getD, h]

omit [LinearOrder K] in
theorem getD_add_sums {i' j : ℕ} (hj : j < numLabels) (hrow : row.length = numLabels)
    (h : i' * numLabels + j < acc.sums.length) :
    (acc.add numLabels i w row span).sums.getD (i' * numLabels + j) 0 =
      if i' = i then acc.sums.getD (i' * numLabels + j) 0 + w * row.getD j 0
      else acc.sums.getD (i' * numLabels + j) 0 := by
  simp only [Sums.add, List.getD_eq_getElem?_getD, List.getElem?_mapIdx,
    List.getElem?_eq_getElem h, Option.map_some, Option.getD_some]
  by_cases hi : i' = i
  · subst hi
    rw [if_pos ⟨by omega, by omega, by omega⟩, if_pos rfl, Nat.add_sub_cancel_left]
  · -- another token's labels
    rw [if_neg hi, if_neg]
    rintro ⟨hlow, hhigh, -⟩
    rcases Nat.lt_or_gt_of_ne hi with hlt | hgt
    · have := Nat.mul_le_mul_right numLabels (Nat.succ_le_of_lt hlt)
      rw [Nat.succ_mul] at this
      omega
    · have := Nat.mul_le_mul_right numLabels (Nat.succ_le_of_lt hgt)
      rw [Nat.succ_mul] at this
      omega

omit [LinearOrder K] in
theorem getD_add_spans (i' : ℕ) (h : i < acc.spans.length) :
    (acc.add numLabels i w row span).spans.getD i' (0, 0) =
      if i' = i then span else acc.spans.getD i' (0, 0) := by
  rw [Sums.add, List.getD_eq_getElem?_getD, List.getElem?_set, List.getD_eq_getElem?_getD]
  by_cases hi : i' = i
  · rw [if_pos hi.symm, if_pos (hi ▸ h), if_pos hi]
    rfl
  · rw [if_neg (Ne.symm hi), if_neg hi]

end Sums

/-! ## The sums of the shares so far -/

/-- The sums after the shares of the tokens in `seen`. -/
structure Weighed (text : ℕ → Option ((ℕ × ℕ) × List K)) (lo numLabels n : ℕ) (seen : List ℕ)
    (acc : Sums K) : Prop where
  lengths : acc.sums.length = n * numLabels ∧ acc.weights.length = n ∧ acc.spans.length = n
  unseen : ∀ i < n, lo + i ∉ seen → acc.weights.getD i 0 = 0 ∧
    ∀ j < numLabels, acc.sums.getD (i * numLabels + j) 0 = 0
  weighed : ∀ i < n, lo + i ∈ seen → 0 < acc.weights.getD i 0 ∧
    ∃ row, text (lo + i) = some (acc.spans.getD i (0, 0), row) ∧ row.length = numLabels ∧
      ∀ j < numLabels, acc.sums.getD (i * numLabels + j) 0 = acc.weights.getD i 0 * row.getD j 0

/-- A share of a token of the text that the sums have room for. -/
structure Fits (text : ℕ → Option ((ℕ × ℕ) × List K)) (lo numLabels n : ℕ) (s : Share K) : Prop where
  text : text s.place = some (s.span, s.row)
  row : s.row.length = numLabels
  low : lo ≤ s.place
  high : s.place - lo < n
  weight : 0 < s.weight

section Loop

variable {text : ℕ → Option ((ℕ × ℕ) × List K)} {lo numLabels n : ℕ} {seen : List ℕ} {acc : Sums K}

theorem weighed_zero : Weighed text lo numLabels n []
    ⟨List.replicate (n * numLabels) 0, List.replicate n (0 : K), List.replicate n (0, 0)⟩ where
  lengths := by simp
  unseen i hi _ := by
    refine ⟨by simp [hi], fun j hj => ?_⟩
    have hroom : i * numLabels + j < n * numLabels := by
      have := Nat.mul_le_mul_right numLabels (Nat.succ_le_of_lt hi)
      rw [Nat.succ_mul] at this
      omega
    simp [hroom]
  weighed i _ h := by cases h

theorem Weighed.add [IsStrictOrderedRing K] (h : Weighed text lo numLabels n seen acc) {s : Share K}
    (hs : Fits text lo numLabels n s) :
    Weighed text lo numLabels n (seen ++ [s.place]) (addShare lo numLabels acc s) := by
  obtain ⟨hsums, hweights, hspans⟩ := h.lengths
  have hroom : ∀ i < n, ∀ j < numLabels, i * numLabels + j < acc.sums.length := by
    intro i hi j hj
    have := Nat.mul_le_mul_right numLabels (Nat.succ_le_of_lt hi)
    rw [Nat.succ_mul] at this
    omega
  have hplace : lo + (s.place - lo) = s.place := by have := hs.low; omega
  have hmem : ∀ i, lo + i ∈ seen ++ [s.place] ↔ lo + i ∈ seen ∨ i = s.place - lo := by
    intro i
    rw [List.mem_append, List.mem_singleton]
    have := hs.low
    constructor
    · exact Or.imp_right fun h => by omega
    · exact Or.imp_right fun h => by omega
  have hweight := fun i (hi : i < n) =>
    acc.getD_add_weights numLabels (s.place - lo) s.weight s.row s.span i (hweights ▸ hi)
  have hsum := fun i (hi : i < n) j (hj : j < numLabels) =>
    acc.getD_add_sums numLabels (s.place - lo) s.weight s.row s.span hj hs.row (hroom i hi j hj)
  have hspan := fun i =>
    acc.getD_add_spans numLabels (s.place - lo) s.weight s.row s.span i (hspans ▸ hs.high)
  refine ⟨by simpa [addShare, Sums.add] using h.lengths, fun i hi hnot => ?_, fun i hi hin => ?_⟩
  · rw [hmem, not_or] at hnot
    obtain ⟨hzero, hzeros⟩ := h.unseen i hi hnot.1
    refine ⟨by rw [addShare, hweight i hi, if_neg hnot.2, hzero], fun j hj => ?_⟩
    rw [addShare, hsum i hi j hj, if_neg hnot.2, hzeros j hj]
  · rw [addShare, hweight i hi, hspan i]
    by_cases heq : i = s.place - lo
    · -- the token of the share: a first share or one more of the same row
      have htext : text (lo + i) = some (s.span, s.row) := by rw [heq, hplace, hs.text]
      simp only [heq, if_true]
      rw [← heq]
      by_cases hold : lo + i ∈ seen
      · obtain ⟨hpos, row, hrow, -, hmean⟩ := h.weighed i hi hold
        obtain rfl : s.row = row := by
          rw [htext] at hrow
          exact (Prod.mk.injEq .. ▸ Option.some.inj hrow).2
        refine ⟨add_pos hpos hs.weight, s.row, htext, hs.row, fun j hj => ?_⟩
        rw [heq, hsum _ hs.high j hj, if_pos rfl, ← heq, hmean j hj, add_mul]
      · obtain ⟨hzero, hzeros⟩ := h.unseen i hi hold
        rw [hzero, zero_add]
        refine ⟨hs.weight, s.row, htext, hs.row, fun j hj => ?_⟩
        rw [heq, hsum _ hs.high j hj, if_pos rfl, ← heq, hzeros j hj, zero_add]
    · rw [if_neg heq, if_neg heq]
      obtain ⟨hpos, row, hrow, hlen, hmean⟩ :=
        h.weighed i hi (((hmem i).mp hin).resolve_right heq)
      refine ⟨hpos, row, hrow, hlen, fun j hj => ?_⟩
      rw [hsum i hi j hj, if_neg heq, hmean j hj]

theorem Weighed.foldl [IsStrictOrderedRing K] (h : Weighed text lo numLabels n seen acc)
    {shares : List (Share K)} (hshares : ∀ s ∈ shares, Fits text lo numLabels n s) :
    Weighed text lo numLabels n (seen ++ shares.map Share.place)
      (shares.foldl (addShare lo numLabels) acc) := by
  induction shares generalizing seen acc with
  | nil => simpa using h
  | cons s shares ih =>
    have hstep := ih (h.add (hshares s List.mem_cons_self)) fun s hs =>
      hshares s (List.mem_cons_of_mem _ hs)
    rwa [List.append_assoc] at hstep

/-- The weighted row of a token, over its weight, is the row of the text. -/
theorem Weighed.probs (h : Weighed text lo numLabels n seen acc) (sigmoid : K → K) {i : ℕ}
    (hi : i < n) (hin : lo + i ∈ seen) :
    ∃ row, text (lo + i) = some (acc.spans.getD i (0, 0), row) ∧
      ((acc.sums.drop (i * numLabels)).take numLabels).map
        (fun sum => sigmoid (sum / acc.weights.getD i 0)) = row.map sigmoid := by
  obtain ⟨hpos, row, htext, hlen, hmean⟩ := h.weighed i hi hin
  have hroom : i * numLabels + numLabels ≤ acc.sums.length := by
    rw [h.lengths.1, ← Nat.succ_mul]
    exact Nat.mul_le_mul_right numLabels hi
  refine ⟨row, htext, List.ext_getElem ?_ fun j hj hj' => ?_⟩
  · simp only [List.length_map, List.length_take, List.length_drop]
    omega
  · have hjrow : j < numLabels := by simpa [hlen] using hj'
    have hsum := hmean j hjrow
    rw [List.getD_eq_getElem _ _ (by omega), List.getD_eq_getElem row _ (by omega)] at hsum
    rw [List.getElem_map, List.getElem_map, List.getElem_take, List.getElem_drop, hsum,
      mul_div_cancel_left₀ _ hpos.ne']

end Loop

/-! ## The scores of a text -/

theorem zip_map_map {α β γ : Type} (f : α → β) (g : α → γ) (xs : List α) :
    (xs.map f).zip (xs.map g) = xs.map fun x => (f x, g x) := by
  induction xs with
  | nil => rfl
  | cons x xs ih => rw [List.map_cons, List.map_cons, List.zip_cons_cons, ih, List.map_cons]

/-- What `iter` gives of the sums. -/
theorem iter_finish (sigmoid : K → K) (lo : ℕ) {numLabels n : ℕ} {acc : Sums K}
    (hsums : acc.sums.length = n * numLabels) (hweights : acc.weights.length = n)
    (hlabels : 0 < numLabels) :
    (finish sigmoid lo numLabels acc).iter =
      (acc.weights.zipIdx.filter fun p => 0 < p.1).map fun p =>
        (lo + p.2, acc.spans.getD p.2 (0, 0),
          ((acc.sums.drop (p.2 * numLabels)).take numLabels).map fun sum => sigmoid (sum / p.1)) := by
  rw [TokenScores.iter, finish, max_eq_left (Nat.succ_le_of_lt hlabels),
    chunksExact_flatMap hlabels, zip_map_map, List.map_map]
  · rfl
  · intro p hp
    have hplace : p.2 < n := hweights ▸ (List.mem_zipIdx' (List.mem_filter.mp hp).1).1
    have hroom := Nat.mul_le_mul_right numLabels (Nat.succ_le_of_lt hplace)
    rw [Nat.succ_mul, ← hsums] at hroom
    rw [List.length_map, List.length_take, List.length_drop, min_eq_left (by omega)]

/-- The tokens of the text, in its order, each with the scores of its own row. -/
def ScoresOf (sigmoid : K → K) (text : ℕ → Option ((ℕ × ℕ) × List K)) (scores : TokenScores K) :
    Prop :=
  (scores.iter.Pairwise fun a b => a.1 < b.1) ∧
    ∀ i span probs, (i, span, probs) ∈ scores.iter ↔
      ∃ row, text i = some (span, row) ∧ probs = row.map sigmoid

theorem Weighed.scoresOf {text : ℕ → Option ((ℕ × ℕ) × List K)} {lo numLabels n : ℕ}
    {seen : List ℕ} {acc : Sums K} (h : Weighed text lo numLabels n seen acc) (sigmoid : K → K)
    (hlabels : 0 < numLabels) (hseen : ∀ i, i ∈ seen → lo ≤ i ∧ i - lo < n)
    (hcovers : ∀ i t, text i = some t → i ∈ seen) :
    ScoresOf sigmoid text (finish sigmoid lo numLabels acc) := by
  obtain ⟨hsums, hweights, -⟩ := h.lengths
  have hiter := iter_finish sigmoid lo hsums hweights hlabels
  refine ⟨?_, fun i span probs => ?_⟩
  · have hplaces : acc.weights.zipIdx.Pairwise fun a b => a.2 < b.2 := by
      refine List.pairwise_map.mp ?_
      rw [List.zipIdx_map_snd]
      exact List.pairwise_lt_range'
    rw [hiter]
    exact List.pairwise_map.mpr
      ((hplaces.sublist List.filter_sublist).imp fun hlt => Nat.add_lt_add_left hlt lo)
  · -- a kept place is one that a window has a token at
    have hkept : ∀ w j, (w, j) ∈ acc.weights.zipIdx.filter (fun p => 0 < p.1) ↔
        (j < n ∧ lo + j ∈ seen) ∧ w = acc.weights.getD j 0 := by
      intro w j
      rw [List.mem_filter, List.mk_mem_zipIdx_iff_getElem?]
      constructor
      · rintro ⟨hget, hpos⟩
        obtain ⟨hj, hget⟩ := List.getElem?_eq_some_iff.mp hget
        have hw : w = acc.weights.getD j 0 := by rw [List.getD_eq_getElem _ _ hj, hget]
        refine ⟨⟨hweights ▸ hj, ?_⟩, hw⟩
        by_contra hnot
        rw [decide_eq_true_iff, hw, (h.unseen j (hweights ▸ hj) hnot).1] at hpos
        exact lt_irrefl _ hpos
      · rintro ⟨⟨hj, hin⟩, rfl⟩
        have hj' : j < acc.weights.length := hweights.symm ▸ hj
        refine ⟨?_, decide_eq_true (h.weighed j hj hin).1⟩
        rw [List.getD_eq_getElem _ _ hj']
        exact List.getElem?_eq_getElem hj'
    rw [hiter, List.mem_map]
    constructor
    · rintro ⟨⟨w, j⟩, hp, heq⟩
      obtain ⟨⟨hj, hin⟩, rfl⟩ := (hkept w j).mp hp
      obtain ⟨row, htext, hprobs⟩ := h.probs sigmoid hj hin
      simp only [Prod.mk.injEq] at heq
      obtain ⟨rfl, rfl, rfl⟩ := heq
      exact ⟨row, htext, hprobs⟩
    · rintro ⟨row, htext, rfl⟩
      have hin := hcovers i _ htext
      obtain ⟨hlow, hj⟩ := hseen i hin
      have hplace : lo + (i - lo) = i := by omega
      obtain ⟨row', htext', hprobs⟩ := h.probs sigmoid hj (by rwa [hplace])
      rw [hplace, htext] at htext'
      obtain ⟨rfl, rfl⟩ := Prod.mk.inj (Option.some.inj htext')
      exact ⟨(acc.weights.getD (i - lo) 0, i - lo),
        (hkept _ _).mpr ⟨⟨hj, by rwa [hplace]⟩, rfl⟩, by simp only [hplace, hprobs]⟩

namespace ChunkTokenClassification

variable (chunk : ChunkTokenClassification K)

/-- A share of a window is one of its tokens. -/
theorem exists_of_mem_shares {weighting : WindowWeighting} {s : Share K}
    (h : s ∈ chunk.shares weighting) : ∃ r ∈ chunk.rows, chunk.Content r ∧
      (s.place, s.span, s.row) = (chunk.place r, r.1.2, r.1.1.1) ∧
      s.weight = weighting.weight (r.2 - chunk.contentRange.start) chunk.contentRange.len := by
  obtain ⟨r, hr, rfl⟩ := List.mem_map.mp h
  obtain ⟨hr, hin⟩ := List.mem_filter.mp hr
  exact ⟨r, hr, of_decide_eq_true hin, rfl, rfl⟩

theorem exists_share_of_mem_contentRows (weighting : WindowWeighting)
    {t : ℕ × (ℕ × ℕ) × List K} (h : t ∈ chunk.contentRows) :
    ∃ s ∈ chunk.shares weighting, s.place = t.1 := by
  obtain ⟨r, hr, rfl⟩ := List.mem_map.mp h
  exact ⟨_, List.mem_map_of_mem hr, rfl⟩

omit [Field K] [LinearOrder K] in
theorem length_row {r : ((List K × ℕ) × (ℕ × ℕ)) × ℕ} (h : r ∈ chunk.rows) :
    r.1.1.1.length = chunk.numLabels := by
  have hzip : r.1 ∈ ((chunksExact chunk.logits chunk.numLabels).zip chunk.specialTokensMask).zip
      chunk.tokenOffsets := List.fst_mem_of_mem_zipIdx h
  exact length_of_mem_chunksExact (List.of_mem_zip (List.of_mem_zip hzip).1).1

end ChunkTokenClassification

variable {chunks : List (ChunkTokenClassification K)} {text : ℕ → Option ((ℕ × ℕ) × List K)}

/-- The shares of agreeing windows fit the sums that the document has for them. -/
theorem ScoreWindows.fits [IsStrictOrderedRing K] (h : ScoreWindows chunks text)
    (weighting : WindowWeighting) {numLabels : ℕ} (hlabels : ∀ c ∈ chunks, c.numLabels = numLabels)
    {s : Share K} (hs : s ∈ chunks.flatMap fun c => c.shares weighting) :
    Fits text ((chunks.map fun c => c.firstToken).min?.getD 0) numLabels
      ((chunks.map fun c => c.firstToken + c.contentRange.len).max?.getD 0 -
        (chunks.map fun c => c.firstToken).min?.getD 0) s := by
  obtain ⟨c, hc, hs⟩ := List.mem_flatMap.mp hs
  obtain ⟨r, hr, hin, heq, hweight⟩ := c.exists_of_mem_shares hs
  simp only [Prod.mk.injEq] at heq
  obtain ⟨hplace, hspan, hrow⟩ := heq
  have hlow : (chunks.map fun c => c.firstToken).min?.getD 0 ≤ c.firstToken :=
    List.min?_getD_le_of_mem (List.mem_map_of_mem hc)
  have hhigh : c.firstToken + c.contentRange.len ≤
      (chunks.map fun c => c.firstToken + c.contentRange.len).max?.getD 0 :=
    List.le_max?_getD_of_mem (List.mem_map_of_mem (f := fun c => c.firstToken + c.contentRange.len) hc)
  have hlt : r.2 - c.contentRange.start < c.contentRange.len := by
    have := hin.2
    rw [Range.len]
    omega
  rw [ChunkTokenClassification.place] at hplace
  refine ⟨?_, ?_, by omega, by omega, hweight ▸ weighting.weight_pos hlt⟩
  · have hmem : (s.place, s.span, s.row) ∈ c.contentRows := by
      rw [hplace, hspan, hrow]
      exact List.mem_map_of_mem (List.mem_filter.mpr ⟨hr, decide_eq_true hin⟩)
    exact h.agrees c hc _ hmem
  · rw [hrow, c.length_row hr, hlabels c hc]

/-- Agreeing windows give each token of the text the scores of its own row. -/
theorem ScoreWindows.scoresOf [IsStrictOrderedRing K] (h : ScoreWindows chunks text)
    (sigmoid : K → K) (weighting : WindowWeighting) :
    ∃ scores, tokenScoresDocument sigmoid chunks weighting = .ok scores ∧
      ScoresOf sigmoid text scores := by
  rw [tokenScoresDocument]
  cases hfirst : (chunks.head?.map fun c => c.numLabels).filter fun nl => 0 < nl with
  | none =>
    -- no windows, or no labels: no token has a row
    refine ⟨.empty, rfl, List.Pairwise.nil, fun i span probs => ⟨fun hin => ?_, ?_⟩⟩
    · cases hin
    · rintro ⟨row, htext, -⟩
      obtain ⟨c, hc, hin⟩ := h.covers i _ htext
      obtain ⟨r, hr, -⟩ := List.mem_map.mp hin
      have hzero : c.numLabels = 0 := by
        cases chunks with
        | nil => cases hc
        | cons c' chunks =>
          rw [h.labels c hc c' List.mem_cons_self]
          simpa [Option.filter_some] using hfirst
      have hrows : c.rows = [] := by simp [ChunkTokenClassification.rows, chunksExact, hzero]
      rw [hrows] at hr
      cases (List.mem_filter.mp hr).1
  | some numLabels =>
    obtain ⟨hhead, hpos⟩ := Option.filter_eq_some_iff.mp hfirst
    obtain ⟨c', hc', hnum⟩ := Option.map_eq_some_iff.mp hhead
    have hlabels : ∀ c ∈ chunks, c.numLabels = numLabels := fun c hc =>
      (h.labels c hc c' (List.mem_of_mem_head? hc')).trans hnum
    have hfits := fun s hs => h.fits weighting hlabels (s := s) hs
    have hweighed := weighed_zero.foldl hfits
    refine ⟨_, by simp only [addWindows_eq _ _ _ _ _ hlabels]; rfl,
      hweighed.scoresOf sigmoid (of_decide_eq_true hpos) ?_ ?_⟩
    · intro i hi
      obtain ⟨s, hs, rfl⟩ := List.mem_map.mp hi
      exact ⟨(hfits s hs).low, (hfits s hs).high⟩
    · intro i t htext
      obtain ⟨c, hc, hin⟩ := h.covers i t htext
      obtain ⟨s, hs, rfl⟩ := c.exists_share_of_mem_contentRows weighting hin
      exact List.mem_map_of_mem (List.mem_flatMap.mpr ⟨c, hc, hs⟩)

/-! ## Documents -/

/-- The entities and the scores of a document are those of its text: the windows leave no seam. -/
theorem document_of_windows [IsStrictOrderedRing K] {S : Type} [LinearOrder S] (scheme : Scheme)
    {perChunk : List (List (TokenLabel S))} {whole : List (TokenLabel S)}
    (hwindows : Windows perChunk whole) (sigmoid : K → K) (weighting : WindowWeighting)
    (hchunks : ScoreWindows chunks text) :
    ((groupSpansDocument perChunk scheme).map Entity.unscored =
        (groupSpans whole scheme).map Entity.unscored ∧
      (Surest perChunk whole → groupSpansDocument perChunk scheme = groupSpans whole scheme) ∧
      Intervals.Ordered ((groupSpansDocument perChunk scheme).map tokensOf) ∧
      ∀ t ∈ whole, (((groupSpansDocument perChunk scheme).map tokensOf).countP fun r =>
        r.1 ≤ t.tokenIndex ∧ t.tokenIndex < r.2) = if Outside scheme t then 0 else 1) ∧
    ∃ scores, tokenScoresDocument sigmoid chunks weighting = .ok scores ∧
      ScoresOf sigmoid text scores := by
  have hgroups : (groupSpansDocument perChunk scheme).map Entity.unscored =
      (groupSpans whole scheme).map Entity.unscored := by
    rw [groupSpansDocument, ← groupSpans_unscored, ← groupSpans_unscored, hwindows.map_unscored]
  -- an entity spans the same tokens with and without its confidence
  have htokens : (groupSpansDocument perChunk scheme).map tokensOf =
      (groupSpans whole scheme).map tokensOf := by
    have := congrArg (List.map tokensOf) hgroups
    rwa [List.map_map, List.map_map] at this
  obtain ⟨hordered, hcount⟩ := (groupSpans_grouped whole scheme).partition hwindows.sorted
  refine ⟨⟨hgroups, fun hsurest => ?_, by rwa [htokens], fun t ht => by rw [htokens, hcount t ht]⟩,
    hchunks.scoresOf sigmoid weighting⟩
  rw [groupSpansDocument, hwindows.mergeWindows_eq hsurest]

/-- A person's name of two tokens and a token outside, the confidences counted in percent. -/
def seamText : List (TokenLabel ℕ) :=
  [⟨1, "B-PER", 0, 3, 0, 90⟩, ⟨2, "I-PER", 4, 9, 1, 80⟩, ⟨0, "O", 10, 14, 2, 70⟩]

/-- Two windows of it with a seam inside the name. -/
def seamTokens : List (List (TokenLabel ℕ)) :=
  [[⟨1, "B-PER", 0, 3, 0, 90⟩, ⟨2, "I-PER", 4, 9, 1, 60⟩],
    [⟨2, "I-PER", 4, 9, 1, 80⟩, ⟨0, "O", 10, 14, 2, 70⟩]]

/-- The logit of one label for each token of that text. -/
def seamRows : ℕ → Option ((ℕ × ℕ) × List ℚ)
  | 0 => some ((0, 3), [1])
  | 1 => some ((4, 9), [-2])
  | 2 => some ((10, 14), [3])
  | _ => none

def seamChunks : List (ChunkTokenClassification ℚ) :=
  [⟨0, [1, -2], 1, [(0, 3), (4, 9)], [0, 0], some ⟨0, 2⟩⟩,
    ⟨1, [-2, 3], 1, [(4, 9), (10, 14)], [0, 0], some ⟨0, 2⟩⟩]

theorem document_of_windows_seam :
    groupSpansDocument seamTokens .bio = groupSpans seamText .bio ∧
      ∃ scores, tokenScoresDocument id seamChunks .hat = .ok scores ∧
        ScoresOf id seamRows scores := by
  have hwindows : Windows seamTokens seamText := by
    refine ⟨by decide, by decide, by decide⟩
  have hsurest : Surest seamTokens seamText := by
    unfold Surest
    decide
  have hchunks : ScoreWindows seamChunks seamRows := by
    refine ⟨by decide, by decide, ?_⟩
    rintro (_ | _ | _ | i) t ht
    · cases ht
      exact ⟨_, List.mem_cons_self, by decide⟩
    · cases ht
      exact ⟨_, List.mem_cons_self, by decide⟩
    · cases ht
      exact ⟨_, List.mem_cons_of_mem _ List.mem_cons_self, by decide⟩
    · cases ht
  have h := document_of_windows .bio hwindows id .hat hchunks
  exact ⟨h.1.2.1 hsurest, h.2⟩

end Svod.Arch.Text
