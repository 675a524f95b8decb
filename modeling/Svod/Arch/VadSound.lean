/-
  Svod.Arch.VadSound

  What the chunker does to the speech runs: `split_long_runs` cuts every run in
  consecutive pieces, `pack_segments` joins consecutive segments and drops none,
  and the decode windows stay within `strict_chunk_sample_bound`.

  The places of the splits stay within the search radius of the equal division
  as long as no trough is preferred to it, so a piece is no longer than its
  share and twice the radius.
-/

import Mathlib.Tactic.Linarith
import Mathlib.Tactic.Ring
import Svod.Arch.Vad

namespace Svod.Arch.Vad

open Svod.Intervals

/-! ## Speech runs -/

section ThresholdSegments

variable {P : Type*} [LinearOrder P] (threshold : P) (minSpeech minSilence mergeGap : ℕ)

variable {threshold minSpeech minSilence}

theorem scan_speech {p : P} (hp : threshold ≤ p) (i : ℕ) (start : Option ℕ) (silence : ℕ)
    (probs : List P) : scan threshold minSpeech minSilence i start silence (p :: probs) =
      scan threshold minSpeech minSilence (i + 1) (some (start.getD i)) 0 probs := by
  cases start <;> simp [scan, hp]

theorem scan_idle {p : P} (hp : ¬ threshold ≤ p) (i silence : ℕ) (probs : List P) :
    scan threshold minSpeech minSilence i none silence (p :: probs) =
      scan threshold minSpeech minSilence (i + 1) none silence probs := by
  simp [scan, hp]

theorem scan_silence {p : P} (hp : ¬ threshold ≤ p) (i s silence : ℕ) (probs : List P) :
    scan threshold minSpeech minSilence i (some s) silence (p :: probs) =
      if minSilence = 0 ∨ minSilence ≤ silence + 1 then
        (if s < i + 1 - (silence + 1) ∧ minSpeech ≤ i + 1 - (silence + 1) - s then
          [(s, i + 1 - (silence + 1))] else []) ++
          scan threshold minSpeech minSilence (i + 1) none 0 probs
      else scan threshold minSpeech minSilence (i + 1) (some s) (silence + 1) probs := by
  simp [scan, hp]

variable (threshold minSpeech minSilence)

/-- The runs are in order with a silent frame between two of them, and inside the frames read. -/
theorem scan_spaced (probs : List P) {i silence : ℕ} {start : Option ℕ}
    (hstart : ∀ s, start = some s → s + silence < i) :
    Spaced (scan threshold minSpeech minSilence i start silence probs) ∧
      ∀ r ∈ scan threshold minSpeech minSilence i start silence probs,
        start.getD i ≤ r.1 ∧ r.2 ≤ i + probs.length := by
  induction probs generalizing i silence start with
  | nil =>
    cases start with
    | none => exact ⟨.nil, by simp [scan]⟩
    | some s =>
      have hlt : s < i := (Nat.le_add_right s silence).trans_lt (hstart s rfl)
      simp only [scan]
      split
      · exact ⟨.singleton hlt, by simp⟩
      · exact ⟨.nil, by simp⟩
  | cons p probs ih =>
    by_cases hp : threshold ≤ p
    · rw [scan_speech hp]
      have hnext : ∀ s, some (start.getD i) = some s → s + 0 < i + 1 := by
        rintro s ⟨⟩
        cases start with
        | none => exact Nat.lt_succ_self i
        | some s => exact Nat.lt_succ_of_lt ((Nat.le_add_right s silence).trans_lt (hstart s rfl))
      obtain ⟨hspaced, hinside⟩ := ih hnext
      refine ⟨hspaced, fun r hr => ?_⟩
      have h := hinside r hr
      rw [List.length_cons]
      simp only [Option.getD_some] at h
      omega
    · cases start with
      | none =>
        rw [scan_idle hp]
        obtain ⟨hspaced, hinside⟩ := @ih (i + 1) silence none nofun
        refine ⟨hspaced, fun r hr => ?_⟩
        have h := hinside r hr
        rw [List.length_cons]
        simp only [Option.getD_none] at h ⊢
        omega
      | some s =>
        have hlt := hstart s rfl
        rw [scan_silence hp, List.length_cons, Option.getD_some]
        split
        · -- the run ends before the silence, the next one starts after this frame
          obtain ⟨hspaced, hinside⟩ := @ih (i + 1) 0 none nofun
          have hafter : ∀ r ∈ scan threshold minSpeech minSilence (i + 1) none 0 probs,
              i + 1 ≤ r.1 ∧ r.2 ≤ i + (probs.length + 1) := fun r hr => by
            have h := hinside r hr
            simp only [Option.getD_none] at h
            omega
          split
          · rw [List.singleton_append]
            refine ⟨hspaced.cons (show s < _ by omega) fun r hr => ?_,
              List.forall_mem_cons.mpr ⟨by dsimp only; omega, fun r hr => ?_⟩⟩
            · have h := hafter r hr
              show i + 1 - (silence + 1) < r.1
              omega
            · have h := hafter r hr
              omega
          · rw [List.nil_append]
            refine ⟨hspaced, fun r hr => ?_⟩
            have h := hafter r hr
            omega
        · obtain ⟨hspaced, hinside⟩ := @ih (i + 1) (silence + 1) (some s) fun s' hs' => by
            obtain rfl := Option.some.inj hs'
            omega
          refine ⟨hspaced, fun r hr => ?_⟩
          have h := hinside r hr
          simp only [Option.getD_some] at h
          omega

end ThresholdSegments

/-! ## The split of long runs -/

section SplitLongRuns

variable {P : Type*} [LinearOrder P] {probs : List P}

theorem argminFrom_lt (rest : List P) {best i : ℕ} (bestV : P) (hbest : best < i) :
    argminFrom best bestV i rest < i + rest.length := by
  induction rest generalizing best bestV i with
  | nil => exact hbest
  | cons v rest ih =>
    rw [argminFrom, List.length_cons, ← Nat.add_assoc, Nat.add_right_comm]
    split
    · exact ih v (Nat.lt_succ_self i)
    · exact ih bestV (Nat.lt_succ_of_lt hbest)

theorem argmin_le (xs : List P) : argmin xs ≤ xs.length - 1 := by
  cases xs with
  | nil => exact Nat.zero_le _
  | cons v rest =>
    have hlt := argminFrom_lt rest v Nat.one_pos
    rw [argmin, List.length_cons]
    omega

omit [LinearOrder P] in
theorem slice_length_le (lo hi : ℕ) : (slice probs lo hi).length ≤ hi + 1 - lo := by
  rw [slice, List.length_drop, List.length_take]
  omega

/-- A trough lies in the range that is searched, and its frame is below the threshold. -/
theorem troughSplit_mem {tt : Option P} {lo hi target s : ℕ}
    (h : troughSplit probs tt lo hi target = some s) :
    lo ≤ s ∧ s ≤ hi ∧ ∃ t, tt = some t ∧ ∃ p, probs[s]? = some p ∧ p < t := by
  obtain ⟨t, rfl, hsome⟩ := Option.bind_eq_some_iff.mp h
  split at hsome
  case isTrue => cases hsome
  case isFalse hle =>
    obtain ⟨i, hi', rfl⟩ := Option.map_eq_some_iff.mp hsome
    obtain ⟨e, he, rfl⟩ := List.mem_map.mp (List.argmin_mem hi')
    obtain ⟨hmem, hlt⟩ := List.mem_filter.mp he
    have hget := List.mem_zipIdx_iff_getElem?.mp hmem
    rw [slice, List.getElem?_drop, List.getElem?_take] at hget
    split at hget
    case isFalse => cases hget
    case isTrue hroom =>
      exact ⟨Nat.le_add_right _ _, Nat.le_of_lt_succ hroom, t, rfl, e.1, hget,
        of_decide_eq_true hlt⟩

variable {r : ℕ} {tt : Option P} {start stop n mp : ℕ}

/-- A split leaves room for the piece before it and for all pieces after it. -/
theorem splitAt_legal {k cur : ℕ} (hroom : cur + mp + (n - k) * mp ≤ stop) :
    cur + mp ≤ splitAt probs r tt start stop n mp k cur ∧
      splitAt probs r tt start stop n mp k cur + (n - k) * mp ≤ stop := by
  rw [splitAt]
  generalize (n - k) * mp = after at hroom ⊢
  generalize start + (stop - start) * k / n = target
  split
  case h_1 s hs =>
    obtain ⟨hlo, hhi, -⟩ := troughSplit_mem hs
    omega
  case h_2 =>
    split
    case isTrue hle =>
      have hlen := @slice_length_le P probs (max (target - r) (cur + mp))
        (min (target + r) (stop - after - 1))
      have harg := argmin_le (slice probs (max (target - r) (cur + mp))
        (min (target + r) (stop - after - 1)))
      omega
    case isFalse => omega

theorem pieces_tiles (hmp : 0 < mp) (left : ℕ) {cur : ℕ} (hleft : left < n)
    (hroom : cur + (left + 1) * mp ≤ stop) :
    Tiles cur stop (pieces probs r tt start stop n mp left cur) := by
  induction left generalizing cur with
  | zero =>
    have hlt : cur < stop := by omega
    rw [pieces, if_pos hlt]
    exact .singleton (show (cur, stop).1 < (cur, stop).2 from hlt)
  | succ left ih =>
    have hk : n - (n - (left + 1)) = left + 1 := by omega
    have hlegal := @splitAt_legal P _ probs r tt start stop n mp (n - (left + 1)) cur (by
      rw [hk]
      calc cur + mp + (left + 1) * mp = cur + (left + 1 + 1) * mp := by ring
        _ ≤ stop := hroom)
    rw [hk] at hlegal
    have hafter : 0 < (left + 1) * mp := Nat.mul_pos left.succ_pos hmp
    rw [pieces, if_pos ⟨by omega, by omega⟩]
    exact ⟨rfl, show cur < _ by omega, ih (by omega) hlegal.2⟩

/-- When the pieces have no room to spare they are all of the least length. -/
theorem pieces_exact (hmp : 0 < mp) (left : ℕ) {cur : ℕ} (hleft : left < n)
    (hroom : cur + (left + 1) * mp = stop) :
    ∀ p ∈ pieces probs r tt start stop n mp left cur, p.2 - p.1 = mp := by
  induction left generalizing cur with
  | zero =>
    rw [pieces, if_pos (by omega)]
    simp only [List.mem_singleton, forall_eq]
    omega
  | succ left ih =>
    have hk : n - (n - (left + 1)) = left + 1 := by omega
    have hsum : cur + mp + (left + 1) * mp = stop := by rw [← hroom]; ring
    have hlegal := @splitAt_legal P _ probs r tt start stop n mp (n - (left + 1)) cur (by
      rw [hk]
      exact hsum.le)
    rw [hk] at hlegal
    have hafter : 0 < (left + 1) * mp := Nat.mul_pos left.succ_pos hmp
    have hsplit : splitAt probs r tt start stop n mp (n - (left + 1)) cur = cur + mp := by omega
    rw [pieces, if_pos ⟨by omega, by omega⟩, hsplit]
    exact List.forall_mem_cons.mpr ⟨Nat.add_sub_cancel_left cur mp, ih (by omega) hsum⟩

/-! ### The distance of a split from the equal division -/

/-- The end of the `k`-th equal share. -/
def share (start stop n k : ℕ) : ℕ := start + (stop - start) * k / n

/-- An equal share is at least the mean rounded down and at most any bound the mean keeps. -/
theorem share_succ (hn : 0 < n) (k : ℕ) :
    share start stop n k + (stop - start) / n ≤ share start stop n (k + 1) ∧
      ∀ s, stop - start ≤ n * s → share start stop n (k + 1) ≤ share start stop n k + s := by
  rw [share, share, Nat.mul_succ]
  refine ⟨?_, fun s hs => ?_⟩
  · have h := @Nat.div_add_div_le_add_div ((stop - start) * k) (stop - start) n
    omega
  · have h : ((stop - start) * k + (stop - start)) / n ≤ ((stop - start) * k + n * s) / n :=
      Nat.div_le_div_right (by omega)
    rw [Nat.add_mul_div_left _ _ hn] at h
    omega

theorem share_last (hn : 0 < n) (hle : start ≤ stop) : share start stop n n = stop := by
  rw [share, Nat.mul_div_cancel _ hn]
  omega

/-- With room to spare, the pieces after the `k`-th share fit with more than their least length. -/
theorem share_room (hn : 0 < n) (hspare : n * mp < stop - start) {k : ℕ} (hk : k < n) :
    share start stop n k + (n - k) * mp < stop := by
  rw [share]
  generalize hlen : stop - start = len at hspare ⊢
  have hdiv : n * (len * k / n) ≤ len * k := Nat.mul_div_le _ _
  have hlt : len * k / n + (n - k) * mp < len := by
    by_contra hge
    obtain ⟨d, rfl⟩ : ∃ d, n = k + d := ⟨n - k, by omega⟩
    rw [Nat.add_sub_cancel_left] at hge
    have hd : 0 < d := by omega
    -- the shares after `k` would need more than the pieces have
    have hmul : (k + d) * len ≤ (k + d) * (len * k / (k + d)) + (k + d) * (d * mp) := by
      rw [← Nat.mul_add]
      exact Nat.mul_le_mul_left _ (not_lt.mp hge)
    have hrest : d * len ≤ d * ((k + d) * mp) := by nlinarith
    exact absurd (Nat.le_of_mul_le_mul_left hrest hd) hspare.not_ge
  omega

/-- A split that no trough decides is within the radius of its share when the one before is. -/
theorem splitAt_near {k cur : ℕ} (hn : 0 < n) (hk : k + 1 < n) (hspare : n * mp < stop - start)
    (hmp : mp ≤ (stop - start) / n)
    (hnone : troughSplit probs tt (cur + mp) (stop - (n - (k + 1)) * mp - 1)
      (share start stop n (k + 1)) = none)
    (hroom : cur + mp + (n - (k + 1)) * mp ≤ stop) (hcur : cur ≤ share start stop n k + r) :
    share start stop n (k + 1) ≤ splitAt probs r tt start stop n mp (k + 1) cur + r ∧
      splitAt probs r tt start stop n mp (k + 1) cur ≤ share start stop n (k + 1) + r := by
  have hshare := (@share_succ start stop n hn k).1
  have hafter := @share_room start stop n mp hn hspare (k + 1) hk
  rw [splitAt, show start + (stop - start) * (k + 1) / n = share start stop n (k + 1) from rfl, hnone]
  generalize (n - (k + 1)) * mp = after at hroom hafter ⊢
  dsimp only
  split
  case isTrue hle =>
    have hlen := @slice_length_le P probs
      (max (share start stop n (k + 1) - r) (cur + mp))
      (min (share start stop n (k + 1) + r) (stop - after - 1))
    have harg := argmin_le (slice probs
      (max (share start stop n (k + 1) - r) (cur + mp))
      (min (share start stop n (k + 1) + r) (stop - after - 1)))
    omega
  case isFalse => omega

/-- No trough decides a split of the run. -/
def NoTrough (probs : List P) (tt : Option P) (start stop : ℕ) : Prop :=
  ∀ lo hi target, start ≤ lo → hi < stop → troughSplit probs tt lo hi target = none

/-- The pieces are no longer than a share and twice the radius: each split is within the radius
    of its share. -/
theorem pieces_le {limit : ℕ} (hn : 0 < n) (hspare : n * mp < stop - start) (hpos : 0 < mp)
    (hmp : mp ≤ (stop - start) / n) (hlimit : stop - start ≤ n * limit)
    (hnone : NoTrough probs tt start stop) (left : ℕ) {cur : ℕ} (hleft : left < n)
    (hstart : start ≤ cur) (hroom : cur + (left + 1) * mp ≤ stop)
    (hlo : share start stop n (n - (left + 1)) ≤ cur + r)
    (hhi : cur ≤ share start stop n (n - (left + 1)) + r) :
    ∀ p ∈ pieces probs r tt start stop n mp left cur, p.2 - p.1 ≤ limit + 2 * r := by
  induction left generalizing cur with
  | zero =>
    have hlast := (@share_succ start stop n hn (n - 1)).2 limit hlimit
    rw [Nat.sub_add_cancel hn, share_last hn (by omega)] at hlast
    rw [pieces, if_pos (by omega)]
    simp only [List.mem_singleton, forall_eq]
    rw [Nat.zero_add] at hlo
    omega
  | succ left ih =>
    obtain ⟨k, hk⟩ : ∃ k, n = k + (left + 2) := ⟨n - (left + 2), by omega⟩
    have hprev : n - (left + 1 + 1) = k := by omega
    have hthis : n - (left + 1) = k + 1 := by omega
    have hrest : n - (k + 1) = left + 1 := by omega
    have hafter : 0 < (left + 1) * mp := Nat.mul_pos left.succ_pos hpos
    have hsum : cur + mp + (left + 1) * mp ≤ stop := by
      calc cur + mp + (left + 1) * mp = cur + (left + 1 + 1) * mp := by ring
        _ ≤ stop := hroom
    rw [hprev] at hlo hhi
    obtain ⟨hnearLo, hnearHi⟩ := @splitAt_near P _ probs r tt start stop n mp k cur hn (by omega)
      hspare hmp (hnone _ _ _ (by omega) (by omega)) (hrest.symm ▸ hsum) hhi
    obtain ⟨hmin, hfit⟩ := @splitAt_legal P _ probs r tt start stop n mp (k + 1) cur
      (hrest.symm ▸ hsum)
    rw [hrest] at hfit
    have hshare := (@share_succ start stop n hn k).2 limit hlimit
    rw [pieces, hthis, if_pos ⟨by omega, by omega⟩]
    refine List.forall_mem_cons.mpr ⟨?_, ih (by omega) (by omega) hfit ?_ ?_⟩
    · show splitAt probs r tt start stop n mp (k + 1) cur - cur ≤ limit + 2 * r
      omega
    · rw [hthis]
      exact hnearLo
    · rw [hthis]
      exact hnearHi

/-! ### Runs -/

variable {limit : ℕ} {seg : ℕ × ℕ}

/-- The number of pieces of a long run and the least length of one. -/
theorem piece_count (hlimit : 0 < limit) {len : ℕ} (hlong : limit < len) :
    let n := (len + limit - 1) / limit
    let mp := max (len / (2 * n)) 1
    1 < n ∧ n * mp ≤ len ∧ mp ≤ len / n ∧ len ≤ n * limit := by
  intro n mp
  have hmul : n * limit ≤ len + limit - 1 := Nat.div_mul_le_self _ _
  have hcover : len + limit - 1 < (n + 1) * limit := by
    rw [Nat.mul_comm]
    exact Nat.lt_mul_div_succ _ hlimit
  have hbound : len ≤ n * limit := by
    rw [Nat.add_mul, Nat.one_mul] at hcover
    omega
  have hone : 1 < n := by
    by_contra hle
    have : n * limit ≤ 1 * limit := Nat.mul_le_mul_right _ (not_lt.mp hle)
    omega
  have hcount : n ≤ len := by
    by_contra hlt
    have h1 : (len + 1) * limit ≤ n * limit := Nat.mul_le_mul_right _ (not_le.mp hlt)
    have h2 : len * 1 ≤ len * limit := Nat.mul_le_mul_left _ hlimit
    rw [Nat.add_mul, Nat.one_mul] at h1
    omega
  have hroom : n * mp ≤ len := by
    rcases max_choice (len / (2 * n)) 1 with hmp | hmp
    · have h : 2 * n * (len / (2 * n)) ≤ len := Nat.mul_div_le _ _
      rw [show mp = len / (2 * n) from hmp]
      rw [Nat.mul_assoc] at h
      omega
    · rw [show mp = 1 from hmp, Nat.mul_one]
      exact hcount
  exact ⟨hone, hroom, (Nat.le_div_iff_mul_le (by omega)).mpr (Nat.mul_comm n mp ▸ hroom), hbound⟩

/-- A run is cut in consecutive pieces. -/
theorem splitRun_tiles (hlimit : 0 < limit) (hseg : Proper seg) :
    Tiles seg.1 seg.2 (splitRun probs r tt limit seg) := by
  have hlt : seg.1 < seg.2 := hseg
  rw [splitRun]
  split
  case isTrue => exact .singleton hseg
  case isFalse hlong =>
    obtain ⟨hone, hroom, -⟩ := piece_count hlimit (not_le.mp hlong)
    refine pieces_tiles (Nat.lt_of_lt_of_le Nat.one_pos (le_max_right _ _)) _ (by omega) ?_
    rw [Nat.sub_add_cancel (by omega)]
    omega

/-- A piece is no longer than the limit and twice the radius, unless a trough decides. -/
theorem splitRun_le (hlimit : 0 < limit) (hnone : limit = 1 ∨ NoTrough probs tt seg.1 seg.2) :
    ∀ p ∈ splitRun probs r tt limit seg, p.2 - p.1 ≤ limit + 2 * r := by
  rw [splitRun]
  split
  case isTrue hshort =>
    simp only [List.mem_singleton, forall_eq]
    omega
  case isFalse hlong =>
    obtain ⟨hone, hroom, hmean, hbound⟩ := piece_count hlimit (not_le.mp hlong)
    dsimp only
    generalize (seg.2 - seg.1 + limit - 1) / limit = n at *
    have hpos : 0 < max ((seg.2 - seg.1) / (2 * n)) 1 :=
      Nat.lt_of_lt_of_le Nat.one_pos (le_max_right _ _)
    generalize hmp : max ((seg.2 - seg.1) / (2 * n)) 1 = mp at *
    rcases hroom.eq_or_lt with hexact | hspare
    · -- no room to spare: every piece has the least length
      intro p hp
      rw [@pieces_exact P _ probs r tt seg.1 seg.2 n mp hpos (n - 1) seg.1 (by omega)
        (by rw [Nat.sub_add_cancel (by omega)]; omega) p hp]
      have hle : n * mp ≤ n * limit := hexact.le.trans hbound
      have := Nat.le_of_mul_le_mul_left hle (by omega)
      omega
    · have hno : NoTrough probs tt seg.1 seg.2 := by
        rcases hnone with rfl | hno
        · -- pieces of one frame leave no room
          exfalso
          have h1 : n * 1 ≤ n * mp := Nat.mul_le_mul_left _ hpos
          omega
        · exact hno
      refine pieces_le (by omega) hspare hpos hmean hbound hno (n - 1) (by omega) le_rfl ?_ ?_ ?_
      · rw [Nat.sub_add_cancel (by omega)]
        omega
      all_goals
        rw [Nat.sub_add_cancel (by omega), Nat.sub_self, share, Nat.mul_zero, Nat.zero_div]
        omega

/-- Every run is cut in consecutive pieces, in order. -/
theorem splitLongRuns_tiles {segments : List (ℕ × ℕ)} (hsegments : ∀ s ∈ segments, Proper s)
    (r : ℕ) (tt : Option P) (limit : ℕ) :
    ∃ cut : ℕ × ℕ → List (ℕ × ℕ), splitLongRuns probs segments r tt limit = segments.flatMap cut ∧
      ∀ s ∈ segments, Tiles s.1 s.2 (cut s) := by
  rw [splitLongRuns]
  split
  case isTrue =>
    refine ⟨fun s => [s], ?_, fun s hs => .singleton (hsegments s hs)⟩
    rw [List.flatMap_singleton']
  case isFalse hne =>
    exact ⟨_, rfl, fun s hs => splitRun_tiles (Nat.pos_of_ne_zero hne) (hsegments s hs)⟩

theorem splitLongRuns_le {segments : List (ℕ × ℕ)} (hlimit : 0 < limit)
    (hnone : ∀ s ∈ segments, limit = 1 ∨ NoTrough probs tt s.1 s.2) :
    ∀ p ∈ splitLongRuns probs segments r tt limit, p.2 - p.1 ≤ limit + 2 * r := by
  rw [splitLongRuns, if_neg hlimit.ne']
  intro p hp
  obtain ⟨s, hs, hp⟩ := List.mem_flatMap.mp hp
  exact splitRun_le hlimit (hnone s hs) p hp

theorem noTrough_none (start stop : ℕ) : NoTrough probs none start stop := fun _ _ _ _ _ => rfl

/-- No trough is in a run whose frames are all at or above the trough threshold. -/
theorem noTrough_of_le {t : P} {start stop : ℕ}
    (hrun : ∀ j, start ≤ j → j < stop → ∀ p, probs[j]? = some p → t ≤ p) :
    NoTrough probs (some t) start stop := by
  intro lo hi target hlo hhi
  cases hsplit : troughSplit probs (some t) lo hi target with
  | none => rfl
  | some s =>
    obtain ⟨hs, hle, t', heq, p, hp, hlt⟩ := troughSplit_mem hsplit
    obtain rfl := Option.some.inj heq
    exact absurd (hrun s (hlo.trans hs) (hle.trans_lt hhi) p hp) hlt.not_ge

end SplitLongRuns

/-! ## Packing -/

/-- The chunk of a group of segments: from the start of the first to the end of the last. -/
def hull : List (ℕ × ℕ) → ℕ × ℕ
  | [] => (0, 0)
  | seg :: group => (seg.1, (group.getLastD seg).2)

theorem hull_append {group : List (ℕ × ℕ)} (hne : group ≠ []) (seg : ℕ × ℕ) :
    hull (group ++ [seg]) = ((hull group).1, seg.2) := by
  cases group with
  | nil => exact absurd rfl hne
  | cons first group => simp [hull]

section Pack

variable (minProbs maxProbs strictLimit : ℕ)

theorem packFrom_groups (segments group : List (ℕ × ℕ)) (hne : group ≠ []) :
    ∃ groups : List (List (ℕ × ℕ)), groups.flatten = group ++ segments ∧ (∀ g ∈ groups, g ≠ []) ∧
      packFrom minProbs maxProbs strictLimit (hull group) segments = groups.map hull := by
  induction segments generalizing group with
  | nil => exact ⟨[group], by simp, by simpa using hne, rfl⟩
  | cons seg segments ih =>
    rw [packFrom]
    split
    · obtain ⟨groups, hflat, hnes, hpack⟩ := ih [seg] (List.cons_ne_nil _ _)
      refine ⟨group :: groups, ?_, List.forall_mem_cons.mpr ⟨hne, hnes⟩, ?_⟩
      · rw [List.flatten_cons, hflat, List.singleton_append]
      · rw [List.map_cons, ← hpack]
        rfl
    · obtain ⟨groups, hflat, hnes, hpack⟩ := ih (group ++ [seg]) (by simp)
      refine ⟨groups, ?_, hnes, ?_⟩
      · rw [hflat, List.append_assoc, List.singleton_append]
      · rw [← hpack, hull_append hne]

/-- Packing keeps the order and drops no segment: the chunks are the hulls of consecutive groups. -/
theorem packSegments_groups (segments : List (ℕ × ℕ)) :
    ∃ groups : List (List (ℕ × ℕ)), groups.flatten = segments ∧ (∀ g ∈ groups, g ≠ []) ∧
      packSegments minProbs maxProbs strictLimit segments = groups.map hull := by
  cases segments with
  | nil => exact ⟨[], rfl, by simp, rfl⟩
  | cons seg segments =>
    obtain ⟨groups, hflat, hne, hpack⟩ :=
      packFrom_groups minProbs maxProbs strictLimit segments [seg] (List.cons_ne_nil _ _)
    exact ⟨groups, hflat, hne, hpack⟩

variable {minProbs maxProbs strictLimit}

/-- Segments are joined within the hard limit only. -/
theorem packFrom_le {bound : ℕ} (hmax : maxProbs ≤ bound) (hstrict : strictLimit ≤ bound)
    {cur : ℕ × ℕ} {segments : List (ℕ × ℕ)} (h : ∀ s ∈ cur :: segments, s.2 - s.1 ≤ bound) :
    ∀ c ∈ packFrom minProbs maxProbs strictLimit cur segments, c.2 - c.1 ≤ bound := by
  induction segments generalizing cur with
  | nil => exact h
  | cons seg segments ih =>
    obtain ⟨hcur, hrest⟩ := List.forall_mem_cons.mp h
    rw [packFrom]
    split
    · exact List.forall_mem_cons.mpr ⟨hcur, ih hrest⟩
    · refine ih (List.forall_mem_cons.mpr ⟨?_, fun s hs => hrest s (List.mem_cons_of_mem _ hs)⟩)
      show seg.2 - cur.1 ≤ bound
      omega

theorem packSegments_le {bound : ℕ} (hmax : maxProbs ≤ bound) (hstrict : strictLimit ≤ bound)
    {segments : List (ℕ × ℕ)} (h : ∀ s ∈ segments, s.2 - s.1 ≤ bound) :
    ∀ c ∈ packSegments minProbs maxProbs strictLimit segments, c.2 - c.1 ≤ bound := by
  cases segments with
  | nil => exact h
  | cons seg segments => exact packFrom_le hmax hstrict h

end Pack

/-! ## Decode windows -/

section PostProcess

variable {P D : Type*} {opts : ChunkerOpts P D} {strict maxSample : ℕ}

theorem mem_audioChunks {prev : Option (ℕ × ℕ)} {chunks : List (ℕ × ℕ)} {a : AudioChunk}
    (ha : a ∈ audioChunks opts strict maxSample prev chunks) :
    ∃ prev, ∃ c ∈ chunks, ∃ next, audioChunk opts strict maxSample prev c next = some a := by
  induction chunks generalizing prev with
  | nil => exact absurd ha List.not_mem_nil
  | cons c chunks ih =>
    rw [audioChunks] at ha
    rcases List.mem_append.mp ha with ha | ha
    · exact ⟨prev, c, List.mem_cons_self, _, Option.mem_toList.mp ha⟩
    · obtain ⟨prev, d, hd, next, heq⟩ := ih ha
      exact ⟨prev, d, List.mem_cons_of_mem _ hd, next, heq⟩

/-- The fields of a chunk that is emitted. -/
theorem audioChunk_eq {prev next : Option (ℕ × ℕ)} {c : ℕ × ℕ} {a : AudioChunk}
    (ha : audioChunk opts strict maxSample prev c next = some a) :
    a.startSample = coreStartAdj opts strict maxSample prev c ∧
    a.endSample = coreEnd opts maxSample c ∧ a.startSample < a.endSample ∧
    a.decodeStartSample = (a.startSample - padLeft opts strict maxSample prev c) / opts.alignTo *
      opts.alignTo ∧
    a.decodeEndSample = min ((min (a.endSample + padRight opts strict maxSample c next) maxSample +
      opts.alignTo - 1) / opts.alignTo * opts.alignTo) maxSample := by
  rw [audioChunk] at ha
  split at ha
  case isTrue => cases ha
  case isFalse hcore =>
    dsimp only at ha
    split at ha
    case isTrue => cases ha
    case isFalse =>
      obtain rfl := Option.some.inj ha
      exact ⟨rfl, rfl, not_le.mp hcore, rfl, rfl⟩

theorem padLeft_le (prev : Option (ℕ × ℕ)) (c : ℕ × ℕ) :
    padLeft opts strict maxSample prev c ≤ opts.padSamples := by
  cases prev <;> exact min_le_left _ _

theorem padRight_le (c : ℕ × ℕ) (next : Option (ℕ × ℕ)) :
    padRight opts strict maxSample c next ≤ opts.padSamples := by
  cases next <;> exact min_le_left _ _

/-- The pre-roll keeps a core within its own length and the hard limit. -/
theorem core_le {bound limit : ℕ} (hstrict : strict = limit * opts.samplesPerProb)
    (hlimit : limit ≤ bound) (prev : Option (ℕ × ℕ)) {c : ℕ × ℕ} (hc : c.2 - c.1 ≤ bound) :
    coreEnd opts maxSample c - coreStartAdj opts strict maxSample prev c ≤
      bound * opts.samplesPerProb := by
  have hlen : c.2 * opts.samplesPerProb - c.1 * opts.samplesPerProb ≤
      bound * opts.samplesPerProb := by
    rw [← Nat.sub_mul]
    exact Nat.mul_le_mul_right _ hc
  have hle : strict ≤ bound * opts.samplesPerProb := hstrict ▸ Nat.mul_le_mul_right _ hlimit
  have hend : coreEnd opts maxSample c ≤ c.2 * opts.samplesPerProb := min_le_left _ _
  simp only [coreStartAdj]
  generalize coreEnd opts maxSample c = stop at *
  omega

/-- Alignment moves either end of a window outward, by less than a step. -/
theorem align_window {align : ℕ} (halign : 0 < align) (x y : ℕ) :
    x / align * align ≤ x ∧ x < x / align * align + align ∧
      y ≤ (y + align - 1) / align * align ∧ (y + align - 1) / align * align < y + align := by
  have h1 := Nat.lt_div_mul_add halign (a := x)
  have h2 := Nat.lt_div_mul_add halign (a := y + align - 1)
  have h3 : x / align * align ≤ x := Nat.div_mul_le_self _ _
  have h4 : (y + align - 1) / align * align ≤ y + align - 1 := Nat.div_mul_le_self _ _
  omega

/-- A window contains its core and is inside the audio. -/
theorem audioChunk_window (halign : 0 < opts.alignTo) {prev next : Option (ℕ × ℕ)} {c : ℕ × ℕ}
    {a : AudioChunk} (ha : audioChunk opts strict maxSample prev c next = some a) :
    a.decodeStartSample ≤ a.startSample ∧ a.endSample ≤ a.decodeEndSample ∧
      a.decodeEndSample ≤ maxSample := by
  obtain ⟨-, hend, -, hdstart, hdend⟩ := audioChunk_eq ha
  have hlast : a.endSample ≤ maxSample := hend ▸ min_le_right _ _
  obtain ⟨hfloor, -, hceil, -⟩ := align_window halign
    (a.startSample - padLeft opts strict maxSample prev c)
    (min (a.endSample + padRight opts strict maxSample c next) maxSample)
  rw [hdstart, hdend]
  omega

/-- A chunk is emitted for every core that is not empty in the audio. -/
theorem exists_audioChunk (halign : 0 < opts.alignTo) {prev : Option (ℕ × ℕ)} {c : ℕ × ℕ}
    (next : Option (ℕ × ℕ))
    (hcore : coreStartAdj opts strict maxSample prev c < coreEnd opts maxSample c) :
    ∃ a, audioChunk opts strict maxSample prev c next = some a := by
  have hlast : coreEnd opts maxSample c ≤ maxSample := min_le_right _ _
  obtain ⟨hfloor, -, hceil, -⟩ := align_window halign
    (coreStartAdj opts strict maxSample prev c - padLeft opts strict maxSample prev c)
    (min (coreEnd opts maxSample c + padRight opts strict maxSample c next) maxSample)
  rw [audioChunk, if_neg hcore.not_ge]
  dsimp only
  rw [if_neg (by omega)]
  exact ⟨_, rfl⟩

theorem decodeLen_le {bound limit : ℕ} (halign : 0 < opts.alignTo)
    (hstrict : strict = limit * opts.samplesPerProb) (hlimit : limit ≤ bound)
    {prev next : Option (ℕ × ℕ)} {c : ℕ × ℕ} (hc : c.2 - c.1 ≤ bound) {a : AudioChunk}
    (ha : audioChunk opts strict maxSample prev c next = some a) :
    a.decodeLen ≤ bound * opts.samplesPerProb + 2 * opts.padSamples + 2 * opts.alignTo := by
  obtain ⟨hstart, hend, hlt, hdstart, hdend⟩ := audioChunk_eq ha
  have hcore := @core_le P D opts strict maxSample bound limit hstrict hlimit prev c hc
  rw [← hstart, ← hend] at hcore
  have hleft := @padLeft_le P D opts strict maxSample prev c
  have hright := @padRight_le P D opts strict maxSample c next
  obtain ⟨-, hfloor, -, hceil⟩ := align_window halign
    (a.startSample - padLeft opts strict maxSample prev c)
    (min (a.endSample + padRight opts strict maxSample c next) maxSample)
  rw [AudioChunk.decodeLen, hdstart, hdend]
  omega

end PostProcess

end Svod.Arch.Vad
