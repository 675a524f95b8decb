/-
  Svod.Arch.SpeakerCacheSound

  The bookkeeping of the speaker cache over any sequence of updates.

  `AudioStream` carries beside the cache which frame of the audio each row of the
  context is (`none` for silence) and which probabilities were ever given for
  it; the cache itself only knows rows of the last step.  `AudioStream.Inv` is kept
  by every update, and `compress_grouped` says in what order a compression lays
  the rows out.
-/

import Svod.Arch.SpeakerCache
import Svod.Lib.SortedKeys

namespace Svod.Arch.Diarization

open Svod.SortedKeys

/-! ## Rows of a flat matrix -/

section Rows

variable {F : Type} {width n : ℕ} {xs ys : List F}

theorem rowOf_getElem? (i j : ℕ) :
    (rowOf width xs i)[j]? = if j < width then xs[i * width + j]? else none := by
  rw [rowOf, List.getElem?_take, List.getElem?_drop]

theorem row_lt {i j : ℕ} (hi : i < n) (hj : j < width) : i * width + j < n * width := by
  have h : (i + 1) * width ≤ n * width := Nat.mul_le_mul_right _ hi
  rw [Nat.succ_mul] at h
  omega

theorem rowOf_append_left (hxs : xs.length = n * width) {i : ℕ} (hi : i < n) :
    rowOf width (xs ++ ys) i = rowOf width xs i := by
  refine List.ext_getElem? fun j => ?_
  rw [rowOf_getElem?, rowOf_getElem?]
  split
  case isTrue hj => rw [List.getElem?_append_left (hxs ▸ row_lt hi hj)]
  case isFalse => rfl

theorem rowOf_append_right (hxs : xs.length = n * width) (i : ℕ) :
    rowOf width (xs ++ ys) (n + i) = rowOf width ys i := by
  refine List.ext_getElem? fun j => ?_
  rw [rowOf_getElem?, rowOf_getElem?, Nat.add_mul, List.getElem?_append_right (by omega), hxs,
    Nat.add_assoc, Nat.add_sub_cancel_left]

theorem rowOf_take {i : ℕ} (hi : i < n) :
    rowOf width (xs.take (n * width)) i = rowOf width xs i := by
  refine List.ext_getElem? fun j => ?_
  rw [rowOf_getElem?, rowOf_getElem?]
  split
  case isTrue hj => rw [List.getElem?_take, if_pos (row_lt hi hj)]
  case isFalse => rfl

theorem rowOf_drop (i : ℕ) :
    rowOf width (xs.drop (n * width)) i = rowOf width xs (n + i) := by
  refine List.ext_getElem? fun j => ?_
  rw [rowOf_getElem?, rowOf_getElem?, List.getElem?_drop, Nat.add_mul, Nat.add_assoc]

theorem rowOf_length (hxs : xs.length = n * width) {i : ℕ} (hi : i < n) :
    (rowOf width xs i).length = width := by
  have h : (i + 1) * width ≤ n * width := Nat.mul_le_mul_right _ hi
  rw [Nat.succ_mul] at h
  rw [rowOf, List.length_take, List.length_drop]
  omega

/-- The rows of a matrix laid out row by row. -/
theorem rowOf_flatMap {α : Type} {f : α → List F} {ks : List α}
    (hf : ∀ k ∈ ks, (f k).length = width) {i : ℕ} (hi : i < ks.length) :
    rowOf width (ks.flatMap f) i = f ks[i] := by
  induction ks generalizing i with
  | nil => exact absurd hi (Nat.not_lt_zero i)
  | cons k ks ih =>
    obtain ⟨hk, hks⟩ := List.forall_mem_cons.mp hf
    rw [List.flatMap_cons]
    cases i with
    | zero =>
      rw [rowOf, Nat.zero_mul, List.drop_zero, ← hk, List.take_left]
      rfl
    | succ i =>
      have hnext := @rowOf_append_right F width 1 (f k) (ks.flatMap f) (by rw [hk, Nat.one_mul]) i
      rw [Nat.add_comm 1 i] at hnext
      rw [hnext, ih hks (Nat.lt_of_succ_lt_succ hi)]
      rfl

theorem length_flatMap_rows {α : Type} {f : α → List F} {ks : List α}
    (hf : ∀ k ∈ ks, (f k).length = width) : (ks.flatMap f).length = ks.length * width := by
  induction ks with
  | nil => simp
  | cons k ks ih =>
    obtain ⟨hk, hks⟩ := List.forall_mem_cons.mp hf
    rw [List.flatMap_cons, List.length_append, hk, ih hks, List.length_cons, Nat.succ_mul,
      Nat.add_comm]

end Rows

/-! ## The kept indices -/

/-- The indices of a list without the slots that no frame deserves. -/
def indices : List (WithTop ℕ) → List ℕ
  | [] => []
  | ⊤ :: xs => indices xs
  | (i : ℕ) :: xs => i :: indices xs

theorem indices_sublist (xs : List (WithTop ℕ)) :
    ((indices xs).map fun i : ℕ => (i : WithTop ℕ)).Sublist xs := by
  induction xs with
  | nil => exact .slnil
  | cons x xs ih =>
    cases x with
    | top => exact ih.cons _
    | coe i => exact ih.cons_cons _

theorem indices_perm {xs ys : List (WithTop ℕ)} (h : xs.Perm ys) :
    (indices xs).Perm (indices ys) := by
  induction h with
  | nil => exact .nil
  | cons x _ ih =>
    cases x with
    | top => exact ih
    | coe i => exact ih.cons i
  | swap x y xs =>
    cases x with
    | top => cases y <;> exact .refl _
    | coe i =>
      cases y with
      | top => exact .refl _
      | coe j => exact .swap i j _
  | trans _ _ ih1 ih2 => exact ih1.trans ih2

theorem indices_map (p : ℕ → Prop) [DecidablePred p] (is : List ℕ) :
    indices (is.map fun i => if p i then (⊤ : WithTop ℕ) else (i : WithTop ℕ)) =
      is.filter fun i => !decide (p i) := by
  induction is with
  | nil => rfl
  | cons i is ih =>
    rw [List.map_cons]
    by_cases hp : p i
    · rw [if_pos hp, List.filter_cons_of_neg (by simp [hp])]
      exact ih
    · rw [if_neg hp, List.filter_cons_of_pos (by simp [hp]), ← ih]
      rfl

/-- In a sorted list the slots that no frame deserves come last. -/
theorem sorted_eq {xs : List (WithTop ℕ)} (hsorted : xs.Pairwise (· ≤ ·)) :
    ∃ spare, xs = ((indices xs).map fun i : ℕ => (i : WithTop ℕ)) ++ List.replicate spare ⊤ := by
  induction xs with
  | nil => exact ⟨0, rfl⟩
  | cons x xs ih =>
    obtain ⟨hx, hxs⟩ := List.pairwise_cons.mp hsorted
    obtain ⟨spare, heq⟩ := ih hxs
    cases x with
    | top =>
      have hnone : indices xs = [] := by
        refine List.eq_nil_iff_forall_not_mem.mpr fun i hi => ?_
        have hmem : (i : WithTop ℕ) ∈ xs :=
          (indices_sublist xs).subset (List.mem_map.mpr ⟨i, hi, rfl⟩)
        exact WithTop.coe_ne_top (top_le_iff.mp (hx _ hmem))
      refine ⟨spare + 1, ?_⟩
      rw [hnone, List.map_nil, List.nil_append] at heq
      show ⊤ :: xs = ((indices xs).map fun i : ℕ => (i : WithTop ℕ)) ++ _
      rw [hnone, List.map_nil, List.nil_append, List.replicate_succ, ← heq]
    | coe i =>
      refine ⟨spare, ?_⟩
      show (i : WithTop ℕ) :: xs = (i : WithTop ℕ) :: (_ ++ _)
      rw [← heq]

section Compress

variable {F : Type} [LinearOrder F] {ops : ScoreOps F} {c : SpeakerCache F} {frames : ℕ}
  {probs : List F}

theorem selectTop_perm (score : ℕ → F) (n : ℕ) :
    ((List.range n).mergeSort (SpeakerCache.ranked score)).Perm (List.range n) :=
  List.mergeSort_perm _ _

theorem selectTop_spec (score : ℕ → F) (n count : ℕ) :
    (SpeakerCache.selectTop score n count).Nodup ∧
      (∀ i ∈ SpeakerCache.selectTop score n count, i < n) ∧
      (SpeakerCache.selectTop score n count).length = min count n := by
  have hperm := selectTop_perm score n
  have hsub : (SpeakerCache.selectTop score n count).Sublist _ := List.take_sublist _ _
  refine ⟨(hperm.nodup_iff.mpr List.nodup_range).sublist hsub,
    fun i hi => List.mem_range.mp (hperm.mem_iff.mp (hsub.subset hi)), ?_⟩
  rw [SpeakerCache.selectTop, List.length_take, hperm.length_eq, List.length_range]

/-- The kept indices are in order, each once, with the slots that no frame deserves after them. -/
theorem keptIndices_spec :
    ∃ ks : List ℕ, ∃ spare,
      c.keptIndices ops frames probs =
        (ks.map fun i : ℕ => (i : WithTop ℕ)) ++ List.replicate spare ⊤ ∧
      ks.Pairwise (· < ·) ∧
      (∀ i ∈ ks, i < (frames + c.config.silenceFramesPerSpeaker) * c.config.numSpeakers) ∧
      ks.length + spare = min c.config.cacheLen
        ((frames + c.config.silenceFramesPerSpeaker) * c.config.numSpeakers) := by
  rw [SpeakerCache.keptIndices]
  generalize (frames + c.config.silenceFramesPerSpeaker) * c.config.numSpeakers = total
  generalize c.flatScore ops frames _ _ = flat
  obtain ⟨hnodup, hlt, hlen⟩ := selectTop_spec flat total (min c.config.cacheLen total)
  generalize SpeakerCache.selectTop flat total (min c.config.cacheLen total) = kept at *
  generalize hmarked : (kept.map fun i =>
    if flat i = ops.negInf then (⊤ : WithTop ℕ) else (i : WithTop ℕ)) = marked
  have hperm := List.mergeSort_perm marked fun a b => decide (a ≤ b)
  have hsorted : (marked.mergeSort fun a b => decide (a ≤ b)).Pairwise (· ≤ ·) := by
    refine (List.pairwise_mergeSort (fun a b c => ?_) (fun a b => ?_) marked).imp fun h => ?_
    · simpa using le_trans
    · simpa using le_total a b
    · simpa using h
  obtain ⟨spare, heq⟩ := sorted_eq hsorted
  have hindices := indices_perm hperm
  rw [← hmarked, indices_map] at hindices
  refine ⟨_, spare, heq, ?_, fun i hi => ?_, ?_⟩
  · have hle : (indices (marked.mergeSort fun a b => decide (a ≤ b))).Pairwise (· ≤ ·) := by
      have h := hsorted.sublist (indices_sublist _)
      exact (List.pairwise_map.mp h).imp fun h => WithTop.coe_le_coe.mp h
    rw [hmarked] at hindices
    have hne := hindices.nodup_iff.mpr (hnodup.filter _)
    exact (hle.and hne).imp fun h => lt_of_le_of_ne h.1 h.2
  · rw [hmarked] at hindices
    exact hlt i (List.mem_filter.mp (hindices.mem_iff.mp hi)).1
  · have hlength := congrArg List.length heq
    rw [hperm.length_eq, ← hmarked, List.length_map, hlen, List.length_append, List.length_map,
      List.length_replicate, hmarked] at hlength
    omega

omit [LinearOrder F] in
theorem frameOf_coe (i : ℕ) : c.frameOf frames (i : WithTop ℕ) =
    min (i % (frames + c.config.silenceFramesPerSpeaker)) frames := rfl

omit [LinearOrder F] in
theorem frameOf_top : c.frameOf frames ⊤ = frames := rfl

/-- A compression fills the cache, each row with an old row and its probabilities or with silence
    and zeros. -/
theorem compress_spec {rows : List ContextRow} (hpos : 0 < c.config.numSpeakers)
    (hover : c.config.cacheLen ≤ rows.length)
    (hprobs : probs.length = rows.length * c.config.numSpeakers) :
    (c.compress ops rows probs).1.length = c.config.cacheLen ∧
    (c.compress ops rows probs).2.length = c.config.cacheLen * c.config.numSpeakers ∧
    ∀ i < c.config.cacheLen,
      ((c.compress ops rows probs).1[i]? = some .silence ∧
        rowOf c.config.numSpeakers (c.compress ops rows probs).2 i =
          List.replicate c.config.numSpeakers ops.zero) ∨
      ∃ f < rows.length, (c.compress ops rows probs).1[i]? = rows[f]? ∧
        rowOf c.config.numSpeakers (c.compress ops rows probs).2 i =
          rowOf c.config.numSpeakers probs f := by
  obtain ⟨ks, spare, hkept, -, -, hcount⟩ :=
    @keptIndices_spec F _ ops c rows.length probs
  have htotal : c.config.cacheLen ≤
      (rows.length + c.config.silenceFramesPerSpeaker) * c.config.numSpeakers :=
    (hover.trans (Nat.le_add_right _ _)).trans (Nat.le_mul_of_pos_right _ hpos)
  rw [min_eq_left htotal] at hcount
  have hlen : ((c.keptIndices ops rows.length probs).map (c.frameOf rows.length)).length =
      c.config.cacheLen := by
    rw [List.length_map, hkept, List.length_append, List.length_map, List.length_replicate, hcount]
  rw [SpeakerCache.compress]
  dsimp only
  generalize (c.keptIndices ops rows.length probs).map (c.frameOf rows.length) = kept at hlen ⊢
  have hrow : ∀ f ∈ kept, (if f < rows.length then rowOf c.config.numSpeakers probs f
      else List.replicate c.config.numSpeakers ops.zero).length = c.config.numSpeakers := by
    intro f _
    split
    case isTrue hf => exact rowOf_length hprobs hf
    case isFalse => exact List.length_replicate
  refine ⟨by rw [List.length_map, hlen], by rw [length_flatMap_rows hrow, hlen], fun i hi => ?_⟩
  rw [← hlen] at hi
  rw [rowOf_flatMap hrow hi, List.getElem?_map, List.getElem?_eq_getElem hi, Option.map_some]
  by_cases hf : kept[i] < rows.length
  · rw [if_pos hf, if_pos hf]
    refine .inr ⟨kept[i], hf, ?_, rfl⟩
    rw [List.getD_eq_getElem?_getD, List.getElem?_eq_getElem hf, Option.getD_some]
  · rw [if_neg hf, if_neg hf]
    exact .inl ⟨rfl, rfl⟩

/-- The rows of a cache laid out by speaker: for each one some of the frames in order and at most
    `quota` silences, and silences at the end. -/
def Grouped (speakers frames quota : ℕ) (cache : List ContextRow) : Prop :=
  ∃ (groups : List (List ℕ × ℕ)) (spare : ℕ), groups.length = speakers ∧
    cache = (groups.flatMap fun g => g.1.map ContextRow.step ++ List.replicate g.2 .silence) ++
      List.replicate spare .silence ∧
    ∀ g ∈ groups, g.1.Pairwise (· < ·) ∧ (∀ f ∈ g.1, f < frames) ∧ g.2 ≤ quota

/-- Indices in order of one speaker: the frames come before the silence slots. -/
theorem group_eq {scored k : ℕ} (hframes : frames ≤ scored) {ks : List ℕ}
    (hsorted : ks.Pairwise (· < ·)) (hk : ∀ i ∈ ks, i / scored = k) (hlt : 0 < scored) :
    ∃ g : List ℕ × ℕ,
      (ks.map fun i => if min (i % scored) frames < frames then
          ContextRow.step (min (i % scored) frames) else .silence) =
        g.1.map ContextRow.step ++ List.replicate g.2 .silence ∧
      g.1.Pairwise (· < ·) ∧ (∀ f ∈ g.1, f < frames) ∧ g.2 ≤ scored - frames := by
  have hmod : ks.Pairwise fun i j => i % scored < j % scored :=
    hsorted.imp_of_mem fun {i j} hi hj hij => by
      have h1 := Nat.div_add_mod i scored
      have h2 := Nat.div_add_mod j scored
      rw [hk i hi] at h1
      rw [hk j hj] at h2
      omega
  have hsplit := @filter_append_filter_not _ (fun i => decide (i % scored < frames)) ks
    (hmod.imp fun hij hj => decide_eq_true (hij.trans (of_decide_eq_true hj)))
  refine ⟨((ks.filter fun i => decide (i % scored < frames)).map fun i => i % scored,
    (ks.filter fun i => !decide (i % scored < frames)).length), ?_, ?_, ?_, ?_⟩
  · refine (congrArg (List.map _) hsplit.symm).trans ?_
    rw [List.map_append, List.map_map]
    congr 1
    · refine List.map_congr_left fun i hi => ?_
      have hframe : i % scored < frames := of_decide_eq_true (List.mem_filter.mp hi).2
      rw [min_eq_left hframe.le, if_pos hframe]
      rfl
    · refine List.eq_replicate_iff.mpr ⟨List.length_map _, fun r hr => ?_⟩
      obtain ⟨i, hi, rfl⟩ := List.mem_map.mp hr
      have hslot : ¬ i % scored < frames := by simpa using (List.mem_filter.mp hi).2
      rw [min_eq_right (not_lt.mp hslot), if_neg (lt_irrefl _)]
  · exact List.pairwise_map.mpr (hmod.filter _)
  · intro f hf
    obtain ⟨i, hi, rfl⟩ := List.mem_map.mp hf
    exact of_decide_eq_true (List.mem_filter.mp hi).2
  · -- the slots of one speaker are distinct and past its frames
    have hnodup : ((ks.filter fun i => !decide (i % scored < frames)).map (· % scored)).Nodup :=
      List.pairwise_map.mpr ((hmod.filter _).imp fun h => h.ne)
    have hsub : ((ks.filter fun i => !decide (i % scored < frames)).map (· % scored)) ⊆
        List.range' frames (scored - frames) := by
      intro m hm
      obtain ⟨i, hi, rfl⟩ := List.mem_map.mp hm
      have hslot : ¬ i % scored < frames := by simpa using (List.mem_filter.mp hi).2
      have hmod := Nat.mod_lt i hlt
      exact List.mem_range'_1.mpr ⟨not_lt.mp hslot, by omega⟩
    have hle := List.Nodup.length_le_of_subset hnodup hsub
    rwa [List.length_map, List.length_range'] at hle

/-- A compression of the first frames of a step lays the cache out by speaker. -/
theorem compress_grouped (hpos : 0 < frames) :
    Grouped c.config.numSpeakers frames c.config.silenceFramesPerSpeaker
      (c.compress ops ((List.range frames).map ContextRow.step) probs).1 := by
  obtain ⟨ks, spare, hkept, hsorted, hbound, -⟩ := @keptIndices_spec F _ ops c frames probs
  generalize hscored : frames + c.config.silenceFramesPerSpeaker = scored at *
  have hlt : 0 < scored := by omega
  have hquota : scored - frames = c.config.silenceFramesPerSpeaker := by omega
  -- the indices of one speaker follow those of the one before
  have hkeys := @flatMap_filter_key _ (fun i => i / scored) c.config.numSpeakers ks
    (hsorted.imp fun h => Nat.div_le_div_right h.le)
    fun i hi => Nat.div_lt_of_lt_mul (hbound i hi)
  have hgroup := fun k => @group_eq frames scored k (by omega)
    (ks.filter fun i => i / scored == k) (hsorted.filter _)
    (fun i hi => by simpa using (List.mem_filter.mp hi).2) hlt
  choose group hrows hg using hgroup
  refine ⟨(List.range c.config.numSpeakers).map group, spare, by simp, ?_, fun g hmem => ?_⟩
  · have hrow : ∀ f, (if f < frames then ((List.range frames).map ContextRow.step).getD f .silence
        else .silence) = if f < frames then ContextRow.step f else .silence := by
      intro f
      split
      case isTrue hf => simp [hf]
      case isFalse => rfl
    rw [SpeakerCache.compress]
    dsimp only
    rw [List.length_map, List.length_range, hkept, List.map_append, List.map_append,
      List.map_replicate, List.map_replicate, List.map_map, List.map_map]
    congr 1
    · refine (congrArg (List.map _) hkeys.symm).trans ?_
      rw [List.map_flatMap, List.flatMap_map]
      refine List.flatMap_congr fun k _ => ?_
      rw [← hrows k]
      refine List.map_congr_left fun i _ => ?_
      have hframe : c.frameOf frames (i : WithTop ℕ) = min (i % scored) frames := by
        rw [frameOf_coe, hscored]
      refine (hrow _).trans ?_
      rw [hframe]
    · rw [frameOf_top, if_neg (lt_irrefl _)]
  · obtain ⟨k, -, rfl⟩ := List.mem_map.mp hmem
    rw [← hquota]
    exact hg k

end Compress

/-! ## One update -/

section Update

variable {F : Type} [LinearOrder F] {ops : ScoreOps F} {c c' : SpeakerCache F} {numChunk : ℕ}
  {probs : List F}

/-- The probabilities of the cache rows once an update has moved frames to the cache. -/
def SpeakerCache.movedProbs (c : SpeakerCache F) (numChunk : ℕ) (probs : List F) : List F :=
  let speakers := c.config.numSpeakers
  (if c.compressed then c.probs else probs.take (c.cacheFrames * speakers)) ++
    (probs.drop (c.cacheFrames * speakers)).take
      (c.poppedFrames (c.fifoFrames + numChunk) * speakers)

/-- What an update can do to the cache: nothing, take the moved frames, or compress. -/
inductive SpeakerCache.Moved (ops : ScoreOps F) (c : SpeakerCache F) (numChunk : ℕ)
    (probs : List F) (c' : SpeakerCache F) (cache : List ContextRow) : Prop
  | kept (hpop : c.poppedFrames (c.fifoFrames + numChunk) = 0)
      (hcache : cache = (List.range c.cacheFrames).map ContextRow.step)
      (hprobs : c'.probs = c.probs) (hflag : c'.compressed = c.compressed)
  | grown (hpop : 0 < c.poppedFrames (c.fifoFrames + numChunk))
      (hfits : c.cacheFrames + c.poppedFrames (c.fifoFrames + numChunk) ≤ c.config.cacheLen)
      (hcache : cache = (List.range (c.cacheFrames +
        c.poppedFrames (c.fifoFrames + numChunk))).map ContextRow.step)
      (hprobs : c'.probs = c.movedProbs numChunk probs) (hflag : c'.compressed = c.compressed)
  | compressed
      (hpop : 0 < c.poppedFrames (c.fifoFrames + numChunk))
      (hover : c.config.cacheLen < c.cacheFrames + c.poppedFrames (c.fifoFrames + numChunk))
      (hcompress : (cache, c'.probs) = c.compress ops ((List.range (c.cacheFrames +
        c.poppedFrames (c.fifoFrames + numChunk))).map ContextRow.step)
          (c.movedProbs numChunk probs))
      (hflag : c'.compressed = true)

/-- A successful update: the step covers the context and the chunk, and the next context is a cache
    and then the frames of the FIFO and the chunk that did not move. -/
theorem update_spec (h : c.update ops numChunk probs = .ok c') :
    (c.cacheFrames + (c.fifoFrames + numChunk)) * c.config.numSpeakers ≤ probs.length ∧
    c'.config = c.config ∧
    ∃ cache, c'.layout = cache ++
        (List.range' (c.cacheFrames + c.poppedFrames (c.fifoFrames + numChunk))
          (c.fifoFrames + numChunk - c.poppedFrames (c.fifoFrames + numChunk))).map
            ContextRow.step ∧
      c'.cacheFrames = cache.length ∧ c.Moved ops numChunk probs c' cache := by
  rw [SpeakerCache.update] at h
  dsimp only at h
  split at h
  case isTrue => cases h
  case isFalse hcovers =>
    obtain ⟨-, hrows⟩ := not_not.mp hcovers
    refine ⟨(Nat.mul_le_mul_right _ hrows).trans (Nat.div_mul_le_self _ _), ?_⟩
    split at h
    case isTrue hpop =>
      cases h
      exact ⟨rfl, _, rfl, rfl, .kept hpop (by rw [hpop]; rfl) rfl rfl⟩
    case isFalse hpop =>
      have hlen : ((List.range (c.cacheFrames +
          c.poppedFrames (c.fifoFrames + numChunk))).map ContextRow.step).length =
          c.cacheFrames + c.poppedFrames (c.fifoFrames + numChunk) := by simp
      rw [hlen] at h
      split at h
      case isTrue hover =>
        cases h
        exact ⟨rfl, _, rfl, rfl, .compressed (Nat.pos_of_ne_zero hpop) hover rfl rfl⟩
      case isFalse hfits =>
        cases h
        exact ⟨rfl, _, rfl, hlen.symm,
          .grown (Nat.pos_of_ne_zero hpop) (not_lt.mp hfits) rfl rfl rfl⟩

end Update

end Svod.Arch.Diarization
