/-
  Svod.Arch.CtcSound

  Greedy CTC decoding does not depend on how the labels are cut into runs, and
  gives the runs of the sequence without the blanks; the path from the logits
  emits what the path from the labels does.

  `emitted prev labels` is what a loop emits after the label `prev`; each of the
  three loops (`collapse`, `destutter` and the loop over the frames) is brought
  to it.
-/

import Svod.Arch.Ctc

namespace Svod.Arch.Ctc

namespace GreedyDecoder

variable (d : GreedyDecoder)

/-! ## What a loop emits -/

/-- The emissions of labels with their positions after the label `prev`. -/
def emitted (prev : ℕ) : List (ℕ × ℕ) → List (ℕ × ℕ)
  | [] => []
  | label :: labels =>
    if label.1 < d.blankId ∧ label.1 ≠ prev then label :: emitted label.1 labels
    else emitted label.1 labels

/-- The label before what follows `labels`. -/
def carried (prev : ℕ) (labels : List (ℕ × ℕ)) : ℕ := (labels.map Prod.fst).getLastD prev

theorem carried_cons (prev : ℕ) (label : ℕ × ℕ) (labels : List (ℕ × ℕ)) :
    carried prev (label :: labels) = carried label.1 labels := by
  rw [carried, carried, List.map_cons, List.getLastD_cons]

theorem carried_append (prev : ℕ) (front back : List (ℕ × ℕ)) :
    carried prev (front ++ back) = carried (carried prev front) back := by
  induction front generalizing prev with
  | nil => rfl
  | cons label front ih => rw [List.cons_append, carried_cons, carried_cons, ih]

theorem emitted_append (prev : ℕ) (front back : List (ℕ × ℕ)) :
    d.emitted prev (front ++ back) =
      d.emitted prev front ++ d.emitted (carried prev front) back := by
  induction front generalizing prev with
  | nil => rfl
  | cons label front ih =>
    rw [List.cons_append, emitted, emitted, carried_cons, ih]
    split
    · rw [List.cons_append]
    · rfl

/-- Without tokens nothing is emitted. -/
theorem emitted_of_empty (hblank : d.blankId = 0) (prev : ℕ) (labels : List (ℕ × ℕ)) :
    d.emitted prev labels = [] := by
  induction labels generalizing prev with
  | nil => rfl
  | cons label labels ih =>
    rw [emitted, if_neg fun h => Nat.not_lt_zero _ (hblank ▸ h.1), ih]

theorem foldl_collapseStep (labels : List (ℕ × ℕ)) (out : List (ℕ × ℕ)) (prev : ℕ) :
    labels.foldl d.collapseStep (out, prev) =
      (out ++ d.emitted prev labels, carried prev labels) := by
  induction labels generalizing out prev with
  | nil => simp [emitted, carried]
  | cons label labels ih =>
    rw [List.foldl_cons, collapseStep, ih, emitted, carried_cons]
    split
    · rw [List.append_assoc, List.singleton_append]
    · rfl

theorem collapse_eq (labels : List ℕ) (prev : ℕ) :
    d.collapse labels prev = (d.emitted prev labels.zipIdx, carried prev labels.zipIdx) := by
  rw [collapse, foldl_collapseStep, List.nil_append]

theorem carried_zipIdx (prev start : ℕ) (labels : List ℕ) :
    carried prev (labels.zipIdx start) = labels.getLastD prev := by
  rw [carried, List.zipIdx_map_fst]

/-- The positions are counted from `start`. -/
theorem emitted_zipIdx (prev start : ℕ) (labels : List ℕ) :
    d.emitted prev (labels.zipIdx start) =
      (d.emitted prev labels.zipIdx).map fun e => (e.1, start + e.2) := by
  have hshift : ∀ (xs : List (ℕ × ℕ)) (prev : ℕ),
      d.emitted prev (xs.map fun e => (e.1, start + e.2)) =
        (d.emitted prev xs).map fun e => (e.1, start + e.2) := by
    intro xs
    induction xs with
    | nil => intro prev; rfl
    | cons x xs ih =>
      intro prev
      rw [List.map_cons, emitted, emitted]
      split
      · rw [List.map_cons, ih]
      · exact ih x.1
  rw [← hshift]
  congr 1
  refine List.ext_getElem (by simp) fun i h1 h2 => by simp

/-! ## Streaming -/

theorem collapseRuns_eq (start prev : ℕ) (runs : List (List ℕ)) :
    d.collapseRuns start prev runs =
      (d.emitted prev (runs.flatten.zipIdx start), carried prev (runs.flatten.zipIdx start)) := by
  induction runs generalizing start prev with
  | nil => rfl
  | cons run runs ih =>
    have hcarried : carried prev run.zipIdx = carried prev (run.zipIdx start) := by
      rw [carried_zipIdx, carried_zipIdx]
    simp only [collapseRuns, collapse_eq, ih]
    rw [List.flatten_cons, List.zipIdx_append, emitted_append, carried_append, hcarried,
      d.emitted_zipIdx prev start run]

/-- Feeding the runs one after the other is one call on all of them. -/
theorem collapseRuns_flatten (prev : ℕ) (runs : List (List ℕ)) :
    d.collapseRuns 0 prev runs = d.collapse runs.flatten prev := by
  rw [collapseRuns_eq, collapse_eq]

/-! ## Runs collapsed and blanks removed -/

theorem filter_token {e : ℕ × ℕ} (htoken : e.1 < d.blankId) :
    [e].filter (fun e => e.1 < d.blankId) = [e] :=
  List.filter_cons_of_pos (decide_eq_true htoken)

theorem filter_blank {e : ℕ × ℕ} (hblank : ¬ e.1 < d.blankId) :
    [e].filter (fun e => e.1 < d.blankId) = [] :=
  List.filter_cons_of_neg (by simpa using hblank)

/-- Destuttering from `first` keeps it and, past the blanks, what is emitted after it. -/
theorem filter_destutter' (labels : List (ℕ × ℕ)) (first : ℕ × ℕ) :
    (labels.destutter' (fun a b => a.1 ≠ b.1) first).filter (fun e => e.1 < d.blankId) =
      [first].filter (fun e => e.1 < d.blankId) ++ d.emitted first.1 labels := by
  induction labels generalizing first with
  | nil => rw [List.destutter'_nil, emitted, List.append_nil]
  | cons label labels ih =>
    rw [List.destutter'_cons, emitted]
    by_cases heq : first.1 = label.1
    · -- the label continues the run of `first`
      rw [if_neg (not_not.mpr heq), if_neg fun h => h.2 heq.symm, ih, heq]
    · rw [if_pos heq, ← List.singleton_append, List.filter_append, ih]
      by_cases htoken : label.1 < d.blankId
      · rw [if_pos ⟨htoken, Ne.symm heq⟩, d.filter_token htoken, List.singleton_append]
      · rw [if_neg fun h => htoken h.1, d.filter_blank htoken, List.nil_append]

/-- From the blank, a stream emits its runs without the blanks. -/
theorem collapse_eq_runStarts (labels : List ℕ) :
    (d.collapse labels d.blankId).1 = (runStarts labels).filter fun e => e.1 < d.blankId := by
  rw [collapse_eq, runStarts]
  cases labels.zipIdx with
  | nil => rfl
  | cons first labels =>
    rw [List.destutter_cons', filter_destutter', emitted]
    by_cases htoken : first.1 < d.blankId
    · rw [if_pos ⟨htoken, htoken.ne⟩, d.filter_token htoken, List.singleton_append]
    · rw [if_neg fun h => htoken h.1, d.filter_blank htoken, List.nil_append]

/-- Where every label is a token or the blank, only the blank is removed. -/
theorem filter_runStarts {labels : List ℕ} (hlabels : ∀ l ∈ labels, l ≤ d.blankId) :
    (runStarts labels).filter (fun e => e.1 < d.blankId) =
      (runStarts labels).filter fun e => e.1 ≠ d.blankId := by
  refine List.filter_congr fun e he => ?_
  have hmem : e ∈ labels.zipIdx := (List.destutter_sublist _ _).subset he
  have hle := hlabels e.1 (List.fst_mem_of_mem_zipIdx hmem)
  exact decide_eq_decide.mpr ⟨Nat.ne_of_lt, hle.lt_of_ne⟩

/-! ## The path from the logits -/

section Logits

variable {F : Type*} (ops : FloatOps F) (logProbs : List F)

theorem frameLabel_le {t k : ℕ} (h : d.frameLabel ops logProbs t = some k) : k ≤ d.blankId := by
  obtain ⟨frame, hframe, rfl⟩ := Option.map_eq_some_iff.mp h
  rw [slice] at hframe
  split at hframe
  case isFalse => cases hframe
  case isTrue hroom =>
    obtain rfl := Option.some.inj hframe
    have hlen : ((logProbs.drop (t * d.totalVocab)).take d.totalVocab).length = d.totalVocab := by
      rw [List.length_take, List.length_drop]
      omega
    have hpos : 0 < d.totalVocab := Nat.succ_pos _
    have hlt := argmaxNanSafe_lt ops (hlen ▸ hpos)
    rw [hlen] at hlt
    exact Nat.le_of_lt_succ hlt

/-- The text after the emissions of a loop. -/
def pushText (text : String) (out : List (ℕ × ℕ)) : String :=
  out.foldl (fun s e => s ++ d.vocabulary.getD e.1 "") text

theorem pushText_eq (out : List (ℕ × ℕ)) : d.pushText "" out = d.text (out.map Prod.fst) := by
  rw [pushText, text, String.join, List.map_map, List.foldl_map]
  rfl

variable {ops logProbs}

theorem mapM_cons_some {f : ℕ → Option ℕ} {t : ℕ} {ts labels : List ℕ}
    (h : (t :: ts).mapM f = some labels) :
    ∃ k rest, f t = some k ∧ ts.mapM f = some rest ∧ labels = k :: rest := by
  rw [List.mapM_cons] at h
  obtain ⟨k, hk, h⟩ := Option.bind_eq_some_iff.mp h
  obtain ⟨rest, hrest, h⟩ := Option.bind_eq_some_iff.mp h
  exact ⟨k, rest, hk, hrest, (Option.some.inj h).symm⟩

/-- The loop over the frames `ts` emits what their labels emit. -/
theorem foldlM_decodeStep (keepFrames : Bool) {ts labels : List ℕ}
    (hlabels : ts.mapM (d.frameLabel ops logProbs) = some labels) (prev : ℕ) (text : String)
    (frames : List ℕ) :
    ts.foldlM (d.decodeStep ops logProbs keepFrames) (prev, text, frames) =
      some (carried prev (labels.zip ts), d.pushText text (d.emitted prev (labels.zip ts)),
        if keepFrames then frames ++ (d.emitted prev (labels.zip ts)).map Prod.snd
        else frames) := by
  induction ts generalizing labels prev text frames with
  | nil =>
    obtain rfl := Option.some.inj hlabels
    cases keepFrames <;> simp [emitted, carried, pushText]
  | cons t ts ih =>
    obtain ⟨k, rest, hk, hrest, rfl⟩ := mapM_cons_some hlabels
    have hle := d.frameLabel_le ops logProbs hk
    rw [List.zip_cons_cons, carried_cons]
    simp only [List.foldlM_cons, decodeStep, hk, Option.bind_eq_bind, Option.bind_some]
    by_cases hemit : k ≠ d.blankId ∧ k ≠ prev
    · have hlt : k < d.blankId := hle.lt_of_ne hemit.1
      have hget : d.vocabulary[k]? = some (d.vocabulary.getD k "") := by
        rw [List.getD_eq_getElem?_getD, List.getElem?_eq_getElem hlt, Option.getD_some]
      have hout : d.emitted prev ((k, t) :: rest.zip ts) = (k, t) :: d.emitted k (rest.zip ts) :=
        if_pos ⟨hlt, hemit.2⟩
      rw [if_pos hemit, hget, Option.bind_some, Option.bind_some, ih hrest, hout]
      cases keepFrames <;> simp [pushText]
    · have hout : d.emitted prev ((k, t) :: rest.zip ts) = d.emitted k (rest.zip ts) :=
        if_neg fun h => hemit ⟨h.1.ne, h.2⟩
      rw [if_neg hemit, Option.bind_some, ih hrest, hout]

theorem length_of_mapM {ts labels : List ℕ}
    (hlabels : ts.mapM (d.frameLabel ops logProbs) = some labels) :
    labels.length = ts.length := by
  induction ts generalizing labels with
  | nil =>
    obtain rfl := Option.some.inj hlabels
    rfl
  | cons t ts ih =>
    obtain ⟨k, rest, -, hrest, rfl⟩ := mapM_cons_some hlabels
    rw [List.length_cons, List.length_cons, ih hrest]

/-- A slab that holds the frames has their labels, tokens or the blank. -/
theorem mapM_frameLabel {ts : List ℕ}
    (hroom : ∀ t ∈ ts, t * d.totalVocab + d.totalVocab ≤ logProbs.length) :
    ∃ labels, ts.mapM (d.frameLabel ops logProbs) = some labels ∧ ∀ l ∈ labels, l ≤ d.blankId := by
  induction ts with
  | nil => exact ⟨[], rfl, by simp⟩
  | cons t ts ih =>
    obtain ⟨rest, hrest, hle⟩ := ih fun u hu => hroom u (List.mem_cons_of_mem _ hu)
    have hk : d.frameLabel ops logProbs t = some (argmaxNanSafe ops
        ((logProbs.drop (t * d.totalVocab)).take d.totalVocab)) := by
      rw [frameLabel, slice, if_pos (hroom t List.mem_cons_self), Option.map_some]
    refine ⟨_ :: rest, ?_, List.forall_mem_cons.mpr ⟨d.frameLabel_le ops logProbs hk, hle⟩⟩
    rw [List.mapM_cons, hk, hrest]
    rfl

/-- The two paths: what the labels of the frames emit is the text and the frames of the logits. -/
theorem decodeInner_of_labels {strideFrames validFrames : ℕ} {labels : List ℕ}
    (hlabels : d.argmaxPerFrame ops logProbs strideFrames validFrames = some labels)
    (keepFrames : Bool) :
    d.decodeInner ops logProbs strideFrames validFrames keepFrames =
      some (d.text ((d.collapse labels d.blankId).1.map Prod.fst),
        if keepFrames then (d.collapse labels d.blankId).1.map Prod.snd else []) := by
  have hzip : labels.zip (List.range (min strideFrames validFrames)) = labels.zipIdx := by
    rw [List.zipIdx_eq_zip_range', ← List.range_eq_range', d.length_of_mapM hlabels,
      List.length_range]
  rw [decodeInner, collapse_eq]
  split
  case isTrue hempty =>
    -- no token to emit, or no frame
    have hnone : d.emitted d.blankId labels.zipIdx = [] := by
      rcases hempty with hvocab | hvalid
      · have hblank : d.blankId = 0 := by rw [blankId, hvocab, List.length_nil]
        exact d.emitted_of_empty hblank _ _
      · rw [argmaxPerFrame, hvalid, Nat.min_zero] at hlabels
        obtain rfl := Option.some.inj hlabels
        rfl
    rw [hnone]
    cases keepFrames <;> rfl
  case isFalse =>
    rw [d.foldlM_decodeStep keepFrames hlabels, hzip, Option.map_some, pushText_eq,
      List.nil_append]

end Logits

/-! ## Greedy decoding -/

/-- Greedy decoding is streaming: however a sequence is cut, the runs fed one after the other emit
    what one call emits, which is the sequence with its runs collapsed and the blanks removed;
    and the logits of a slab decode to what their argmax labels emit. -/
theorem collapse_streams {F : Type*} (ops : FloatOps F) (logProbs : List F)
    (strideFrames validFrames prev : ℕ) (runs : List (List ℕ)) (labels : List ℕ) :
    d.collapseRuns 0 prev runs = d.collapse runs.flatten prev ∧
    (d.collapse labels d.blankId).1 = (runStarts labels).filter (fun e => e.1 < d.blankId) ∧
    ((∀ l ∈ labels, l ≤ d.blankId) →
      (d.collapse labels d.blankId).1 = (runStarts labels).filter fun e => e.1 ≠ d.blankId) ∧
    (min strideFrames validFrames * d.totalVocab ≤ logProbs.length →
      ∃ argmax, d.argmaxPerFrame ops logProbs strideFrames validFrames = some argmax ∧
        (∀ l ∈ argmax, l ≤ d.blankId) ∧
        d.decodeWithTimestamps ops logProbs strideFrames validFrames =
          some (d.text ((d.collapse argmax d.blankId).1.map Prod.fst),
            (d.collapse argmax d.blankId).1.map Prod.snd) ∧
        d.decode ops logProbs strideFrames validFrames =
          some (d.text ((d.collapse argmax d.blankId).1.map Prod.fst))) := by
  refine ⟨d.collapseRuns_flatten prev runs, d.collapse_eq_runStarts labels, fun hlabels => ?_,
    fun hroom => ?_⟩
  · rw [collapse_eq_runStarts, d.filter_runStarts hlabels]
  · have hframes : ∀ t ∈ List.range (min strideFrames validFrames),
        t * d.totalVocab + d.totalVocab ≤ logProbs.length := fun t ht => by
      rw [← Nat.succ_mul]
      exact (Nat.mul_le_mul_right _ (Nat.succ_le_of_lt (List.mem_range.mp ht))).trans hroom
    obtain ⟨argmax, hargmax, hle⟩ := @mapM_frameLabel d F ops logProbs _ hframes
    refine ⟨argmax, hargmax, hle, d.decodeInner_of_labels hargmax true, ?_⟩
    rw [decode, d.decodeInner_of_labels hargmax false, Option.map_some]

/-- A decoder of two letters. -/
def ab : GreedyDecoder := ⟨["a", "b"]⟩

/-- Integers in place of floats. -/
def intOps : FloatOps ℤ := ⟨fun a b => some (compare a b), fun _ => false⟩

theorem collapse_streams_ab :
    ab.collapseRuns 0 2 [[0, 0], [0, 2], [0]] = ab.collapse [0, 0, 0, 2, 0] 2 ∧
    (ab.collapse [0, 0, 2, 0] 2).1 = (runStarts [0, 0, 2, 0]).filter (fun e => e.1 ≠ 2) ∧
    ∃ argmax, ab.argmaxPerFrame intOps [3, 1, 2, 0, 5, 1] 2 2 = some argmax ∧
      (∀ l ∈ argmax, l ≤ 2) ∧
      ab.decodeWithTimestamps intOps [3, 1, 2, 0, 5, 1] 2 2 =
        some (ab.text ((ab.collapse argmax 2).1.map Prod.fst),
          (ab.collapse argmax 2).1.map Prod.snd) ∧
      ab.decode intOps [3, 1, 2, 0, 5, 1] 2 2 =
        some (ab.text ((ab.collapse argmax 2).1.map Prod.fst)) := by
  have h := ab.collapse_streams intOps [3, 1, 2, 0, 5, 1] 2 2 2 [[0, 0], [0, 2], [0]] [0, 0, 2, 0]
  exact ⟨h.1, h.2.2.1 (by decide), h.2.2.2 (by decide)⟩

end GreedyDecoder

end Svod.Arch.Ctc
