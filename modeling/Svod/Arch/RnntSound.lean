/-
  Svod.Arch.RnntSound

  The transducer decoders agree, lane by lane.

  `Lane` is what one lane carries between two decisions, `Lane.next` one
  decision and `Lane.frame` the decisions at one frame.  Each decoder is read
  through the lanes of its state: one pass of its loop moves every lane it
  looks at by one decision and leaves the others alone.  Label looping is
  followed by `finish`, the lane it will end with, which no pass changes.
-/

import Mathlib.Algebra.Order.BigOperators.Group.Finset
import Mathlib.Tactic.Ring
import Svod.Arch.Rnnt

namespace Svod.Arch.Rnnt

variable {d : RnntDecoder} {σ π F : Type}

@[simp] theorem RnntDecoder.token?_label (k : d.Token) : d.token? (d.label k) = some k := by
  simp [RnntDecoder.token?, RnntDecoder.label]

@[simp] theorem RnntDecoder.token?_blank : d.token? d.blank = none := by
  simp [RnntDecoder.token?, RnntDecoder.blank]

/-! ## A lane on its own -/

/-- The search of a lane, its committed state and the states promoted so far. -/
structure Lane (d : RnntDecoder) (σ : Type) where
  search : Search d
  committed : σ
  commits : List σ

namespace Lane

variable (net : Networks d σ π F) (f : ℕ → F)

def start : Lane d σ := { search := Search.start, committed := net.init, commits := [] }

/-- The label decided at frame `t`. -/
def decide (t : ℕ) (l : Lane d σ) : d.Label :=
  net.joint (f t) (net.predict l.committed l.search.prev).2

/-- One decision at frame `t`: `none` on a blank. -/
def next (t : ℕ) (l : Lane d σ) : Option (Lane d σ) :=
  (d.token? (l.decide net f t)).map fun k =>
    let state := (net.predict l.committed l.search.prev).1
    { search := l.search.emit t k true, committed := state, commits := l.commits ++ [state] }

/-- The decisions at frame `t`, at most `n` of them. -/
def frame (t : ℕ) : ℕ → Lane d σ → Lane d σ
  | 0, l => l
  | n + 1, l =>
    match l.next net f t with
    | none => l
    | some l => l.frame t n

/-- `k` frames from frame `t` on, with at most `m` symbols each. -/
def run (m : ℕ) : ℕ → ℕ → Lane d σ → Lane d σ
  | _, 0, l => l
  | t, k + 1, l => run m (t + 1) k (l.frame net f t m)

variable {net f} in
theorem frame_of_blank {t n : ℕ} {l : Lane d σ} (h : l.next net f t = none) :
    l.frame net f t n = l := by
  cases n with
  | zero => rfl
  | succ n => simp only [frame, h]

variable {net f} in
theorem frame_of_token {t n : ℕ} {l l' : Lane d σ} (h : l.next net f t = some l') :
    l.frame net f t (n + 1) = l'.frame net f t n := by
  simp only [frame, h]

theorem run_succ_right (m t k : ℕ) (l : Lane d σ) :
    run net f m t (k + 1) l = (run net f m t k l).frame net f (t + k) m := by
  induction k generalizing t l with
  | zero => rfl
  | succ k ih =>
    show run net f m (t + 1) (k + 1) (l.frame net f t m) = _
    rw [ih, show t + 1 + k = t + (k + 1) by omega]
    rfl

theorem foldl_range_eq_run (m n : ℕ) (l : Lane d σ) :
    (List.range n).foldl (fun l t => l.frame net f t m) l = run net f m 0 n l := by
  induction n with
  | zero => rfl
  | succ n ih => rw [List.range_succ, List.foldl_append, ih, run_succ_right, Nat.zero_add]; rfl

/-- `ks` were emitted, and every one of them was committed once: the state promoted is the one
    that the prediction over the committed state and the last token left. -/
inductive Promoted : List d.Token → σ → List σ → Prop where
  | start : Promoted [] net.init []
  | emit {ks : List d.Token} {s : σ} {log : List σ} (k : d.Token) (h : Promoted ks s log) :
      Promoted (ks ++ [k]) (net.predict s ks.getLast?).1
        (log ++ [(net.predict s ks.getLast?).1])

/-- The log of a lane agrees with its emissions. -/
def Logged (l : Lane d σ) : Prop :=
  ∃ ks : List d.Token, l.search.emissions.map (·.tokenId) = ks.map Fin.val ∧
    l.search.prev = ks.getLast? ∧ Promoted net ks l.committed l.commits

variable {net}

theorem Logged.start : (Lane.start net).Logged net := ⟨[], rfl, rfl, .start⟩

theorem Logged.next {t : ℕ} {l l' : Lane d σ} (hl : l.Logged net)
    (h : l.next net f t = some l') : l'.Logged net := by
  obtain ⟨ks, hemit, hprev, hlog⟩ := hl
  obtain ⟨k, -, rfl⟩ := Option.map_eq_some_iff.mp h
  refine ⟨ks ++ [k], ?_, ?_, ?_⟩
  · simp [Search.emit, hemit]
  · simp [Search.emit]
  · rw [hprev]
    exact hlog.emit k

theorem Logged.frame {t n : ℕ} {l : Lane d σ} (hl : l.Logged net) :
    (l.frame net f t n).Logged net := by
  induction n generalizing l with
  | zero => exact hl
  | succ n ih =>
    cases h : l.next net f t with
    | none => rwa [frame_of_blank h]
    | some l' =>
      rw [frame_of_token h]
      exact ih (hl.next f h)

theorem Logged.run {m t k : ℕ} {l : Lane d σ} (hl : l.Logged net) :
    (Lane.run net f m t k l).Logged net := by
  induction k generalizing t l with
  | zero => exact hl
  | succ k ih => exact ih (hl.frame f)

/-- Without symbols nothing is decided. -/
theorem run_zero_symbols (t k : ℕ) (l : Lane d σ) : Lane.run net f 0 t k l = l := by
  induction k generalizing t l with
  | zero => rfl
  | succ k ih => exact ih (t + 1) l

theorem next_length {t : ℕ} {l l' : Lane d σ} (h : l.next net f t = some l') :
    l'.search.emissions.length = l.search.emissions.length + 1 := by
  obtain ⟨k, -, rfl⟩ := Option.map_eq_some_iff.mp h
  simp [Search.emit]

variable (net) in
theorem frame_length (t n : ℕ) (l : Lane d σ) :
    l.search.emissions.length ≤ (l.frame net f t n).search.emissions.length := by
  induction n generalizing l with
  | zero => exact le_refl _
  | succ n ih =>
    cases h : l.next net f t with
    | none => rw [frame_of_blank h]
    | some l' =>
      have hl' := next_length f h
      have hn := ih l'
      rw [frame_of_token h]
      omega

variable (net) in
theorem run_length (m t k : ℕ) (l : Lane d σ) :
    l.search.emissions.length ≤ (Lane.run net f m t k l).search.emissions.length := by
  induction k generalizing t l with
  | zero => exact le_refl _
  | succ k ih => exact (frame_length net f t m l).trans (ih (t + 1) _)

theorem run_of_blanks {m t k : ℕ} {l : Lane d σ} (h : ∀ j < k, l.next net f (t + j) = none) :
    Lane.run net f m t k l = l := by
  induction k generalizing t with
  | zero => rfl
  | succ k ih =>
    show Lane.run net f m (t + 1) k (l.frame net f t m) = l
    have hblank : l.next net f t = none := h 0 (by omega)
    rw [frame_of_blank hblank]
    apply ih
    intro j hj
    rw [show t + 1 + j = t + (j + 1) by omega]
    exact h (j + 1) (by omega)

/-- A run that emits nothing finds a blank at every frame. -/
theorem blanks_of_run {m t k : ℕ} {l : Lane d σ}
    (h : (Lane.run net f (m + 1) t k l).search.emissions = l.search.emissions) :
    ∀ j < k, l.next net f (t + j) = none := by
  induction k generalizing t with
  | zero => exact fun j hj => absurd hj (Nat.not_lt_zero j)
  | succ k ih =>
    change (Lane.run net f (m + 1) (t + 1) k (l.frame net f t (m + 1))).search.emissions = _ at h
    have hlen := run_length net f (m + 1) (t + 1) k (l.frame net f t (m + 1))
    rw [h] at hlen
    have hblank : l.next net f t = none := by
      cases hnext : l.next net f t with
      | none => rfl
      | some l' =>
        -- a token would have been emitted
        have hl' := next_length f hnext
        have hframe := frame_length net f t m l'
        rw [frame_of_token hnext] at hlen
        omega
    rw [frame_of_blank hblank] at h
    intro j hj
    cases j with
    | zero => exact hblank
    | succ j =>
      rw [show t + (j + 1) = t + 1 + j by omega]
      exact ih h j (by omega)

end Lane

/-! ## One utterance -/

section Single

variable (net : Networks d σ π F) (f : ℕ → F)

def laneOf (s : Search d × PredictorState σ) : Lane d σ :=
  { search := s.1, committed := s.2.committed, commits := s.2.commits }

theorem decodeFrame_lane (t n : ℕ) (s : Search d × PredictorState σ) :
    laneOf (decodeFrame d net f t true n s) = (laneOf s).frame net f t n := by
  induction n generalizing s with
  | zero => rfl
  | succ n ih =>
    obtain ⟨s, p⟩ := s
    simp only [decodeFrame, Lane.frame, Lane.next, Lane.decide, Networks.step, laneOf]
    cases d.token? (net.joint (f t) (net.predict p.committed s.prev).2) with
    | none => rfl
    | some k => exact ih _

theorem foldl_decodeFrame_lane (m : ℕ) (ts : List ℕ) (s : Search d × PredictorState σ) :
    laneOf (ts.foldl (fun s t => decodeFrame d net f t true m s) s) =
      ts.foldl (fun l t => l.frame net f t m) (laneOf s) := by
  induction ts generalizing s with
  | nil => rfl
  | cons t ts ih => rw [List.foldl_cons, List.foldl_cons, ih, decodeFrame_lane]

/-- `decode_with_timestamps` runs its lane over the valid frames. -/
theorem decodeWithTimestamps_eq (hvoc : d.vocabulary ≠ []) {strideFrames validFrames : ℕ}
    (hstride : validFrames ≤ strideFrames) (p : PredictorState σ) :
    (decodeWithTimestamps d net f strideFrames validFrames p).1 =
      let l := Lane.run net f d.maxSymbolsPerStep 0 validFrames (Lane.start net)
      (l.search.text, l.search.emissions) := by
  unfold decodeWithTimestamps decodeInner
  by_cases h0 : validFrames = 0
  · rw [if_pos (Or.inr h0)]
    subst h0
    rfl
  · rw [if_neg (by tauto), Nat.min_eq_right hstride]
    have hlane := foldl_decodeFrame_lane net f d.maxSymbolsPerStep (List.range validFrames)
      (Search.start, net.reset)
    have hrun : Lane.run net f d.maxSymbolsPerStep 0 validFrames (Lane.start net) = _ :=
      (Lane.foldl_range_eq_run net f _ _ _).symm.trans hlane.symm
    rw [hrun]
    rfl

end Single

/-! ## Lockstep -/

section Batch

variable {lanes : ℕ} (be : Backend d σ π F lanes) (validFrames : List ℕ)

def BatchState.lane (s : BatchState d σ π lanes) (i : Fin lanes) : Lane d σ :=
  { search := { text := s.texts i, emissions := s.emissions i, prev := d.token? (s.prev i) }
    committed := (s.backend.predictors i).committed
    commits := (s.backend.predictors i).commits }

/-- The label an active lane gets is the one the lane decides on its own. -/
theorem step_emitted {s : BatchState d σ π lanes} {t : ℕ} {i : Fin lanes}
    (hb : i.val < validFrames.length) (hi : s.active i = true) :
    s.emitted d validFrames (be.step s.backend t s.prev s.active).2 i =
      d.token? ((s.lane i).decide be.net (be.frames i) t) := by
  simp only [BatchState.emitted, Backend.step, Networks.step, hb, hi, and_self, if_true]
  rfl

theorem step_emitted_inactive {s : BatchState d σ π lanes} {t : ℕ} {i : Fin lanes}
    (hi : s.active i = false) :
    s.emitted d validFrames (be.step s.backend t s.prev s.active).2 i = none := by
  simp [BatchState.emitted, hi]

/-- A lane is promoted in a pass exactly when it emits. -/
theorem batchRound_predictor {s : BatchState d σ π lanes} {t : ℕ} {i : Fin lanes}
    (hb : i.val < validFrames.length) :
    (batchRound d be validFrames t s).backend.predictors i =
      if (s.emitted d validFrames (be.step s.backend t s.prev s.active).2 i).isSome
      then ((be.step s.backend t s.prev s.active).1.predictors i).commit
      else (be.step s.backend t s.prev s.active).1.predictors i := by
  simp only [batchRound]
  by_cases hany : ∃ j, (s.emitted d validFrames
      (be.step s.backend t s.prev s.active).2 j).isSome = true
  · rw [if_pos hany]
    simp only [BackendState.commit, hb, if_true]
  · have hi : ¬ (s.emitted d validFrames
        (be.step s.backend t s.prev s.active).2 i).isSome = true := fun h => hany ⟨i, h⟩
    rw [if_neg hany, if_neg hi]

/-- A pass moves an active lane by one decision; a blank ends its frame. -/
theorem batchRound_active {s : BatchState d σ π lanes} {t : ℕ} {i : Fin lanes}
    (hb : i.val < validFrames.length) (hi : s.active i = true) :
    (batchRound d be validFrames t s).lane i =
        ((s.lane i).next be.net (be.frames i) t).getD (s.lane i) ∧
      (batchRound d be validFrames t s).active i =
        ((s.lane i).next be.net (be.frames i) t).isSome := by
  have hemit := step_emitted be validFrames (t := t) hb hi
  have hpred := batchRound_predictor be validFrames (s := s) (t := t) hb
  have hstep : (be.step s.backend t s.prev s.active).1.predictors i =
      { s.backend.predictors i with
        tentative := (be.net.predict (s.lane i).committed (s.lane i).search.prev).1 } := by
    simp only [Backend.step, Networks.step, hi, if_true]
    rfl
  rw [hstep] at hpred
  have hactive : (batchRound d be validFrames t s).active i =
      (s.emitted d validFrames (be.step s.backend t s.prev s.active).2 i).isSome := by
    simp [batchRound, hi, hb]
  cases hk : d.token? ((s.lane i).decide be.net (be.frames i) t) with
  | none =>
    have hnext : (s.lane i).next be.net (be.frames i) t = none := by simp [Lane.next, hk]
    rw [hk] at hemit
    rw [hemit] at hpred hactive
    rw [hnext]
    refine ⟨?_, hactive⟩
    unfold BatchState.lane
    rw [hpred]
    simp only [batchRound, hemit]
    rfl
  | some k =>
    have hnext := congrArg (Option.map fun k => Lane.mk ((s.lane i).search.emit t k true)
      (be.net.predict (s.lane i).committed (s.lane i).search.prev).1 ((s.lane i).commits ++
        [(be.net.predict (s.lane i).committed (s.lane i).search.prev).1])) hk
    rw [hk] at hemit
    rw [hemit] at hpred hactive
    rw [Lane.next, hnext]
    refine ⟨?_, hactive⟩
    unfold BatchState.lane
    rw [hpred]
    simp only [batchRound, hemit, Option.elim_some, RnntDecoder.token?_label]
    rfl

/-- A pass leaves a lane that is not active alone. -/
theorem batchRound_inactive {s : BatchState d σ π lanes} {t : ℕ} {i : Fin lanes}
    (hb : i.val < validFrames.length) (hi : s.active i = false) :
    (batchRound d be validFrames t s).lane i = s.lane i ∧
      (batchRound d be validFrames t s).active i = false := by
  have hemit := step_emitted_inactive be validFrames (t := t) hi
  have hpred := batchRound_predictor be validFrames (s := s) (t := t) hb
  have hstep : (be.step s.backend t s.prev s.active).1.predictors i =
      { s.backend.predictors i with tentative := (be.junk s.backend.calls i).1 } := by
    simp [Backend.step, hi]
  rw [hemit, hstep] at hpred
  refine ⟨?_, by simp [batchRound, hi]⟩
  unfold BatchState.lane
  rw [hpred]
  simp only [batchRound, hemit]
  rfl

/-- The inner loop runs an active lane through the frame, and the others not at all. -/
theorem symbolLoop_lane (t n : ℕ) {s : BatchState d σ π lanes} {i : Fin lanes}
    (hb : i.val < validFrames.length) :
    (symbolLoop d be validFrames t n s).lane i =
      if s.active i then (s.lane i).frame be.net (be.frames i) t n else s.lane i := by
  induction n generalizing s with
  | zero =>
    cases s.active i
    · rfl
    · rfl
  | succ n ih =>
    unfold symbolLoop
    split
    · next hany =>
      rw [ih]
      cases hi : s.active i with
      | false =>
        obtain ⟨hlane, hactive⟩ := batchRound_inactive be validFrames (t := t) hb hi
        rw [hactive, hlane]
        rfl
      | true =>
        obtain ⟨hlane, hactive⟩ := batchRound_active be validFrames (t := t) hb hi
        rw [hactive, hlane, if_pos rfl]
        cases hnext : (s.lane i).next be.net (be.frames i) t with
        | none => exact (Lane.frame_of_blank hnext).symm
        | some l => exact (Lane.frame_of_token hnext).symm
    · next hnone =>
      have hi : s.active i = false := by
        cases hi : s.active i with
        | false => rfl
        | true => exact absurd ⟨i, hi⟩ hnone
      rw [hi]
      rfl

/-- The frames of lane `i` in a call. -/
def laneFrames (i : Fin lanes) : ℕ := validFrames.getD i 0

theorem hasFrame_iff {i : Fin lanes} (hb : i.val < validFrames.length) (t : ℕ) :
    hasFrame validFrames i t = true ↔ t < laneFrames validFrames i := by
  simp [hasFrame, laneFrames, hb]

theorem laneFrames_le_max (i : Fin lanes) :
    laneFrames validFrames i ≤ validFrames.foldl max 0 := by
  have hle : ∀ (vs : List ℕ) (m : ℕ), m ≤ vs.foldl max m ∧ ∀ v ∈ vs, v ≤ vs.foldl max m := by
    intro vs
    induction vs with
    | nil => exact fun m => ⟨le_refl m, nofun⟩
    | cons v vs ih =>
      intro m
      obtain ⟨hm, hvs⟩ := ih (max m v)
      refine ⟨(le_max_left m v).trans hm, ?_⟩
      intro w hw
      rcases List.mem_cons.mp hw with rfl | hw
      · exact (le_max_right m w).trans hm
      · exact hvs w hw
  unfold laneFrames
  rw [List.getD_eq_getElem?_getD]
  cases h : validFrames[i.val]? with
  | none => exact Nat.zero_le _
  | some v => exact (hle validFrames 0).2 v (List.mem_of_getElem? h)

/-- After `n` shared frames a lane has run over those of its own among them. -/
theorem frameLoop_lane (n : ℕ) {i : Fin lanes} (hb : i.val < validFrames.length) :
    (frameLoop d be validFrames n).lane i =
      Lane.run be.net (be.frames i) d.maxSymbolsPerStep 0 (min n (laneFrames validFrames i))
        (Lane.start be.net) := by
  induction n with
  | zero =>
    rw [Nat.zero_min]
    unfold BatchState.lane
    simp [frameLoop, BatchState.start, Backend.reset, Networks.reset, Lane.run, Lane.start,
      Search.start]
  | succ n ih =>
    unfold frameLoop at ih ⊢
    rw [List.range_succ, List.foldl_append, List.foldl_cons, List.foldl_nil,
      symbolLoop_lane be validFrames n _ hb]
    have hframe := hasFrame_iff validFrames hb n
    by_cases hn : n < laneFrames validFrames i
    · rw [if_pos (hframe.mpr hn), Nat.min_eq_left (by omega), Lane.run_succ_right, Nat.zero_add]
      rw [Nat.min_eq_left (by omega)] at ih
      exact congrArg _ ih
    · rw [if_neg (fun h => hn (hframe.mp h)), Nat.min_eq_right (by omega)]
      rw [Nat.min_eq_right (by omega)] at ih
      exact ih

/-- `decode_batch` runs every lane over its frames. -/
theorem decodeBatch_lane (hvoc : d.vocabulary ≠ []) {i : Fin lanes}
    (hb : i.val < validFrames.length) :
    (decodeBatch d be validFrames).lane i =
      Lane.run be.net (be.frames i) d.maxSymbolsPerStep 0 (laneFrames validFrames i)
        (Lane.start be.net) := by
  unfold decodeBatch
  rw [if_neg hvoc, frameLoop_lane be validFrames _ hb,
    Nat.min_eq_right (laneFrames_le_max validFrames i)]

end Batch

/-! ## Label looping -/

namespace Lane

variable (net : Networks d σ π F) (f : ℕ → F)

/-- The lane that a lane at frame `t` of `n`, with `s` symbols emitted there, will end with. -/
def finish (m n t s : ℕ) (l : Lane d σ) : Lane d σ :=
  if t < n then run net f m (t + 1) (n - (t + 1)) (l.frame net f t (m - s)) else l

theorem finish_zero (m n : ℕ) (l : Lane d σ) : finish net f m n 0 0 l = run net f m 0 n l := by
  unfold finish
  split
  · next h =>
    obtain ⟨k, rfl⟩ : ∃ k, n = k + 1 := ⟨n - 1, by omega⟩
    rfl
  · next h =>
    obtain rfl : n = 0 := by omega
    rfl

theorem finish_next_frame (m : ℕ) {n t : ℕ} (ht : t < n) (l : Lane d σ) :
    finish net f m n (t + 1) 0 l = run net f m (t + 1) (n - (t + 1)) l := by
  unfold finish
  split
  · next h =>
    obtain ⟨k, hk⟩ : ∃ k, n - (t + 1) = k + 1 := ⟨n - (t + 1) - 1, by omega⟩
    rw [hk, show n - (t + 1 + 1) = k by omega]
    rfl
  · next h =>
    rw [show n - (t + 1) = 0 by omega]
    rfl

variable {net f}

/-- A blank ends the frame. -/
theorem finish_of_blank {m n t s : ℕ} {l : Lane d σ} (ht : t < n)
    (h : l.next net f t = none) : finish net f m n (t + 1) 0 l = finish net f m n t s l := by
  rw [finish_next_frame net f m ht]
  unfold finish
  rw [if_pos ht, frame_of_blank h]

/-- A token is one of the symbols of its frame; the last one ends the frame. -/
theorem finish_of_token {m n t s : ℕ} {l l' : Lane d σ} (ht : t < n) (hs : s < m)
    (h : l.next net f t = some l') :
    finish net f m n t s l =
      if s + 1 ≥ m then finish net f m n (t + 1) 0 l' else finish net f m n t (s + 1) l' := by
  have hfin : finish net f m n t s l =
      run net f m (t + 1) (n - (t + 1)) (l'.frame net f t (m - (s + 1))) := by
    unfold finish
    rw [if_pos ht, show m - s = m - (s + 1) + 1 by omega, frame_of_token h]
  split
  · next hm =>
    rw [hfin, finish_next_frame net f m ht, show m - (s + 1) = 0 by omega]
    rfl
  · rw [hfin]
    unfold finish
    rw [if_pos ht]

end Lane

section Labels

variable {lanes : ℕ} (be : Backend d σ π F lanes) (validFrames : List ℕ)

def LabelState.lane (s : LabelState d σ π lanes) (i : Fin lanes) : Lane d σ :=
  { search := { text := s.texts i, emissions := s.emissions i, prev := d.token? (s.prev i) }
    committed := (s.backend.predictors i).committed
    commits := (s.backend.predictors i).commits }

/-- The last prediction of lane `i` is the one over its committed state and last token. -/
def LabelState.Predicted (s : LabelState d σ π lanes) (i : Fin lanes) : Prop :=
  let p := be.net.predict (s.backend.predictors i).committed (d.token? (s.prev i))
  (s.backend.predictors i).tentative = p.1 ∧ s.backend.output i = some p.2

/-- The label an active lane gets is the one the lane decides on its own. -/
theorem joint_emitted {s : LabelState d σ π lanes} {i : Fin lanes}
    (hi : hasFrame validFrames i (s.time i) = true) (hp : s.Predicted be i) :
    s.emitted d validFrames
        (be.joint s.backend s.time fun i => hasFrame validFrames i (s.time i)).2 i =
      d.token? ((s.lane i).decide be.net (be.frames i) (s.time i)) := by
  simp only [LabelState.emitted, Backend.joint, hi, if_true, hp.2]
  rfl

/-- After a pass, the lane that emitted is promoted, and every lane is predicted afresh when one
    was. -/
theorem labelRound_predictor {s : LabelState d σ π lanes} {i : Fin lanes}
    (hp : s.Predicted be i) :
    let emitted := s.emitted d validFrames
      (be.joint s.backend s.time fun i => hasFrame validFrames i (s.time i)).2
    let s' := labelRound d be validFrames s
    s'.Predicted be i ∧
      (s'.backend.predictors i).committed =
        (if (emitted i).isSome then (s.backend.predictors i).tentative
          else (s.backend.predictors i).committed) ∧
      (s'.backend.predictors i).commits =
        (if (emitted i).isSome
          then (s.backend.predictors i).commits ++ [(s.backend.predictors i).tentative]
          else (s.backend.predictors i).commits) := by
  intro emitted s'
  have hback : s'.backend = if ∃ i, (emitted i).isSome
      then be.predict ((be.joint s.backend s.time fun i =>
        hasFrame validFrames i (s.time i)).1.commit fun i => (emitted i).isSome) s'.prev
      else (be.joint s.backend s.time fun i => hasFrame validFrames i (s.time i)).1 := rfl
  by_cases hany : ∃ i, (emitted i).isSome = true
  · rw [if_pos hany] at hback
    unfold LabelState.Predicted
    rw [hback]
    refine ⟨⟨rfl, rfl⟩, ?_, ?_⟩
    · simp only [Backend.predict, BackendState.commit, Backend.joint]
      split
      · rfl
      · rfl
    · simp only [Backend.predict, BackendState.commit, Backend.joint]
      split
      · rfl
      · rfl
  · have hi : emitted i = none := by
      cases h : emitted i with
      | none => rfl
      | some k => exact absurd ⟨i, by rw [h]; rfl⟩ hany
    rw [if_neg hany] at hback
    have hprev : s'.prev i = s.prev i := by
      show (emitted i).elim (s.prev i) d.label = s.prev i
      rw [hi]
      rfl
    unfold LabelState.Predicted
    rw [hback, hi, hprev]
    exact ⟨hp, rfl, rfl⟩

/-- A pass leaves a lane past its last frame alone. -/
theorem labelRound_inactive {s : LabelState d σ π lanes} {i : Fin lanes} (hp : s.Predicted be i)
    (hi : hasFrame validFrames i (s.time i) = false) :
    let s' := labelRound d be validFrames s
    s'.lane i = s.lane i ∧ s'.time i = s.time i ∧ s'.symbols i = s.symbols i := by
  intro s'
  have hemit : s.emitted d validFrames
      (be.joint s.backend s.time fun i => hasFrame validFrames i (s.time i)).2 i = none := by
    simp [LabelState.emitted, hi]
  obtain ⟨-, hcommitted, hcommits⟩ := labelRound_predictor be validFrames hp
  rw [hemit] at hcommitted hcommits
  refine ⟨?_, ?_, ?_⟩
  · unfold LabelState.lane
    rw [hcommitted, hcommits]
    simp only [s', labelRound, hemit]
    rfl
  · simp [s', labelRound, LabelState.advances, hi]
  · simp [s', labelRound, LabelState.advances, hi]

/-- A pass on which an active lane decides a blank. -/
theorem labelRound_blank {s : LabelState d σ π lanes} {i : Fin lanes} (hp : s.Predicted be i)
    (hi : hasFrame validFrames i (s.time i) = true)
    (hnext : (s.lane i).next be.net (be.frames i) (s.time i) = none) :
    let s' := labelRound d be validFrames s
    s'.lane i = s.lane i ∧ s'.time i = s.time i + 1 ∧ s'.symbols i = 0 := by
  intro s'
  have hemit := joint_emitted be validFrames hi hp
  rw [Option.map_eq_none_iff.mp hnext] at hemit
  obtain ⟨-, hcommitted, hcommits⟩ := labelRound_predictor be validFrames hp
  rw [hemit] at hcommitted hcommits
  refine ⟨?_, ?_, ?_⟩
  · unfold LabelState.lane
    rw [hcommitted, hcommits]
    simp only [s', labelRound, hemit]
    rfl
  · simp [s', labelRound, LabelState.advances, hi, hemit]
  · simp [s', labelRound, LabelState.advances, hi, hemit]

/-- A pass on which an active lane decides a token. -/
theorem labelRound_token {s : LabelState d σ π lanes} {i : Fin lanes} (hp : s.Predicted be i)
    (hi : hasFrame validFrames i (s.time i) = true) {l : Lane d σ}
    (hnext : (s.lane i).next be.net (be.frames i) (s.time i) = some l) :
    let s' := labelRound d be validFrames s
    s'.lane i = l ∧
      (s'.time i, s'.symbols i) = if s.symbols i + 1 ≥ maxSymbols d then (s.time i + 1, 0)
        else (s.time i, s.symbols i + 1) := by
  intro s'
  have hemit := joint_emitted be validFrames hi hp
  obtain ⟨k, hk, rfl⟩ := Option.map_eq_some_iff.mp hnext
  rw [hk] at hemit
  obtain ⟨-, hcommitted, hcommits⟩ := labelRound_predictor be validFrames hp
  rw [hemit, hp.1] at hcommitted hcommits
  refine ⟨?_, ?_⟩
  · unfold LabelState.lane
    rw [hcommitted, hcommits]
    simp only [s', labelRound, hemit, Option.elim_some, RnntDecoder.token?_label]
    rfl
  · by_cases hm : s.symbols i + 1 ≥ maxSymbols d
    · simp [s', labelRound, LabelState.advances, hi, hemit, hm]
    · simp [s', labelRound, LabelState.advances, hi, hemit, hm]

/-- What the loop keeps about lane `i`. -/
structure LabelState.Inv (s : LabelState d σ π lanes) (i : Fin lanes) : Prop where
  predicted : s.Predicted be i
  symbols_lt : s.symbols i < maxSymbols d

/-- The lane that lane `i` will end with. -/
def LabelState.final (s : LabelState d σ π lanes) (i : Fin lanes) : Lane d σ :=
  Lane.finish be.net (be.frames i) (maxSymbols d) (laneFrames validFrames i) (s.time i)
    (s.symbols i) (s.lane i)

/-- The decisions lane `i` may still take. -/
def LabelState.budget (s : LabelState d σ π lanes) (i : Fin lanes) : ℕ :=
  (laneFrames validFrames i - s.time i) * maxSymbols d - s.symbols i

/-- One pass keeps the invariant and the final lane, and uses up a decision of an active
    lane. -/
theorem labelRound_spec {s : LabelState d σ π lanes} {i : Fin lanes}
    (hb : i.val < validFrames.length) (hs : s.Inv be i) :
    (labelRound d be validFrames s).Inv be i ∧
      (labelRound d be validFrames s).final be validFrames i = s.final be validFrames i ∧
      (labelRound d be validFrames s).budget validFrames i +
        (if hasFrame validFrames i (s.time i) then 1 else 0) ≤ s.budget validFrames i := by
  obtain ⟨hpred', -, -⟩ := labelRound_predictor be validFrames hs.predicted
  have hlt := hs.symbols_lt
  cases hi : hasFrame validFrames i (s.time i) with
  | false =>
    obtain ⟨hlane, htime, hsym⟩ := labelRound_inactive be validFrames hs.predicted hi
    refine ⟨⟨hpred', by omega⟩, ?_, ?_⟩
    · unfold LabelState.final
      rw [hlane, htime, hsym]
    · unfold LabelState.budget
      rw [htime, hsym]
      exact le_refl _
  | true =>
    have ht := (hasFrame_iff validFrames hb (s.time i)).mp hi
    -- one frame is worth `maxSymbols` decisions
    have hmul : (laneFrames validFrames i - s.time i) * maxSymbols d =
        (laneFrames validFrames i - (s.time i + 1)) * maxSymbols d + maxSymbols d := by
      rw [show laneFrames validFrames i - s.time i =
        laneFrames validFrames i - (s.time i + 1) + 1 by omega]
      ring
    cases hnext : (s.lane i).next be.net (be.frames i) (s.time i) with
    | none =>
      obtain ⟨hlane, htime, hsym⟩ := labelRound_blank be validFrames hs.predicted hi hnext
      refine ⟨⟨hpred', by omega⟩, ?_, ?_⟩
      · unfold LabelState.final
        rw [hlane, htime, hsym]
        exact Lane.finish_of_blank ht hnext
      · unfold LabelState.budget
        rw [htime, hsym, hmul, if_pos rfl]
        omega
    | some l =>
      obtain ⟨hlane, hpos⟩ := labelRound_token be validFrames hs.predicted hi hnext
      have hfin := Lane.finish_of_token ht hlt hnext
      by_cases hm : s.symbols i + 1 ≥ maxSymbols d
      · rw [if_pos hm] at hpos hfin
        obtain ⟨htime, hsym⟩ := Prod.mk.inj hpos
        refine ⟨⟨hpred', by omega⟩, ?_, ?_⟩
        · unfold LabelState.final
          rw [hlane, htime, hsym]
          exact hfin.symm
        · unfold LabelState.budget
          rw [htime, hsym, hmul, if_pos rfl]
          omega
      · rw [if_neg hm] at hpos hfin
        obtain ⟨htime, hsym⟩ := Prod.mk.inj hpos
        refine ⟨⟨hpred', by omega⟩, ?_, ?_⟩
        · unfold LabelState.final
          rw [hlane, htime, hsym]
          exact hfin.symm
        · unfold LabelState.budget
          rw [htime, hsym, hmul, if_pos rfl]
          omega

/-- With no lane active, every lane is the one it is to end with. -/
theorem final_of_done {s : LabelState d σ π lanes} {i : Fin lanes}
    (hb : i.val < validFrames.length)
    (hdone : ¬ ∃ j, hasFrame validFrames j (s.time j) = true) :
    s.final be validFrames i = s.lane i := by
  have ht : ¬ s.time i < laneFrames validFrames i := fun ht =>
    hdone ⟨i, (hasFrame_iff validFrames hb _).mpr ht⟩
  unfold LabelState.final Lane.finish
  rw [if_neg ht]

/-- Once the loop is left, every lane is the one it was to end with. -/
theorem labelLoop_lane {fuel : ℕ} {s s' : LabelState d σ π lanes}
    (hs : ∀ i : Fin lanes, i.val < validFrames.length → s.Inv be i)
    (h : labelLoop d be validFrames fuel s = some s') {i : Fin lanes}
    (hb : i.val < validFrames.length) : s'.lane i = s.final be validFrames i := by
  induction fuel generalizing s with
  | zero =>
    unfold labelLoop at h
    split at h
    · cases h
    · next hdone =>
      obtain rfl := Option.some.inj h
      exact (final_of_done be validFrames hb hdone).symm
  | succ fuel ih =>
    unfold labelLoop at h
    split at h
    · have hround := fun j hj => labelRound_spec be validFrames (i := j) hj (hs j hj)
      rw [ih (fun j hj => (hround j hj).1) h]
      exact (hround i hb).2.1
    · next hdone =>
      obtain rfl := Option.some.inj h
      exact (final_of_done be validFrames hb hdone).symm

/-- The decisions left over all items. -/
def LabelState.total (s : LabelState d σ π lanes) : ℕ :=
  ∑ i : Fin lanes with i.val < validFrames.length, s.budget validFrames i

theorem labelRound_total {s : LabelState d σ π lanes}
    (hs : ∀ i : Fin lanes, i.val < validFrames.length → s.Inv be i)
    (hany : ∃ i, hasFrame validFrames i (s.time i) = true) :
    (labelRound d be validFrames s).total validFrames < s.total validFrames := by
  obtain ⟨i, hi⟩ := hany
  have hb : i.val < validFrames.length := by
    simp only [hasFrame, decide_eq_true_eq] at hi
    exact hi.1
  unfold LabelState.total
  apply Finset.sum_lt_sum
  · intro j hj
    have hj' := (Finset.mem_filter.mp hj).2
    have hspec := (labelRound_spec be validFrames hj' (hs j hj')).2.2
    omega
  · refine ⟨i, Finset.mem_filter.mpr ⟨Finset.mem_univ i, hb⟩, ?_⟩
    have hspec := (labelRound_spec be validFrames hb (hs i hb)).2.2
    rw [hi, if_pos rfl] at hspec
    omega

/-- The loop is done after as many passes as there are decisions left. -/
theorem labelLoop_terminates {fuel : ℕ} {s : LabelState d σ π lanes}
    (hs : ∀ i : Fin lanes, i.val < validFrames.length → s.Inv be i)
    (hfuel : s.total validFrames ≤ fuel) : ∃ s', labelLoop d be validFrames fuel s = some s' := by
  induction fuel generalizing s with
  | zero =>
    unfold labelLoop
    split
    · next hany =>
      have hlt := labelRound_total be validFrames hs hany
      omega
    · exact ⟨s, rfl⟩
  | succ fuel ih =>
    unfold labelLoop
    split
    · next hany =>
      have hlt := labelRound_total be validFrames hs hany
      exact ih (fun j hj => (labelRound_spec be validFrames hj (hs j hj)).1) (by omega)
    · exact ⟨s, rfl⟩

/-- The state the loop starts from. -/
def LabelState.entry : LabelState d σ π lanes :=
  { LabelState.start d be with
    backend := be.predict (LabelState.start d be).backend (LabelState.start d be).prev }

theorem entry_inv (i : Fin lanes) : (LabelState.entry (d := d) be).Inv be i where
  predicted := ⟨rfl, rfl⟩
  symbols_lt := by
    show 0 < maxSymbols d
    unfold maxSymbols
    omega

theorem entry_final (i : Fin lanes) :
    (LabelState.entry (d := d) be).final be validFrames i =
      Lane.run be.net (be.frames i) (maxSymbols d) 0 (laneFrames validFrames i)
        (Lane.start be.net) := by
  have hlane : (LabelState.entry (d := d) be).lane i = Lane.start be.net := by
    simp [LabelState.lane, LabelState.entry, LabelState.start, Backend.predict, Backend.reset,
      Networks.reset, Lane.start, Search.start]
  unfold LabelState.final
  rw [hlane]
  exact Lane.finish_zero be.net (be.frames i) _ _ _

/-- `decode_batch_labels` runs every lane over its frames, with one symbol a frame at least. -/
theorem decodeBatchLabels_lane (hvoc : d.vocabulary ≠ []) {fuel : ℕ}
    {s : LabelState d σ π lanes} (h : decodeBatchLabels d be validFrames fuel = some s)
    {i : Fin lanes} (hb : i.val < validFrames.length) :
    s.lane i = Lane.run be.net (be.frames i) (maxSymbols d) 0 (laneFrames validFrames i)
      (Lane.start be.net) := by
  unfold decodeBatchLabels at h
  rw [if_neg hvoc] at h
  rw [labelLoop_lane be validFrames (fun i _ => entry_inv be i) h hb, entry_final]

theorem decodeBatchLabels_terminates :
    ∃ fuel s, decodeBatchLabels d be validFrames fuel = some s := by
  by_cases hvoc : d.vocabulary = []
  · exact ⟨0, _, if_pos hvoc⟩
  · obtain ⟨s, hs⟩ := labelLoop_terminates be validFrames (fun i _ => entry_inv be i)
      (le_refl ((LabelState.entry (d := d) be).total validFrames))
    exact ⟨_, s, (if_neg hvoc).trans hs⟩

end Labels

/-! ## Agreement -/

section Agreement

variable {lanes : ℕ} (be : Backend d σ π F lanes) (validFrames : List ℕ)

/-- The text and the emissions of item `i`. -/
def BatchState.result (s : BatchState d σ π lanes) (i : Fin lanes) : LaneDecode :=
  (s.texts i, s.emissions i)

def LabelState.result (s : LabelState d σ π lanes) (i : Fin lanes) : LaneDecode :=
  (s.texts i, s.emissions i)

variable (net : Networks d σ π F) in
/-- A lane was committed once for each of its emissions, in order, and always to the state its
    last prediction left. -/
def CommitsOnce (p : PredictorState σ) (emissions : List TokenEmission) : Prop :=
  ∃ ks : List d.Token, emissions.map (·.tokenId) = ks.map Fin.val ∧
    Lane.Promoted net ks p.committed p.commits

/-- What a lane's state must hold to be an item that decodes as it does alone. -/
structure ItemAgrees (strideFrames : Fin lanes → ℕ) (i : Fin lanes) (result : LaneDecode)
    (p : PredictorState σ) : Prop where
  alone : ∀ p₀, result = (decodeWithTimestamps d be.net (be.frames i) (strideFrames i)
    (laneFrames validFrames i) p₀).1
  commits : CommitsOnce be.net p result.2

/-- The decoders agree on a call: every item decodes as it does alone, each of its emissions is
    committed once, and label looping ends. -/
structure DecodersAgree (strideFrames : Fin lanes → ℕ) : Prop where
  batch : ∀ i : Fin lanes, i.val < validFrames.length →
    let s := decodeBatch d be validFrames
    ItemAgrees be validFrames strideFrames i (s.result i) (s.backend.predictors i)
  labelsEnd : ∃ fuel s, decodeBatchLabels d be validFrames fuel = some s
  labels : ∀ fuel s, decodeBatchLabels d be validFrames fuel = some s →
    ∀ i : Fin lanes, i.val < validFrames.length →
      ItemAgrees be validFrames strideFrames i (s.result i) (s.backend.predictors i)

/-- Every frame of every item is a blank for the empty prefix. -/
def AllBlank : Prop :=
  ∀ i : Fin lanes, i.val < validFrames.length → ∀ t < laneFrames validFrames i,
    d.token? (be.net.joint (be.frames i t) (be.net.predict be.net.init none).2) = none

variable {be validFrames}

theorem allBlank_iff :
    AllBlank be validFrames ↔ ∀ i : Fin lanes, i.val < validFrames.length →
      ∀ t < laneFrames validFrames i,
        (Lane.start be.net).next be.net (be.frames i) (0 + t) = none := by
  have hnext : ∀ (i : Fin lanes) t,
      (Lane.start be.net).next be.net (be.frames i) (0 + t) = none ↔
        d.token? (be.net.joint (be.frames i t) (be.net.predict be.net.init none).2) = none := by
    intro i t
    rw [Nat.zero_add]
    exact Option.map_eq_none_iff
  simp only [hnext]
  rfl

/-- A lane that ran over its frames is an item that decodes as it does alone. -/
theorem itemAgrees_of_run {strideFrames : Fin lanes → ℕ} {i : Fin lanes}
    (hvoc : d.vocabulary ≠ []) (hstride : laneFrames validFrames i ≤ strideFrames i)
    {result : LaneDecode} {p : PredictorState σ} {l : Lane d σ}
    (hl : l = Lane.run be.net (be.frames i) d.maxSymbolsPerStep 0 (laneFrames validFrames i)
      (Lane.start be.net))
    (hresult : result = (l.search.text, l.search.emissions)) (hp : p.committed = l.committed)
    (hlog : p.commits = l.commits) :
    ItemAgrees be validFrames strideFrames i result p where
  alone p₀ := by rw [decodeWithTimestamps_eq be.net (be.frames i) hvoc hstride, hresult, hl]
  commits := by
    have hlogged : l.Logged be.net := by
      rw [hl]
      exact Lane.Logged.start.run (be.frames i)
    obtain ⟨ks, hemit, -, hpromoted⟩ := hlogged
    rw [hresult]
    exact ⟨ks, hemit, by rw [hp, hlog]; exact hpromoted⟩

/-- With an empty vocabulary nothing is decoded. -/
theorem itemAgrees_empty {strideFrames : Fin lanes → ℕ} (hvoc : d.vocabulary = [])
    (i : Fin lanes) : ItemAgrees be validFrames strideFrames i ("", []) be.net.reset where
  alone p₀ := by
    unfold decodeWithTimestamps decodeInner
    rw [if_pos (Or.inl hvoc)]
  commits := ⟨[], rfl, .start⟩

/-- **The decoders agree exactly when** a frame may have a symbol, or there is nothing to decode:
    an empty vocabulary, or a blank at every frame.  Label looping raises a limit of zero symbols
    to one. -/
theorem decoders_agree_iff {strideFrames : Fin lanes → ℕ}
    (hstride : ∀ i : Fin lanes, laneFrames validFrames i ≤ strideFrames i) :
    DecodersAgree be validFrames strideFrames ↔
      0 < d.maxSymbolsPerStep ∨ d.vocabulary = [] ∨ AllBlank be validFrames := by
  by_cases hvoc : d.vocabulary = []
  · refine iff_of_true ?_ (Or.inr (Or.inl hvoc))
    refine ⟨?_, decodeBatchLabels_terminates be validFrames, ?_⟩
    · intro i _
      show ItemAgrees _ _ _ _ ((decodeBatch d be validFrames).result i) _
      unfold decodeBatch
      rw [if_pos hvoc]
      exact itemAgrees_empty hvoc i
    · intro fuel s h i _
      unfold decodeBatchLabels at h
      rw [if_pos hvoc] at h
      obtain rfl := Option.some.inj h
      exact itemAgrees_empty hvoc i
  · constructor
    · intro h
      by_cases hmax : 0 < d.maxSymbolsPerStep
      · exact Or.inl hmax
      · apply Or.inr
        apply Or.inr
        have hzero : d.maxSymbolsPerStep = 0 := by omega
        have hone : maxSymbols d = 0 + 1 := by simp [maxSymbols, hzero]
        obtain ⟨fuel, s, hs⟩ := h.labelsEnd
        rw [allBlank_iff]
        intro i hb
        -- label looping emits what the lane emits alone, which is nothing
        have halone := (h.labels fuel s hs i hb).alone be.net.reset
        rw [decodeWithTimestamps_eq be.net (be.frames i) hvoc (hstride i), hzero,
          Lane.run_zero_symbols] at halone
        have hlane := decodeBatchLabels_lane be validFrames hvoc hs hb
        rw [hone] at hlane
        apply Lane.blanks_of_run (be.frames i)
        rw [← hlane]
        exact congrArg Prod.snd halone
    · intro h
      have hrun : ∀ i : Fin lanes, i.val < validFrames.length →
          Lane.run be.net (be.frames i) (maxSymbols d) 0 (laneFrames validFrames i)
              (Lane.start be.net) =
            Lane.run be.net (be.frames i) d.maxSymbolsPerStep 0 (laneFrames validFrames i)
              (Lane.start be.net) := by
        intro i hb
        rcases h with hmax | hempty | hblank
        · have hm : maxSymbols d = d.maxSymbolsPerStep := by
            unfold maxSymbols
            omega
          rw [hm]
        · exact absurd hempty hvoc
        · have hnone := allBlank_iff.mp hblank i hb
          rw [Lane.run_of_blanks (be.frames i) hnone, Lane.run_of_blanks (be.frames i) hnone]
      refine ⟨?_, decodeBatchLabels_terminates be validFrames, ?_⟩
      · intro i hb
        exact itemAgrees_of_run hvoc (hstride i) (decodeBatch_lane be validFrames hvoc hb) rfl rfl
          rfl
      · intro fuel s hs i hb
        exact itemAgrees_of_run hvoc (hstride i)
          ((decodeBatchLabels_lane be validFrames hvoc hs hb).trans (hrun i hb)) rfl rfl rfl

end Agreement

/-! ## A limit of zero symbols -/

section Instances

/-- Networks that count the predictions and decide the token `a` while the count is even. -/
def evenNetworks (m : ℕ) : Networks ⟨["a"], m⟩ ℕ ℕ ℕ where
  init := 0
  predict s _ := (s + 1, s)
  joint _ out := if out % 2 = 0 then 0 else 1

/-- A backend of two lanes. -/
def evenBackend (m : ℕ) : Backend ⟨["a"], m⟩ ℕ ℕ ℕ 2 where
  net := evenNetworks m
  frames _ t := t
  junk calls _ := (calls, 0)

theorem decoders_agree_iff_even :
    DecodersAgree (evenBackend 2) [3, 1] (fun _ => 3) ∧
      ((decodeBatch ⟨["a"], 2⟩ (evenBackend 2) [3, 1]).result 0) = ("a", [⟨0, 0⟩]) := by
  refine ⟨(decoders_agree_iff ?_).mpr (Or.inl (by decide)), by decide⟩
  decide

/-- With a limit of zero symbols label looping still emits `a`, while the lane alone emits
    nothing. -/
theorem zero_limit_disagrees : ¬ DecodersAgree (evenBackend 0) [1, 1] (fun _ => 1) := by
  intro h
  obtain ⟨s, hs, hemissions⟩ : ∃ s, decodeBatchLabels ⟨["a"], 0⟩ (evenBackend 0) [1, 1] 1 = some s ∧
      s.emissions 0 = [⟨0, 0⟩] := ⟨_, rfl, by decide⟩
  have halone := congrArg Prod.snd
    ((h.labels 1 s hs 0 (by decide)).alone (evenNetworks 0).reset)
  have hnone : (decodeWithTimestamps ⟨["a"], 0⟩ (evenNetworks 0) (fun t => t) 1 1
      (evenNetworks 0).reset).1.2 = [] := by decide
  change s.emissions 0 = (decodeWithTimestamps ⟨["a"], 0⟩ (evenNetworks 0) (fun t => t) 1 1
      (evenNetworks 0).reset).1.2 at halone
  rw [hemissions, hnone] at halone
  cases halone

end Instances

end Svod.Arch.Rnnt
