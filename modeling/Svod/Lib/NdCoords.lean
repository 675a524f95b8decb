/-
  Svod.Lib.NdCoords

  Arrays described by a function of coordinates.

  `Holds` says that an array has a shape and, inside it, the elements of a
  function.  Every movement operation then is a change of coordinates: an axis is
  inserted, erased or set, two axes are swapped, leading axes are dropped.
-/

import Mathlib.Algebra.BigOperators.Group.List.Lemmas
import Svod.Lib.NdArray

namespace Svod.Lib

variable {α β γ : Type*}

/-! ## Coordinates of one axis -/

theorem InBounds.length {c s : List ℕ} (h : InBounds c s) : c.length = s.length :=
  List.Forall₂.length_eq h

theorem inBounds_cons {c s : List ℕ} {n : ℕ} (h : InBounds c (n :: s)) :
    ∃ x c', c = x :: c' ∧ x < n ∧ InBounds c' s := by
  obtain _ | ⟨x, c'⟩ := c
  · simp at h
  · obtain ⟨hx, hc⟩ := List.forall₂_cons.mp h
    exact ⟨x, c', rfl, hx, hc⟩

theorem inBounds_nil {c : List ℕ} (h : InBounds c []) : c = [] := by
  cases h
  rfl

theorem InBounds.getD_lt {c s : List ℕ} (h : InBounds c s) {d : ℕ} (hd : d < s.length) :
    c.getD d 0 < s.getD d 0 := by
  have hc : d < c.length := h.length.symm ▸ hd
  rw [List.getD_eq_getElem _ _ hc, List.getD_eq_getElem _ _ hd]
  exact h.get hc hd

theorem InBounds.set {c s : List ℕ} (h : InBounds c s) (d : ℕ) {x n : ℕ} (hx : x < n) :
    InBounds (c.set d x) (s.set d n) := by
  induction h generalizing d with
  | nil => exact .nil
  | cons h₁ h ih =>
    cases d with
    | zero => exact .cons hx h
    | succ d => exact .cons h₁ (ih d)

theorem InBounds.insertIdx {c s : List ℕ} (h : InBounds c s) {d x n : ℕ} (hd : d ≤ s.length)
    (hx : x < n) : InBounds (c.insertIdx d x) (s.insertIdx d n) := by
  induction h generalizing d with
  | nil =>
    obtain rfl : d = 0 := by simpa using hd
    exact .cons hx .nil
  | cons h₁ h ih =>
    cases d with
    | zero => exact .cons hx (.cons h₁ h)
    | succ d => exact .cons h₁ (ih (by simpa using hd))

/-- Coordinates inside a shape with an axis inserted. -/
theorem InBounds.of_insertIdx {c s : List ℕ} {d n : ℕ} (hd : d ≤ s.length)
    (h : InBounds c (s.insertIdx d n)) :
    ∃ c' x, c = c'.insertIdx d x ∧ c.eraseIdx d = c' ∧ InBounds c' s ∧ x < n := by
  induction s generalizing c d with
  | nil =>
    obtain rfl : d = 0 := by simpa using hd
    obtain _ | ⟨x, c⟩ := c
    · simp at h
    obtain ⟨hx, hc⟩ := List.forall₂_cons.mp h
    exact ⟨c, x, rfl, rfl, hc, hx⟩
  | cons m s ih =>
    cases d with
    | zero =>
      obtain _ | ⟨x, c⟩ := c
      · simp at h
      obtain ⟨hx, hc⟩ := List.forall₂_cons.mp h
      exact ⟨c, x, rfl, rfl, hc, hx⟩
    | succ d =>
      obtain _ | ⟨y, c⟩ := c
      · simp at h
      obtain ⟨hy, hc⟩ := List.forall₂_cons.mp h
      obtain ⟨c', x, rfl, herase, hc', hx⟩ := ih (by simpa using hd) hc
      refine ⟨y :: c', x, rfl, ?_, .cons hy hc', hx⟩
      rw [List.eraseIdx_cons_succ, herase]

/-- A unit axis holds no position, wherever it stands. -/
theorem SamePosition.insertUnit {c s : List ℕ} (h : InBounds c s) {d : ℕ} (hd : d ≤ s.length) :
    SamePosition (s.insertIdx d 1) (c.insertIdx d 0) s c := by
  induction h generalizing d with
  | nil =>
    obtain rfl : d = 0 := by simpa using hd
    exact .unit
  | @cons x n c s h₁ h ih =>
    cases d with
    | zero => exact SamePosition.unit.append (.refl (.cons h₁ h))
    | succ d =>
      have hx : SamePosition [n] [x] [n] [x] := .refl (.cons h₁ .nil)
      exact hx.append (ih (by simpa using hd))

/-- Two entries of a list exchanged. -/
def swapIdx (l : List ℕ) (i j : ℕ) : List ℕ := (l.set i (l.getD j 0)).set j (l.getD i 0)

@[simp] theorem length_swapIdx (l : List ℕ) (i j : ℕ) : (swapIdx l i j).length = l.length := by
  simp [swapIdx]

theorem swap_lt {n i j k : ℕ} (hi : i < n) (hj : j < n) (hk : k < n) : Equiv.swap i j k < n := by
  rw [Equiv.swap_apply_def]
  split_ifs <;> assumption

theorem getElem_swapIdx (l : List ℕ) {i j k : ℕ} (hi : i < l.length) (hj : j < l.length)
    (hk : k < (swapIdx l i j).length) :
    (swapIdx l i j)[k] = l.get ⟨Equiv.swap i j k, swap_lt hi hj (length_swapIdx l i j ▸ hk)⟩ := by
  simp only [List.get_eq_getElem, swapIdx, List.getElem_set, List.getD_eq_getElem _ _ hi,
    List.getD_eq_getElem _ _ hj,
    Equiv.swap_apply_def]
  by_cases hkj : k = j
  · subst hkj
    by_cases hki : k = i
    · subst hki
      simp
    · simp [hki]
  · by_cases hki : k = i
    · subst hki
      simp [Ne.symm hkj]
    · simp [Ne.symm hkj, Ne.symm hki, hkj, hki]

theorem InBounds.swapIdx {c s : List ℕ} (h : InBounds c s) {i j : ℕ} (hi : i < s.length)
    (hj : j < s.length) : InBounds (swapIdx c i j) (swapIdx s i j) := by
  have hset := (h.set i (h.getD_lt hj)).set j (h.getD_lt hi)
  exact hset

/-! ## Arrays -/

/-- The coordinates that an array of shape `s` is read at when it is broadcast: trailing axes line
    up, unit axes are read at `0`. -/
def broadcastCoords (s c : List ℕ) : List ℕ :=
  List.zipWith (fun s x => if s = 1 then 0 else x) s (c.drop (c.length - s.length))

/-- Trailing dimensions are those of the target or `1`. -/
def BroadcastsTo (s target : List ℕ) : Prop :=
  s.length ≤ target.length ∧
    List.Forall₂ (fun s n => s = n ∨ s = 1) s (target.drop (target.length - s.length))

theorem drop_expandCoords {s c : List ℕ} {k : ℕ} (hc : c.length = k + s.length) :
    (List.zipWith (fun s x => if s = 1 then 0 else x) (List.replicate k 1 ++ s) c).drop k =
      broadcastCoords s c := by
  have hk : c.length - s.length = k := by omega
  rw [List.drop_zipWith, List.drop_left' (by simp), broadcastCoords, hk]

namespace NdArray

/-- The array has the shape and, inside it, the elements of `f`. -/
structure Holds (t : NdArray α) (shape : List ℕ) (f : List ℕ → α) : Prop where
  shape_eq : t.shape = shape
  get_eq : ∀ c, InBounds c shape → t.get c = f c

namespace Holds

variable {t u : NdArray α} {s : List ℕ} {f g : List ℕ → α}

theorem self (t : NdArray α) : t.Holds t.shape t.get := ⟨rfl, fun _ _ => rfl⟩

theorem of_agrees (hu : u.Agrees t) (h : t.Holds s f) : u.Holds s f :=
  ⟨hu.shape_eq.trans h.shape_eq, fun c hc =>
    (hu.get_eq c (h.shape_eq ▸ hc)).trans (h.get_eq c hc)⟩

theorem congr (h : t.Holds s f) (hfg : ∀ c, InBounds c s → f c = g c) : t.Holds s g :=
  ⟨h.shape_eq, fun c hc => (h.get_eq c hc).trans (hfg c hc)⟩

/-- An element read at the same position of another shape. -/
theorem reshape (h : t.Holds s f) {s' : List ℕ} (read : List ℕ → List ℕ)
    (hread : ∀ c, InBounds c s' → SamePosition s (read c) s' c) :
    (t.reshape s').Holds s' fun c => f (read c) := by
  refine ⟨rfl, fun c hc => ?_⟩
  have hpos := hread c hc
  rw [t.reshape_get (h.shape_eq ▸ hpos)]
  exact h.get_eq _ hpos.inBounds

theorem unsqueeze (h : t.Holds s f) {d : ℕ} (hd : d ≤ s.length) :
    (t.reshape (s.insertIdx d 1)).Holds (s.insertIdx d 1) fun c => f (c.eraseIdx d) := by
  refine h.reshape (fun c => c.eraseIdx d) fun c hc => ?_
  obtain ⟨c', x, rfl, herase, hc', hx⟩ := InBounds.of_insertIdx hd hc
  obtain rfl : x = 0 := by omega
  rw [herase]
  exact (SamePosition.insertUnit hc' hd).symm

theorem squeeze {d : ℕ} (hd : d ≤ s.length) (h : t.Holds (s.insertIdx d 1) f) :
    (t.reshape s).Holds s fun c => f (c.insertIdx d 0) :=
  h.reshape (fun c => c.insertIdx d 0) fun _ hc => SamePosition.insertUnit hc hd

theorem permute_swap (h : t.Holds s f) {i j : ℕ} (hi : i < s.length) (hj : j < s.length) :
    (t.permute (swapIdx (List.range s.length) i j)).Holds (swapIdx s i j)
      fun c => f (swapIdx c i j) := by
  have hi' : i < (List.range s.length).length := by simpa using hi
  have hj' : j < (List.range s.length).length := by simpa using hj
  refine ⟨List.ext_getElem (by simp [NdArray.permute]) fun k h₁ h₂ => ?_, fun c hc => ?_⟩
  · simp only [NdArray.permute, List.getElem_map, getElem_swapIdx _ hi' hj', h.shape_eq,
      getElem_swapIdx _ hi hj, List.get_eq_getElem, List.getElem_range]
    exact List.getD_eq_getElem _ _ _
  · have hlen : c.length = s.length := by simpa using hc.length
    have hnodup : (swapIdx (List.range s.length) i j).Nodup := by
      refine List.nodup_iff_injective_get.mpr fun a b hab => ?_
      simp only [List.get_eq_getElem, getElem_swapIdx _ hi' hj', List.getElem_range] at hab
      exact Fin.ext ((Equiv.swap i j).injective hab)
    have hread : (List.range t.shape.length).map
        (fun d => c.getD ((swapIdx (List.range s.length) i j).idxOf d) 0) = swapIdx c i j := by
      refine List.ext_getElem (by simp [h.shape_eq, hlen]) fun k h₁ h₂ => ?_
      have hk : Equiv.swap i j k < (swapIdx (List.range s.length) i j).length := by
        have hk' : k < s.length := by simpa [h.shape_eq] using h₁
        rw [length_swapIdx, List.length_range]
        exact swap_lt hi hj hk'
      have hidx : (swapIdx (List.range s.length) i j).idxOf k = Equiv.swap i j k := by
        have hget : (swapIdx (List.range s.length) i j)[Equiv.swap i j k] = k := by
          simp only [getElem_swapIdx _ hi' hj', List.get_eq_getElem, List.getElem_range,
            Equiv.swap_apply_self]
        have := hnodup.idxOf_getElem _ hk
        rwa [hget] at this
      rw [List.getElem_map, List.getElem_range, hidx, getElem_swapIdx _ (hlen.symm ▸ hi)
        (hlen.symm ▸ hj), List.get_eq_getElem, List.getD_eq_getElem]
    have hin : InBounds (swapIdx c i j) s := by
      have hsw := hc.swapIdx (i := i) (j := j) (by simpa using hi) (by simpa using hj)
      have hself : swapIdx (swapIdx s i j) i j = s := by
        refine List.ext_getElem (by simp) fun k h₁ h₂ => ?_
        simp only [getElem_swapIdx (swapIdx s i j) (by simpa using hi) (by simpa using hj),
          List.get_eq_getElem, getElem_swapIdx _ hi hj, Equiv.swap_apply_self]
      rwa [hself] at hsw
    show t.get ((List.range t.shape.length).map _) = _
    rw [hread]
    exact h.get_eq _ hin

/-- An axis moved to the front. -/
theorem permute_front (h : t.Holds s f) {d : ℕ} (hd : d < s.length) :
    (t.permute (d :: (List.range s.length).eraseIdx d)).Holds (s.getD d 0 :: s.eraseIdx d)
      fun c => f (c.tail.insertIdx d (c.headD 0)) := by
  have hmap : ∀ l : List ℕ, l.length = s.length →
      (d :: (List.range s.length).eraseIdx d).map (l.getD · 0) = l.getD d 0 :: l.eraseIdx d := by
    intro l hl
    have hself : (List.range l.length).map (l.getD · 0) = l :=
      List.ext_getElem (by simp) fun k h₁ h₂ => by
        rw [List.getElem_map, List.getElem_range, List.getD_eq_getElem _ _ h₂]
    rw [List.map_cons, ← List.eraseIdx_map, ← hl, hself]
  have hperm : (d :: (List.range s.length).eraseIdx d).Perm (List.range s.length) := by
    have hd' : d < (List.range s.length).length := by simpa using hd
    have := List.getElem_cons_eraseIdx_perm hd'
    rwa [List.getElem_range] at this
  refine ⟨?_, fun c hc => ?_⟩
  · simp only [NdArray.permute]
    rw [h.shape_eq, hmap s rfl]
  · obtain _ | ⟨x, c⟩ := c
    · simp at hc
    obtain ⟨hx, hc⟩ := List.forall₂_cons.mp hc
    have hlen : c.length + 1 = s.length := by
      rw [InBounds.length hc, List.length_eraseIdx_of_lt hd]
      omega
    have hlen' : (c.insertIdx d x).length = s.length := by
      rw [List.length_insertIdx_of_le_length (by omega), hlen]
    have hin : InBounds (c.insertIdx d x) s := by
      have := InBounds.insertIdx hc (d := d) (by rw [List.length_eraseIdx_of_lt hd]; omega) hx
      rwa [List.getD_eq_getElem _ _ hd, List.insertIdx_eraseIdx_getElem hd] at this
    have hget := t.permute_get (c := c.insertIdx d x) (h.shape_eq.symm ▸ hperm)
      (h.shape_eq.symm ▸ hlen')
    rw [h.shape_eq, hmap _ hlen', List.eraseIdx_insertIdx_self, List.getD_eq_getElem _ _ (by omega),
      List.getElem_insertIdx_self] at hget
    rw [hget]
    exact h.get_eq _ hin

/-- The first axis moved to position `d`. -/
theorem permute_back {n : ℕ} (h : t.Holds (n :: s) f) {d : ℕ} (hd : d ≤ s.length) :
    (t.permute (((List.range s.length).map (· + 1)).insertIdx d 0)).Holds (s.insertIdx d n)
      fun c => f (c.getD d 0 :: c.eraseIdx d) := by
  have hlen : d ≤ ((List.range s.length).map (· + 1)).length := by simpa using hd
  have hmap : ∀ (x : ℕ) (l : List ℕ), l.length = s.length →
      (((List.range s.length).map (· + 1)).insertIdx d 0).map ((x :: l).getD · 0) =
        l.insertIdx d x := by
    intro x l hl
    have hself : (List.range l.length).map (l.getD · 0) = l :=
      List.ext_getElem (by simp) fun k h₁ h₂ => by
        rw [List.getElem_map, List.getElem_range, List.getD_eq_getElem _ _ h₂]
    rw [List.map_insertIdx, List.map_map, ← hl]
    simp only [Function.comp_def, List.getD_cons_succ, List.getD_cons_zero, hself]
  have hperm : (((List.range s.length).map (· + 1)).insertIdx d 0).Perm
      (List.range (n :: s).length) := by
    rw [List.length_cons, List.range_succ_eq_map]
    exact List.perm_insertIdx _ _ hlen
  refine ⟨?_, fun c hc => ?_⟩
  · simp only [NdArray.permute]
    rw [h.shape_eq, hmap n s rfl]
  · obtain ⟨c', x, rfl, -, hc', hx⟩ := InBounds.of_insertIdx hd hc
    have hd' : d ≤ c'.length := by rwa [InBounds.length hc']
    have hget := t.permute_get (c := x :: c') (h.shape_eq.symm ▸ hperm) (by
      rw [h.shape_eq, List.length_cons, List.length_cons, InBounds.length hc'])
    rw [hmap x c' (InBounds.length hc')] at hget
    have hlt : d < (c'.insertIdx d x).length := by
      rw [List.length_insertIdx_of_le_length hd']
      omega
    rw [hget, h.get_eq _ (.cons hx hc'), List.eraseIdx_insertIdx_self,
      List.getD_eq_getElem _ _ hlt, List.getElem_insertIdx_self]

/-- Unit axes added in front. -/
theorem lead (h : t.Holds s f) (k : ℕ) :
    (t.reshape (List.replicate k 1 ++ s)).Holds (List.replicate k 1 ++ s) fun c => f (c.drop k) := by
  refine h.reshape (fun c => c.drop k) fun c hc => ?_
  obtain ⟨c₁, c₂, rfl, h₁, h₂⟩ := InBounds.split hc
  have hlen : c₁.length = k := by simpa using InBounds.length h₁
  have hzero : c₁ = List.replicate k 0 := by
    refine List.eq_replicate_iff.mpr ⟨hlen, fun x hx => ?_⟩
    obtain ⟨i, hi, rfl⟩ := List.getElem_of_mem hx
    have := h₁.get hi (by simpa [hlen] using hi)
    simp only [List.get_eq_getElem, List.getElem_replicate] at this
    omega
  rw [List.drop_left' hlen, hzero]
  exact ((SamePosition.units k).append (.refl h₂)).symm

/-- Unit axes repeated. -/
theorem expand (h : t.Holds s f) {target : List ℕ}
    (hdims : List.Forall₂ (fun s n => s = n ∨ s = 1) s target) :
    (t.expand target).Holds target
      fun c => f (List.zipWith (fun s x => if s = 1 then 0 else x) s c) := by
  refine ⟨rfl, fun c hc => ?_⟩
  show t.get (List.zipWith _ t.shape c) = _
  rw [h.shape_eq]
  refine h.get_eq _ ?_
  clear h
  induction hdims generalizing c with
  | nil => simp
  | @cons d n s ns hd _ ih =>
    obtain _ | ⟨x, c⟩ := c
    · simp at hc
    obtain ⟨hx, hc⟩ := List.forall₂_cons.mp hc
    rw [List.zipWith_cons_cons]
    refine .cons ?_ (ih c hc)
    split <;> omega

/-- An array of the target shape already. -/
theorem expand_self (h : t.Holds s f) :
    t.Holds s fun c => f (List.zipWith (fun s x => if s = 1 then 0 else x) s c) :=
  h.congr fun c hc => by rw [expandCoords_self hc]

end Holds

end NdArray

end Svod.Lib
