/-
  Svod.Device.HcqSound

  The schedule of `scheduleDeviceLanes` is safe and runs to its end.

  `Placed` says what is true of one submission after the ones before it: its
  signal counts the commands of its lane so far, its waits name earlier
  submissions of other lanes, and they cover every hazard with an earlier
  command.  The raw submissions are placed, joining two neighbours of one lane
  keeps the rest placed whatever the limits are, and once the waits name
  published values the program is well ordered in the sense of `Lib.Lanes`.
-/

import Svod.Lib.Lanes
import Svod.Device.Hcq

namespace Svod.Device.Hcq

open Relation Svod.Lib

variable {waits : List LaneWait} {w : LaneWait} {lane : DeviceQueue} {op : Expanded}

/-! ## Wait lists -/

/-- `waits` makes its owner wait for `lane` at `value` or later. -/
def Covers (waits : List LaneWait) (lane : DeviceQueue) (value : ℕ) : Prop :=
  ∃ w ∈ waits, w.lane = lane ∧ value ≤ w.value

theorem noteWait_all {P : DeviceQueue → ℕ → Prop} (h : ∀ v ∈ waits, P v.lane v.value)
    (hw : P w.lane w.value) : ∀ v ∈ noteWait waits w, P v.lane v.value := by
  induction waits with
  | nil =>
    intro v hv
    rw [noteWait, List.mem_singleton] at hv
    rw [hv]
    exact hw
  | cons w' rest ih =>
    have hrest : ∀ v ∈ rest, P v.lane v.value := fun v hv => h v (List.mem_cons_of_mem _ hv)
    have hhead : P w'.lane w'.value := h w' List.mem_cons_self
    intro v hv
    rw [noteWait] at hv
    split at hv
    · next heq =>
      cases List.mem_cons.mp hv with
      | inl hv =>
        rw [hv]
        rcases Nat.le_total w'.value w.value with hle | hle
        · show P w'.lane (max w'.value w.value)
          rw [Nat.max_eq_right hle, heq]
          exact hw
        · show P w'.lane (max w'.value w.value)
          rw [Nat.max_eq_left hle]
          exact hhead
      | inr hv => exact hrest v hv
    · cases List.mem_cons.mp hv with
      | inl hv =>
        rw [hv]
        exact hhead
      | inr hv => exact ih hrest v hv

theorem noteWait_covers_old {value : ℕ} (h : Covers waits lane value) :
    Covers (noteWait waits w) lane value := by
  induction waits with
  | nil =>
    obtain ⟨_, hmem, _⟩ := h
    cases hmem
  | cons w' rest ih =>
    obtain ⟨v, hv, hl, hle⟩ := h
    rw [noteWait]
    split
    · cases List.mem_cons.mp hv with
      | inl hv =>
        subst hv
        exact ⟨_, List.mem_cons_self, hl, Nat.le_trans hle (Nat.le_max_left _ _)⟩
      | inr hv => exact ⟨v, List.mem_cons_of_mem _ hv, hl, hle⟩
    · cases List.mem_cons.mp hv with
      | inl hv => exact ⟨v, hv ▸ List.mem_cons_self, hl, hle⟩
      | inr hv =>
        obtain ⟨u, hu, hul, hule⟩ := ih ⟨v, hv, hl, hle⟩
        exact ⟨u, List.mem_cons_of_mem _ hu, hul, hule⟩

theorem noteWait_covers_new (waits : List LaneWait) (w : LaneWait) :
    Covers (noteWait waits w) w.lane w.value := by
  induction waits with
  | nil => exact ⟨w, List.mem_singleton.mpr rfl, rfl, Nat.le_refl _⟩
  | cons w' rest ih =>
    rw [noteWait]
    split
    · next heq => exact ⟨_, List.mem_cons_self, heq, Nat.le_max_right _ _⟩
    · obtain ⟨u, hu, hul, hule⟩ := ih
      exact ⟨u, List.mem_cons_of_mem _ hu, hul, hule⟩

theorem mergeWait_all {P : DeviceQueue → ℕ → Prop} (h : ∀ v ∈ waits, P v.lane v.value)
    (hw : P w.lane w.value) : ∀ v ∈ mergeWait waits w, P v.lane v.value := by
  intro v hv
  unfold mergeWait at hv
  split at hv
  · exact h v hv
  · cases List.mem_append.mp hv with
    | inl hv => exact h v (List.mem_of_mem_filter hv)
    | inr hv =>
      rw [List.mem_singleton.mp hv]
      exact hw

theorem mergeWait_covers_old {value : ℕ} (h : Covers waits lane value) :
    Covers (mergeWait waits w) lane value := by
  obtain ⟨v, hv, hl, hle⟩ := h
  unfold mergeWait
  split
  · exact ⟨v, hv, hl, hle⟩
  · next hnone =>
    by_cases hlane : v.lane = w.lane
    · -- `v` is dropped, so its value is below that of `w`
      have hlt : v.value < w.value := by
        by_contra hge
        apply hnone
        rw [List.any_eq_true]
        exact ⟨v, hv, by simp [hlane]; omega⟩
      refine ⟨w, List.mem_append_right _ (List.mem_singleton.mpr rfl), ?_, by omega⟩
      rw [← hlane]
      exact hl
    · refine ⟨v, List.mem_append_left _ ?_, hl, hle⟩
      rw [List.mem_filter]
      exact ⟨hv, by simpa using hlane⟩

theorem mergeWait_covers_new (waits : List LaneWait) (w : LaneWait) :
    Covers (mergeWait waits w) w.lane w.value := by
  unfold mergeWait
  split
  · next hany =>
    obtain ⟨v, hv, hvw⟩ := List.any_eq_true.mp hany
    simp only [Bool.and_eq_true, decide_eq_true_eq] at hvw
    exact ⟨v, hv, hvw.1, hvw.2⟩
  · exact ⟨w, List.mem_append_right _ (List.mem_singleton.mpr rfl), rfl, Nat.le_refl _⟩

theorem sortWaits_mem : w ∈ sortWaits waits ↔ w ∈ waits :=
  List.mem_insertionSort laneLe

theorem sortWaits_covers {value : ℕ} :
    Covers (sortWaits waits) lane value ↔ Covers waits lane value := by
  unfold Covers
  simp only [sortWaits_mem]

/-- Folding `note` over `ws` keeps what holds of every wait. -/
theorem foldl_waits_all (note : List LaneWait → LaneWait → List LaneWait)
    (hnote : ∀ {P : DeviceQueue → ℕ → Prop} {waits : List LaneWait} {w : LaneWait},
      (∀ v ∈ waits, P v.lane v.value) → P w.lane w.value → ∀ v ∈ note waits w, P v.lane v.value)
    {P : DeviceQueue → ℕ → Prop} (ws : List LaneWait) (hws : ∀ w ∈ ws, P w.lane w.value) :
    ∀ waits : List LaneWait, (∀ v ∈ waits, P v.lane v.value) →
      ∀ v ∈ ws.foldl note waits, P v.lane v.value := by
  induction ws with
  | nil =>
    intro waits h
    exact h
  | cons w rest ih =>
    intro waits h
    apply ih (fun w' hw' => hws w' (List.mem_cons_of_mem _ hw'))
    exact hnote h (hws w List.mem_cons_self)

/-- Folding `note` over `ws` covers what was covered before and every wait of `ws`. -/
theorem foldl_waits_covers {note : List LaneWait → LaneWait → List LaneWait}
    (hold : ∀ {waits : List LaneWait} {w : LaneWait} {lane : DeviceQueue} {value : ℕ},
      Covers waits lane value → Covers (note waits w) lane value)
    (hnew : ∀ (waits : List LaneWait) (w : LaneWait), Covers (note waits w) w.lane w.value)
    {value : ℕ} (ws : List LaneWait) :
    ∀ waits : List LaneWait, Covers waits lane value ∨ Covers ws lane value →
      Covers (ws.foldl note waits) lane value := by
  induction ws with
  | nil =>
    rintro waits (h | ⟨_, hmem, _⟩)
    · exact h
    · cases hmem
  | cons w rest ih =>
    rintro waits (h | ⟨v, hv, hl, hle⟩)
    · exact ih _ (Or.inl (hold h))
    · cases List.mem_cons.mp hv with
      | inl hv =>
        subst hv
        obtain ⟨u, hu, hul, hule⟩ := hnew waits v
        exact ih _ (Or.inl ⟨u, hu, hul.trans hl, by omega⟩)
      | inr hv => exact ih _ (Or.inr ⟨v, hv, hl, hle⟩)

/-! ## Hazards of one leg -/

/-- The waits a leg can need, one for each hazardous producer of another lane. -/
def hazardWaits (prior : List (Expanded × ℕ)) (op : Expanded) : List LaneWait :=
  (prior.filter fun p => decide (p.1.lane ≠ op.lane ∧ hazard p.1 op = true)).map fun p =>
    { lane := p.1.lane, value := p.2 }

theorem latestHazards_eq (prior : List (Expanded × ℕ)) (op : Expanded) :
    latestHazards prior op = (hazardWaits prior op).foldl noteWait [] := by
  unfold latestHazards hazardWaits
  rw [List.foldl_map, List.foldl_filter]
  simp only [decide_eq_true_eq]

theorem latestHazards_source {prior : List (Expanded × ℕ)} (hw : w ∈ latestHazards prior op) :
    ∃ p ∈ prior, p.1.lane = w.lane ∧ p.2 = w.value ∧ p.1.lane ≠ op.lane := by
  rw [latestHazards_eq] at hw
  refine foldl_waits_all noteWait
    (P := fun l v => ∃ p ∈ prior, p.1.lane = l ∧ p.2 = v ∧ p.1.lane ≠ op.lane)
    (fun h hw => noteWait_all h hw) _ ?_ [] (by simp) w hw
  intro w' hw'
  obtain ⟨p, hp, hpw⟩ := List.mem_map.mp hw'
  obtain ⟨hmem, hcond⟩ := List.mem_filter.mp hp
  subst hpw
  exact ⟨p, hmem, rfl, rfl, (of_decide_eq_true hcond).1⟩

theorem latestHazards_covers {prior : List (Expanded × ℕ)} {p : Expanded × ℕ} (hp : p ∈ prior)
    (hlane : p.1.lane ≠ op.lane) (hhaz : hazard p.1 op = true) :
    Covers (latestHazards prior op) p.1.lane p.2 := by
  rw [latestHazards_eq]
  apply foldl_waits_covers noteWait_covers_old noteWait_covers_new
  right
  refine ⟨{ lane := p.1.lane, value := p.2 }, ?_, rfl, Nat.le_refl _⟩
  apply List.mem_map.mpr
  refine ⟨p, ?_, rfl⟩
  rw [List.mem_filter]
  exact ⟨hp, decide_eq_true ⟨hlane, hhaz⟩⟩

/-! ## Placed submissions -/

/-- The commands `subs` gives to `lane`. -/
def laneCount (lane : DeviceQueue) (subs : List LaneSubmission) : ℕ :=
  (subs.map fun s => if s.lane = lane then s.commands.length else 0).sum

theorem laneCount_append (lane : DeviceQueue) (xs ys : List LaneSubmission) :
    laneCount lane (xs ++ ys) = laneCount lane xs + laneCount lane ys := by
  unfold laneCount
  rw [List.map_append, List.sum_append]

theorem laneCount_cons (lane : DeviceQueue) (s : LaneSubmission) (ys : List LaneSubmission) :
    laneCount lane (s :: ys)
      = (if s.lane = lane then s.commands.length else 0) + laneCount lane ys := by
  unfold laneCount
  rw [List.map_cons, List.sum_cons]

/-- `t` waits for every hazard between a command of `r` and one of its own, when the lanes do not
    order them.  The wait may name any value of the batch `r` publishes at its end. -/
def CoversHazards (legs : List Expanded) (r t : LaneSubmission) : Prop :=
  ∀ x ∈ legs, ∀ y ∈ legs, x.command ∈ r.commands → y.command ∈ t.commands →
    hazard x y = true → r.lane ≠ t.lane →
    ∃ w ∈ t.waits, w.lane = r.lane ∧ r.signalValue < w.value + r.commands.length

/-- What holds of `t` when `earlier` are the submissions before it. -/
structure Placed (legs : List Expanded) (earlier : List LaneSubmission) (t : LaneSubmission) :
    Prop where
  signal : t.signalValue = laneCount t.lane earlier + t.commands.length
  nonempty : t.commands ≠ []
  source : ∀ w ∈ t.waits, w.lane ≠ t.lane ∧
    ∃ r ∈ earlier, r.lane = w.lane ∧ w.value ≤ r.signalValue
  hazards : ∀ r ∈ earlier, CoversHazards legs r t

def PlacedFrom (legs : List Expanded) (earlier : List LaneSubmission) :
    List LaneSubmission → Prop
  | [] => True
  | t :: rest => Placed legs earlier t ∧ PlacedFrom legs (earlier ++ [t]) rest

theorem placedFrom_append {legs : List Expanded} {xs ys : List LaneSubmission} :
    ∀ {earlier : List LaneSubmission}, PlacedFrom legs earlier (xs ++ ys) ↔
      PlacedFrom legs earlier xs ∧ PlacedFrom legs (earlier ++ xs) ys := by
  induction xs with
  | nil =>
    intro earlier
    simp [PlacedFrom]
  | cons t rest ih =>
    intro earlier
    simp only [List.cons_append, PlacedFrom]
    rw [ih, List.append_assoc, List.singleton_append]
    tauto

variable {post pre : List LaneSubmission} {t : LaneSubmission}

theorem placed_split {legs : List Expanded} (h : PlacedFrom legs [] (pre ++ t :: post)) :
    Placed legs pre t := by
  have hpost := (placedFrom_append.mp h).2
  rw [List.nil_append] at hpost
  exact hpost.1

/-- The signal of an earlier submission of a lane leaves room for the commands in between. -/
theorem signal_spaced {legs : List Expanded} {pre mid post : List LaneSubmission}
    {q r : LaneSubmission} (h : PlacedFrom legs [] (pre ++ q :: (mid ++ r :: post)))
    (hlane : q.lane = r.lane) : q.signalValue + r.commands.length ≤ r.signalValue := by
  have hq := (placed_split h).signal
  have hsplit : pre ++ q :: (mid ++ r :: post) = (pre ++ q :: mid) ++ r :: post := by simp
  rw [hsplit] at h
  have hr := (placed_split h).signal
  rw [laneCount_append, laneCount_cons, if_pos hlane] at hr
  rw [hlane] at hq
  omega

theorem signals_pairwise {legs : List Expanded} {subs : List LaneSubmission}
    (h : PlacedFrom legs [] subs) : subs.Pairwise fun q r =>
      q.lane = r.lane → q.signalValue + r.commands.length ≤ r.signalValue := by
  rw [List.pairwise_iff_forall_sublist]
  intro q r hsub hlane
  obtain ⟨pre, rest, hpre, hq, hrest⟩ := List.cons_sublist_iff.mp hsub
  subst hpre
  obtain ⟨p1, p2, hp⟩ := List.append_of_mem hq
  obtain ⟨r1, r2, hr⟩ := List.append_of_mem (List.singleton_sublist.mp hrest)
  subst hp hr
  have hsplit : (p1 ++ q :: p2) ++ (r1 ++ r :: r2) = p1 ++ q :: ((p2 ++ r1) ++ r :: r2) := by simp
  rw [hsplit] at h
  exact signal_spaced h hlane

/-- The first value of `r` lies above the signals before it: a submission of the lane whose signal
    reaches into `r` is `r` itself or comes later. -/
theorem signal_le_of_reaches {legs : List Expanded} {subs : List LaneSubmission}
    (h : PlacedFrom legs [] subs) {q r : LaneSubmission} (hq : q ∈ subs) (hr : r ∈ subs)
    (hlane : q.lane = r.lane) (hreach : r.signalValue < q.signalValue + r.commands.length) :
    r.signalValue ≤ q.signalValue := by
  have hpair := signals_pairwise h
  obtain ⟨i, hi, hqi⟩ := List.mem_iff_getElem.mp hq
  obtain ⟨j, hj, hrj⟩ := List.mem_iff_getElem.mp hr
  rcases Nat.lt_trichotomy i j with hlt | heq | hgt
  · have hsp := List.pairwise_iff_getElem.mp hpair i j hi hj hlt
    rw [hqi, hrj] at hsp
    have := hsp hlane
    omega
  · subst heq
    rw [← hqi, ← hrj]
  · have hsp := List.pairwise_iff_getElem.mp hpair j i hj hi hgt
    rw [hqi, hrj] at hsp
    have := hsp hlane.symm
    omega

/-! ## Joining two neighbours -/

/-- `after` says at least as much to later submissions as `before` did. -/
structure Absorbs (before after : List LaneSubmission) : Prop where
  count : ∀ lane, laneCount lane after = laneCount lane before
  source : ∀ r ∈ before, ∃ r' ∈ after, r'.lane = r.lane ∧ r.signalValue ≤ r'.signalValue
  hazards : ∀ r' ∈ after, ∀ c ∈ r'.commands, ∃ r ∈ before, r.lane = r'.lane ∧ c ∈ r.commands ∧
    ∀ v, r.signalValue < v + r.commands.length → r'.signalValue < v + r'.commands.length

theorem absorbs_concat {before after : List LaneSubmission} (h : Absorbs before after)
    (t : LaneSubmission) : Absorbs (before ++ [t]) (after ++ [t]) where
  count := by
    intro lane
    rw [laneCount_append, laneCount_append, h.count lane]
  source := by
    intro r hr
    cases List.mem_append.mp hr with
    | inl hr =>
      obtain ⟨r', hr', hl, hle⟩ := h.source r hr
      exact ⟨r', List.mem_append_left _ hr', hl, hle⟩
    | inr hr => exact ⟨r, List.mem_append_right _ hr, rfl, Nat.le_refl _⟩
  hazards := by
    intro r' hr' c hc
    cases List.mem_append.mp hr' with
    | inl hr' =>
      obtain ⟨r, hr, hl, hcr, hv⟩ := h.hazards r' hr' c hc
      exact ⟨r, List.mem_append_left _ hr, hl, hcr, hv⟩
    | inr hr' => exact ⟨r', List.mem_append_right _ hr', rfl, hc, fun _ hlt => hlt⟩

theorem placed_absorbs {legs : List Expanded} {before after : List LaneSubmission}
    (h : Absorbs before after) (ht : Placed legs before t) :
    Placed legs after t where
  signal := by
    rw [h.count]
    exact ht.signal
  nonempty := ht.nonempty
  source := by
    intro w hw
    obtain ⟨hne, r, hr, hl, hle⟩ := ht.source w hw
    obtain ⟨r', hr', hl', hle'⟩ := h.source r hr
    exact ⟨hne, r', hr', hl'.trans hl, by omega⟩
  hazards := by
    intro r' hr' x hx y hy hxr hyt hhaz hne
    obtain ⟨r, hr, hl, hcr, hv⟩ := h.hazards r' hr' x.command hxr
    rw [← hl] at hne
    obtain ⟨w, hw, hwl, hlt⟩ := ht.hazards r hr x hx y hy hcr hyt hhaz hne
    exact ⟨w, hw, hwl.trans hl, hv w.value hlt⟩

theorem placedFrom_absorbs {legs : List Expanded} :
    ∀ {before after : List LaneSubmission}, Absorbs before after →
      PlacedFrom legs before post → PlacedFrom legs after post := by
  induction post with
  | nil =>
    intro _ _ _ _
    exact trivial
  | cons t rest ih =>
    intro before after h hplaced
    exact ⟨placed_absorbs h hplaced.1, ih (absorbs_concat h t) hplaced.2⟩

variable {last s : LaneSubmission}

/-- Two neighbours of one lane number their commands without a gap. -/
theorem neighbour_signal {legs : List Expanded} {earlier : List LaneSubmission}
    (hlast : Placed legs earlier last) (hs : Placed legs (earlier ++ [last]) s)
    (hlane : last.lane = s.lane) : s.signalValue = last.signalValue + s.commands.length := by
  have h1 := hlast.signal
  have h2 := hs.signal
  rw [laneCount_append, laneCount_cons, if_pos hlane] at h2
  rw [hlane] at h1
  have hnil : laneCount s.lane [] = 0 := rfl
  omega

theorem absorbs_join {legs : List Expanded} {earlier : List LaneSubmission}
    (hlast : Placed legs earlier last) (hs : Placed legs (earlier ++ [last]) s)
    (hlane : last.lane = s.lane) :
    Absorbs (earlier ++ [last] ++ [s]) (earlier ++ [appendSubmission last s]) where
  count := by
    intro lane
    have hnil : laneCount lane [] = 0 := rfl
    simp only [laneCount_append, laneCount_cons, appendSubmission, List.length_append]
    rw [← hlane]
    split
    · omega
    · omega
  source := by
    have hsig := neighbour_signal hlast hs hlane
    intro r hr
    rw [List.append_assoc] at hr
    cases List.mem_append.mp hr with
    | inl hr => exact ⟨r, List.mem_append_left _ hr, rfl, Nat.le_refl _⟩
    | inr hr =>
      refine ⟨appendSubmission last s, List.mem_append_right _ (List.mem_singleton.mpr rfl), ?_⟩
      rcases List.mem_cons.mp hr with hr | hr
      · rw [hr]
        exact ⟨rfl, by show last.signalValue ≤ s.signalValue; omega⟩
      · rw [List.mem_singleton.mp hr]
        exact ⟨hlane, Nat.le_refl _⟩
  hazards := by
    have hsig := neighbour_signal hlast hs hlane
    intro r' hr' c hc
    cases List.mem_append.mp hr' with
    | inl hr' =>
      refine ⟨r', ?_, rfl, hc, fun _ hlt => hlt⟩
      exact List.mem_append_left _ (List.mem_append_left _ hr')
    | inr hr' =>
      rw [List.mem_singleton.mp hr'] at hc ⊢
      have hlen : (appendSubmission last s).commands.length
          = last.commands.length + s.commands.length := List.length_append
      have hval : (appendSubmission last s).signalValue = s.signalValue := rfl
      cases List.mem_append.mp hc with
      | inl hc =>
        refine ⟨last, List.mem_append_left _ (by simp), rfl, hc, ?_⟩
        intro v hlt
        omega
      | inr hc =>
        refine ⟨s, List.mem_append_right _ (by simp), hlane.symm, hc, ?_⟩
        intro v hlt
        omega

theorem placed_join {legs : List Expanded} {earlier : List LaneSubmission}
    (hlast : Placed legs earlier last) (hs : Placed legs (earlier ++ [last]) s)
    (hlane : last.lane = s.lane) :
    Placed legs earlier (appendSubmission last s) where
  signal := by
    have hsig := neighbour_signal hlast hs hlane
    have hsignal := hlast.signal
    show s.signalValue = laneCount last.lane earlier + (last.commands ++ s.commands).length
    rw [List.length_append]
    omega
  nonempty := List.append_ne_nil_of_left_ne_nil hlast.nonempty _
  source := by
    apply foldl_waits_all mergeWait
      (P := fun l v => l ≠ last.lane ∧ ∃ r ∈ earlier, r.lane = l ∧ v ≤ r.signalValue)
      (fun h hw => mergeWait_all h hw)
    · intro w hw
      obtain ⟨hne, r, hr, hl, hle⟩ := hs.source w hw
      rw [← hlane] at hne
      refine ⟨hne, r, ?_, hl, hle⟩
      -- `last` runs on the lane of `s`, so it is not what `s` waits for
      cases List.mem_append.mp hr with
      | inl hr => exact hr
      | inr hr =>
        rw [List.mem_singleton.mp hr] at hl
        exact absurd hl.symm hne
    · exact hlast.source
  hazards := by
    intro r hr x hx y hy hxr hyt hhaz hne
    have hcovers : ∃ v, (Covers last.waits r.lane v ∨ Covers s.waits r.lane v) ∧
        r.signalValue < v + r.commands.length := by
      cases List.mem_append.mp hyt with
      | inl hyl =>
        obtain ⟨w, hw, hwl, hlt⟩ := hlast.hazards r hr x hx y hy hxr hyl hhaz hne
        exact ⟨w.value, Or.inl ⟨w, hw, hwl, Nat.le_refl _⟩, hlt⟩
      | inr hys =>
        have hne' : r.lane ≠ s.lane := by
          rw [← hlane]
          exact hne
        obtain ⟨w, hw, hwl, hlt⟩ :=
          hs.hazards r (List.mem_append_left _ hr) x hx y hy hxr hys hhaz hne'
        exact ⟨w.value, Or.inr ⟨w, hw, hwl, Nat.le_refl _⟩, hlt⟩
    obtain ⟨v, hcov, hlt⟩ := hcovers
    obtain ⟨w, hw, hwl, hle⟩ := foldl_waits_covers mergeWait_covers_old
      mergeWait_covers_new s.waits last.waits hcov
    exact ⟨w, hw, hwl, by omega⟩

/-- Joining two neighbours of one lane keeps a list placed. -/
theorem placedFrom_join {legs : List Expanded} (h : PlacedFrom legs [] (pre ++ last :: s :: post))
    (hlane : last.lane = s.lane) :
    PlacedFrom legs [] (pre ++ appendSubmission last s :: post) := by
  rw [placedFrom_append, List.nil_append] at h ⊢
  obtain ⟨hpre, hlast, hs, hpost⟩ := h
  exact ⟨hpre, placed_join hlast hs hlane,
    placedFrom_absorbs (absorbs_join hlast hs hlane) hpost⟩

/-! ## The merge loop -/

/-- The submissions while the merge loop runs: merged ones first, then the raw ones not yet seen. -/
def mergeView (merged : List (LaneSubmission × ℕ)) (rest : List LaneSubmission) :
    List LaneSubmission :=
  (merged.reverse.map Prod.fst) ++ rest

theorem mergeView_cons (last : LaneSubmission) (count : ℕ) (merged : List (LaneSubmission × ℕ))
    (rest : List LaneSubmission) :
    mergeView ((last, count) :: merged) rest = mergeView merged (last :: rest) := by
  simp [mergeView]

theorem mergeStep_placed {legs : List Expanded} {limits : QueueMergeLimits}
    {merged : List (LaneSubmission × ℕ)} {rest : List LaneSubmission}
    (h : PlacedFrom legs [] (mergeView merged (s :: rest))) :
    PlacedFrom legs [] (mergeView (mergeStep limits merged s) rest) := by
  cases merged with
  | nil => exact h
  | cons m ms =>
    obtain ⟨last, count⟩ := m
    unfold mergeStep
    dsimp only
    split
    · next happ =>
      have hlane : last.lane = s.lane := by
        unfold canAppend at happ
        simp only [Bool.and_eq_true, decide_eq_true_eq] at happ
        exact happ.1.1
      rw [mergeView_cons] at h ⊢
      exact placedFrom_join h hlane
    · rw [mergeView_cons]
      exact h

theorem mergeStep_commands (limits : QueueMergeLimits) (merged : List (LaneSubmission × ℕ))
    (s : LaneSubmission) (rest : List LaneSubmission) :
    (mergeView (mergeStep limits merged s) rest).flatMap LaneSubmission.commands
      = (mergeView merged (s :: rest)).flatMap LaneSubmission.commands := by
  cases merged with
  | nil => rfl
  | cons m ms =>
    obtain ⟨last, count⟩ := m
    unfold mergeStep
    dsimp only
    split
    · rw [mergeView_cons, mergeView_cons]
      simp [mergeView, appendSubmission]
    · rw [mergeView_cons]

theorem mergeLoop_placed {legs : List Expanded} {limits : QueueMergeLimits}
    (raw : List LaneSubmission) : ∀ merged : List (LaneSubmission × ℕ),
      PlacedFrom legs [] (mergeView merged raw) →
      PlacedFrom legs [] (mergeView (raw.foldl (mergeStep limits) merged) []) := by
  induction raw with
  | nil =>
    intro merged h
    exact h
  | cons s rest ih =>
    intro merged h
    exact ih _ (mergeStep_placed h)

theorem mergeLoop_commands {limits : QueueMergeLimits} (raw : List LaneSubmission) :
    ∀ merged : List (LaneSubmission × ℕ),
      (mergeView (raw.foldl (mergeStep limits) merged) []).flatMap LaneSubmission.commands
        = (mergeView merged raw).flatMap LaneSubmission.commands := by
  induction raw with
  | nil =>
    intro merged
    rfl
  | cons s rest ih =>
    intro merged
    rw [List.foldl_cons, ih, mergeStep_commands]

theorem mergeSubmissions_eq (limits : QueueMergeLimits) (raw : List LaneSubmission) :
    mergeSubmissions limits raw = mergeView (raw.foldl (mergeStep limits) []) [] := by
  unfold mergeSubmissions mergeView
  rw [List.append_nil]

theorem mergeSubmissions_placed {legs : List Expanded} (limits : QueueMergeLimits)
    {raw : List LaneSubmission} (h : PlacedFrom legs [] raw) :
    PlacedFrom legs [] (mergeSubmissions limits raw) := by
  rw [mergeSubmissions_eq]
  exact mergeLoop_placed raw [] h

theorem mergeSubmissions_commands (limits : QueueMergeLimits) (raw : List LaneSubmission) :
    (mergeSubmissions limits raw).flatMap LaneSubmission.commands
      = raw.flatMap LaneSubmission.commands := by
  rw [mergeSubmissions_eq]
  exact mergeLoop_commands raw []

/-! ## The raw submissions -/

/-- Submission `r` was made for the numbered leg `p`. -/
def MadeFor (p : Expanded × ℕ) (r : LaneSubmission) : Prop :=
  r.lane = p.1.lane ∧ r.commands = [p.1.command] ∧ r.signalValue = p.2

/-- The state of the numbering loop after the legs `seen`. -/
structure RawInv (legs seen : List Expanded) (s : RawState) : Prop where
  placed : PlacedFrom legs [] s.raw
  commands : s.raw.flatMap LaneSubmission.commands = seen.map Expanded.command
  sequence : ∀ lane, s.sequence lane = laneCount lane s.raw
  ofPrior : ∀ p ∈ s.prior, p.1 ∈ legs ∧ ∃ r ∈ s.raw, MadeFor p r
  ofRaw : ∀ r ∈ s.raw, ∃ p ∈ s.prior, MadeFor p r

theorem initial_rawInv (legs : List Expanded) : RawInv legs [] RawState.initial where
  placed := trivial
  commands := rfl
  sequence := fun _ => rfl
  ofPrior := by
    intro p hp
    cases hp
  ofRaw := by
    intro r hr
    cases hr

theorem command_inj {legs : List Expanded} (hnodup : (legs.map Expanded.command).Nodup)
    {x y : Expanded} (hx : x ∈ legs) (hy : y ∈ legs) (h : x.command = y.command) : x = y :=
  List.inj_on_of_nodup_map hnodup hx hy h

theorem rawStep_placed {legs seen : List Expanded} {s : RawState}
    (hnodup : (legs.map Expanded.command).Nodup) (hop : op ∈ legs) (hi : RawInv legs seen s) :
    Placed legs s.raw
      { lane := op.lane
        waits := sortWaits (latestHazards s.prior op)
        commands := [op.command]
        signalValue := s.sequence op.lane + 1 } where
  signal := by
    rw [hi.sequence]
    rfl
  nonempty := by simp
  source := by
    intro w hw
    obtain ⟨p, hp, hl, hv, hne⟩ := latestHazards_source (sortWaits_mem.mp hw)
    obtain ⟨_, r, hr, hrl, _, hrv⟩ := hi.ofPrior p hp
    rw [← hl]
    exact ⟨hne, r, hr, hrl, by omega⟩
  hazards := by
    intro r hr x hx y hy hxr hyt hhaz hne
    obtain ⟨p, hp, hrl, hrc, hrv⟩ := hi.ofRaw r hr
    -- the commands name their legs, so the hazard is one of `p` and `op`
    have hxp : x = p.1 := by
      rw [hrc] at hxr
      exact command_inj hnodup hx (hi.ofPrior p hp).1 (List.mem_singleton.mp hxr)
    have hyo : y = op := command_inj hnodup hy hop (List.mem_singleton.mp hyt)
    subst hxp hyo
    rw [hrl] at hne
    obtain ⟨w, hw, hwl, hle⟩ := sortWaits_covers.mpr (latestHazards_covers hp hne hhaz)
    refine ⟨w, hw, hwl.trans hrl.symm, ?_⟩
    rw [hrc, hrv, List.length_singleton]
    omega

theorem rawStep_inv {legs seen : List Expanded} {s : RawState}
    (hnodup : (legs.map Expanded.command).Nodup) (hop : op ∈ legs) (hi : RawInv legs seen s) :
    RawInv legs (seen ++ [op]) (rawStep s op) where
  placed := by
    show PlacedFrom legs [] (s.raw ++ [_])
    rw [placedFrom_append, List.nil_append]
    exact ⟨hi.placed, rawStep_placed hnodup hop hi, trivial⟩
  commands := by
    show (s.raw ++ [_]).flatMap LaneSubmission.commands = _
    rw [List.flatMap_append, hi.commands, List.map_append]
    rfl
  sequence := by
    intro lane
    show Function.update s.sequence op.lane (s.sequence op.lane + 1) lane
      = laneCount lane (s.raw ++ [_])
    rw [laneCount_append, laneCount_cons]
    dsimp only
    by_cases h : lane = op.lane
    · subst h
      rw [Function.update_self, if_pos rfl, hi.sequence]
      rfl
    · rw [Function.update_of_ne h, if_neg (Ne.symm h), hi.sequence]
      rfl
  ofPrior := by
    intro p hp
    cases List.mem_append.mp hp with
    | inl hp =>
      obtain ⟨hmem, r, hr, hmade⟩ := hi.ofPrior p hp
      exact ⟨hmem, r, List.mem_append_left _ hr, hmade⟩
    | inr hp =>
      rw [List.mem_singleton.mp hp]
      exact ⟨hop, _, List.mem_append_right _ (List.mem_singleton.mpr rfl), rfl, rfl, rfl⟩
  ofRaw := by
    intro r hr
    cases List.mem_append.mp hr with
    | inl hr =>
      obtain ⟨p, hp, hmade⟩ := hi.ofRaw r hr
      exact ⟨p, List.mem_append_left _ hp, hmade⟩
    | inr hr =>
      rw [List.mem_singleton.mp hr]
      exact ⟨_, List.mem_append_right _ (List.mem_singleton.mpr rfl), rfl, rfl, rfl⟩

theorem rawLoop_inv {legs : List Expanded} (hnodup : (legs.map Expanded.command).Nodup)
    (rest : List Expanded) : ∀ (seen : List Expanded) (s : RawState), (∀ op ∈ rest, op ∈ legs) →
      RawInv legs seen s → RawInv legs (seen ++ rest) (rest.foldl rawStep s) := by
  induction rest with
  | nil =>
    intro seen s _ hi
    rw [List.append_nil]
    exact hi
  | cons op ops ih =>
    intro seen s hmem hi
    have hstep := rawStep_inv hnodup (hmem op List.mem_cons_self) hi
    have hrest := ih (seen ++ [op]) (rawStep s op)
      (fun x hx => hmem x (List.mem_cons_of_mem _ hx)) hstep
    rw [List.append_assoc, List.singleton_append] at hrest
    exact hrest

theorem rawSubmissions_inv {legs : List Expanded} (hnodup : (legs.map Expanded.command).Nodup) :
    RawInv legs legs (legs.foldl rawStep RawState.initial) := by
  have h := rawLoop_inv hnodup legs [] RawState.initial (fun _ hop => hop) (initial_rawInv legs)
  rw [List.nil_append] at h
  exact h

/-! ## Published waits -/

variable {r : LaneSubmission}

/-- With a source before it, a wait is rewritten to the signal of an earlier submission. -/
theorem publishedValue_source (post : List LaneSubmission) (hr : r ∈ pre) (hl : r.lane = w.lane)
    (hle : w.value ≤ r.signalValue) :
    ∃ q ∈ pre, q.lane = w.lane ∧ w.value ≤ q.signalValue ∧
      publishedValue (pre ++ post) w = q.signalValue := by
  unfold publishedValue
  rw [List.find?_append]
  cases hfind : pre.find? fun producer =>
      decide (producer.lane = w.lane) && decide (w.value ≤ producer.signalValue) with
  | none =>
    have hno := List.find?_eq_none.mp hfind r hr
    simp [hl, hle] at hno
  | some q =>
    have hq := List.find?_some hfind
    simp only [Bool.and_eq_true, decide_eq_true_eq] at hq
    exact ⟨q, List.mem_of_find?_eq_some hfind, hq.1, hq.2, rfl⟩

/-- The waits of `rewriteWaits` before they are sorted, as a fold over a list of waits. -/
theorem rewriteWaits_waits (merged : List LaneSubmission) (t : LaneSubmission) :
    (rewriteWaits merged t).waits = sortWaits
      ((t.waits.map fun w => { lane := w.lane, value := publishedValue merged w }).foldl
        noteWait []) := by
  unfold rewriteWaits
  rw [List.foldl_map]

/-- Every wait of a placed submission ends up at the signal of an earlier one. -/
theorem rewriteWaits_source {legs : List Expanded} (ht : Placed legs pre t) (w : LaneWait)
    (hw : w ∈ (rewriteWaits (pre ++ post) t).waits) :
    ∃ q ∈ pre, q.lane = w.lane ∧ q.signalValue = w.value := by
  rw [rewriteWaits_waits, sortWaits_mem] at hw
  refine foldl_waits_all noteWait
    (P := fun l v => ∃ q ∈ pre, q.lane = l ∧ q.signalValue = v)
    (fun h hw => noteWait_all h hw) _ ?_ [] (by simp) w hw
  intro w' hw'
  obtain ⟨u, hu, huw⟩ := List.mem_map.mp hw'
  subst huw
  obtain ⟨_, r, hr, hrl, hrv⟩ := ht.source u hu
  obtain ⟨q, hq, hql, _, hqv⟩ := publishedValue_source post hr hrl hrv
  exact ⟨q, hq, hql, hqv.symm⟩

/-- A hazard with an earlier submission leads to a wait for its signal, or a later one. -/
theorem rewriteWaits_hazard {legs : List Expanded} (h : PlacedFrom legs [] (pre ++ t :: post))
    (hr : r ∈ pre) {x y : Expanded} (hx : x ∈ legs) (hy : y ∈ legs) (hxr : x.command ∈ r.commands)
    (hyt : y.command ∈ t.commands) (hhaz : hazard x y = true) (hne : r.lane ≠ t.lane) :
    ∃ w ∈ (rewriteWaits (pre ++ t :: post) t).waits, w.lane = r.lane ∧
      r.signalValue ≤ w.value := by
  have ht := placed_split h
  obtain ⟨w, hw, hwl, hreach⟩ := ht.hazards r hr x hx y hy hxr hyt hhaz hne
  obtain ⟨_, r', hr', hrl', hrv'⟩ := ht.source w hw
  obtain ⟨q, hq, hql, hqv, hpub⟩ := publishedValue_source (t :: post) hr' hrl' hrv'
  have hrq : r.signalValue ≤ q.signalValue := by
    apply signal_le_of_reaches h (List.mem_append_left _ hq) (List.mem_append_left _ hr)
    · rw [hql, hwl]
    · omega
  have hcov : Covers (rewriteWaits (pre ++ t :: post) t).waits w.lane q.signalValue := by
    rw [rewriteWaits_waits, sortWaits_covers]
    apply foldl_waits_covers noteWait_covers_old noteWait_covers_new
    right
    refine ⟨{ lane := w.lane, value := publishedValue (pre ++ t :: post) w }, ?_, rfl, ?_⟩
    · exact List.mem_map.mpr ⟨w, hw, rfl⟩
    · rw [hpub]
  obtain ⟨u, hu, hul, hle⟩ := hcov
  exact ⟨u, hu, hul.trans hwl, by omega⟩

/-! ## The schedule as a lane program -/

def LaneSubmission.toSubmission (s : LaneSubmission) :
    Lanes.Submission DeviceQueue TopologyCommand :=
  { lane := s.lane
    waits := s.waits.map fun w => (w.lane, w.value)
    commands := s.commands
    signal := s.signalValue }

/-- The submissions as a program whose runs `Lib.Lanes` defines. -/
def laneProgram (subs : List LaneSubmission) :
    List (Lanes.Submission DeviceQueue TopologyCommand) :=
  subs.map LaneSubmission.toSubmission

theorem laneProgram_commands (subs : List LaneSubmission) :
    (laneProgram subs).flatMap Lanes.Submission.commands
      = subs.flatMap LaneSubmission.commands := by
  unfold laneProgram
  rw [List.flatMap_map]
  rfl

section Published

variable {legs : List Expanded} {merged : List LaneSubmission}

/-- The submissions `scheduleDeviceLanes` returns for the merged ones. -/
def published (merged : List LaneSubmission) : List LaneSubmission :=
  merged.map (rewriteWaits merged)

theorem published_commands (merged : List LaneSubmission) :
    (published merged).flatMap LaneSubmission.commands
      = merged.flatMap LaneSubmission.commands := by
  unfold published
  rw [List.flatMap_map]
  rfl

theorem split_at {b : ℕ} (ht : merged[b]? = some t) :
    merged = merged.take b ++ t :: merged.drop (b + 1) := by
  obtain ⟨hb, heq⟩ := List.getElem?_eq_some_iff.mp ht
  rw [← heq, List.getElem_cons_drop, List.take_append_drop]

theorem published_getElem? {b : ℕ} {t' : LaneSubmission} (h : (published merged)[b]? = some t') :
    ∃ t, merged[b]? = some t ∧ rewriteWaits merged t = t' := by
  unfold published at h
  rw [List.getElem?_map] at h
  exact Option.map_eq_some_iff.mp h

/-- Every wait names a value that an earlier submission publishes. -/
theorem published_waits (hp : PlacedFrom legs [] merged) (b : ℕ) (t' : LaneSubmission)
    (ht' : (published merged)[b]? = some t') (w : LaneWait) (hw : w ∈ t'.waits) :
    ∃ (a : ℕ) (r : LaneSubmission), a < b ∧ (published merged)[a]? = some r ∧ r.lane = w.lane ∧
      r.signalValue = w.value := by
  obtain ⟨t, ht, htt⟩ := published_getElem? ht'
  subst htt
  have hsplit := split_at ht
  have hplaced : Placed legs (merged.take b) t := by
    rw [hsplit] at hp
    exact placed_split hp
  rw [hsplit] at hw
  obtain ⟨q, hq, hql, hqv⟩ := rewriteWaits_source hplaced w hw
  obtain ⟨a, ha, hqa⟩ := List.mem_take_iff_getElem.mp hq
  have hmem : merged[a]? = some q := by
    rw [← hqa]
    exact List.getElem?_eq_getElem _
  refine ⟨a, rewriteWaits merged q, by omega, ?_, hql, hqv⟩
  unfold published
  rw [List.getElem?_map, hmem]
  rfl

theorem laneProgram_wellOrdered (hp : PlacedFrom legs [] merged)
    (hnodup : (merged.flatMap LaneSubmission.commands).Nodup) :
    Lanes.WellOrdered (laneProgram (published merged)) where
  signals := by
    unfold laneProgram published
    rw [List.pairwise_map, List.pairwise_map]
    apply (signals_pairwise hp).imp_of_mem
    intro q r _ hr hspaced hlane
    have hne : r.commands ≠ [] := by
      obtain ⟨pre, post, hsplit⟩ := List.append_of_mem hr
      rw [hsplit] at hp
      exact (placed_split hp).nonempty
    have hpos := List.length_pos_of_ne_nil hne
    have := hspaced hlane
    show q.signalValue < r.signalValue
    omega
  waits := by
    intro b t ht w hw
    unfold laneProgram at ht
    rw [List.getElem?_map] at ht
    obtain ⟨t', ht', htt⟩ := Option.map_eq_some_iff.mp ht
    subst htt
    obtain ⟨w', hw', hww⟩ := List.mem_map.mp hw
    subst hww
    obtain ⟨a, r, hlt, hr, hl, hv⟩ := published_waits hp b t' ht' w' hw'
    refine ⟨a, r.toSubmission, hlt, ?_, hl, hv⟩
    unfold laneProgram
    rw [List.getElem?_map, hr]
    rfl
  nodup := by
    rw [laneProgram_commands, published_commands]
    exact hnodup

theorem laneProgram_getElem? {a : ℕ} (hr : merged[a]? = some r) :
    (laneProgram (published merged))[a]? = some (rewriteWaits merged r).toSubmission := by
  unfold laneProgram published
  rw [List.getElem?_map, List.getElem?_map, hr]
  rfl

/-- Commands of hazardous legs run in the order in which the program lists them. -/
theorem published_precedes (hp : PlacedFrom legs [] merged) :
    (merged.flatMap LaneSubmission.commands).Pairwise fun c d =>
      ∀ x ∈ legs, ∀ y ∈ legs, x.command = c → y.command = d → hazard x y = true →
        Lanes.Precedes (laneProgram (published merged)) c d := by
  rw [List.pairwise_flatMap]
  constructor
  · -- in one submission the commands run one after the other
    intro s hs
    obtain ⟨a, ha⟩ := List.mem_iff_getElem?.mp hs
    rw [List.pairwise_iff_getElem]
    intro j k hj hk hjk x _ y _ _ _ _
    refine ⟨a, a, _, _, j, k, laneProgram_getElem? ha, laneProgram_getElem? ha, ?_, ?_, ?_⟩
    · exact List.getElem?_eq_getElem hj
    · exact List.getElem?_eq_getElem hk
    · exact Or.inl ⟨rfl, hjk⟩
  · rw [List.pairwise_iff_getElem]
    intro a b ha hb hab c hc d hd x hx y hy hxc hyd hhaz
    have hra := List.getElem?_eq_getElem ha
    have htb := List.getElem?_eq_getElem hb
    have hmem : merged[a] ∈ merged.take b := List.mem_take_iff_getElem.mpr ⟨a, by omega, rfl⟩
    generalize merged[a] = r at hra hmem hc
    generalize merged[b] = t at htb hd
    obtain ⟨j, hj⟩ := List.mem_iff_getElem?.mp hc
    obtain ⟨k, hk⟩ := List.mem_iff_getElem?.mp hd
    refine ⟨a, b, _, _, j, k, laneProgram_getElem? hra, laneProgram_getElem? htb, hj, hk, ?_⟩
    right
    by_cases hlane : r.lane = t.lane
    · exact Or.inl ⟨hab, hlane⟩
    · right
      have hsplit := split_at htb
      have hp' := hp
      rw [hsplit] at hp'
      subst hxc hyd
      obtain ⟨w, hw, hwl, hle⟩ := rewriteWaits_hazard hp' hmem hx hy hc hd hhaz hlane
      rw [← hsplit] at hw
      exact ⟨(w.lane, w.value), List.mem_map.mpr ⟨w, hw, rfl⟩, hwl, hle⟩

end Published

/-! ## Legs -/

theorem expandOp_operation (canAccess : DeviceSpec → DeviceSpec → Bool) (op : TopologyOperation)
    (e : Expanded) (he : e ∈ expandOp canAccess op) : e.operation = op.operation := by
  unfold expandOp at he
  split at he
  · split at he
    · rcases List.mem_cons.mp he with he | he
      · rw [he]
      · rw [List.mem_singleton.mp he]
    · rw [List.mem_singleton.mp he]
  · rw [List.mem_singleton.mp he]

theorem expandOp_nodup (canAccess : DeviceSpec → DeviceSpec → Bool) (op : TopologyOperation) :
    ((expandOp canAccess op).map Expanded.command).Nodup := by
  unfold expandOp
  split
  · split
    · simp [Expanded.command]
    · exact List.nodup_singleton _
  · exact List.nodup_singleton _

/-- With distinct operation ids, a command names its leg. -/
theorem expand_nodup (canAccess : DeviceSpec → DeviceSpec → Bool)
    {operations : List TopologyOperation}
    (hids : (operations.map TopologyOperation.operation).Nodup) :
    ((expand canAccess operations).map Expanded.command).Nodup := by
  unfold expand
  rw [List.map_flatMap, List.nodup_flatMap]
  constructor
  · intro op _
    exact expandOp_nodup canAccess op
  · have hpair := List.pairwise_map.mp hids
    apply hpair.imp
    intro a b hne c hca hcb
    obtain ⟨x, hx, hxc⟩ := List.mem_map.mp hca
    obtain ⟨y, hy, hyc⟩ := List.mem_map.mp hcb
    have hxy : x.operation = y.operation := by
      have hxo : x.operation = c.operation := congrArg TopologyCommand.operation hxc
      have hyo : y.operation = c.operation := congrArg TopologyCommand.operation hyc
      rw [hxo, hyo]
    rw [expandOp_operation canAccess a x hx, expandOp_operation canAccess b y hy] at hxy
    exact hne hxy

theorem stage_overlaps (operation bytes : ℕ) :
    (stage operation bytes).overlaps (stage operation bytes) = true := by
  apply overlaps_of_byte 0 rfl rfl
  · exact ⟨Nat.zero_le _, by unfold stage; simp⟩
  · exact ⟨Nat.zero_le _, by unfold stage; simp⟩

/-- The copy `op` goes through the host: its lane cannot reach both ends. -/
def Staged (canAccess : DeviceSpec → DeviceSpec → Bool) (op : TopologyOperation) : Prop :=
  ∃ src dst bytes, op.kind = .copy src dst bytes ∧
    (canAccess op.lane.device src.owner && canAccess op.lane.device dst.owner) = false

/-- A staged copy has the two legs, `toHost` first, and they conflict on the stage. -/
theorem staged_legs {canAccess : DeviceSpec → DeviceSpec → Bool} {op : TopologyOperation}
    (h : Staged canAccess op) : ∃ x y, expandOp canAccess op = [x, y] ∧
      x.command = ⟨op.operation, some .toHost⟩ ∧ y.command = ⟨op.operation, some .fromHost⟩ ∧
      hazard x y = true := by
  obtain ⟨src, dst, bytes, hkind, hacc⟩ := h
  unfold expandOp
  rw [hkind]
  dsimp only
  rw [hacc]
  refine ⟨_, _, rfl, rfl, rfl, ?_⟩
  simp [hazard, anyOverlap, stage_overlaps]

/-! ## The main result -/

/-- What the schedule `subs` of `operations` guarantees, in every run of its lanes. -/
structure LanesSafe (canAccess : DeviceSpec → DeviceSpec → Bool)
    (operations : List TopologyOperation) (subs : List LaneSubmission) : Prop where
  /-- No command begins or finishes twice. -/
  atMostOnce : ∀ σ, Lanes.Reachable (laneProgram subs) σ → σ.trace.Nodup
  /-- A complete run begins and finishes each leg once. -/
  once : ∀ σ, Lanes.Reachable (laneProgram subs) σ → Lanes.AllDone (laneProgram subs) σ →
    (Lanes.begunCommands σ.trace).Perm ((expand canAccess operations).map Expanded.command) ∧
    (Lanes.finishedCommands σ.trace).Perm ((expand canAccess operations).map Expanded.command)
  /-- Conflicting legs run in the order of the operations. -/
  ordered : ∀ σ, Lanes.Reachable (laneProgram subs) σ →
    (expand canAccess operations).Pairwise fun x y => hazard x y = true →
      Lanes.Before σ.trace (.finished x.command) (.began y.command)
  /-- A staged copy leaves its source before it enters its destination. -/
  staged : ∀ σ, Lanes.Reachable (laneProgram subs) σ → ∀ op ∈ operations, Staged canAccess op →
    Lanes.Before σ.trace (.finished ⟨op.operation, some .toHost⟩)
      (.began ⟨op.operation, some .fromHost⟩)
  /-- Every wait names a value that an earlier submission publishes. -/
  waits : ∀ (b : ℕ) (t : LaneSubmission), subs[b]? = some t → ∀ w ∈ t.waits,
    ∃ (a : ℕ) (r : LaneSubmission), a < b ∧ subs[a]? = some r ∧ r.lane = w.lane ∧
      r.signalValue = w.value
  /-- So the plan links, whatever signals the lanes get. -/
  linked : ∀ timelineSignals, ∃ plan, fromLaneSubmissions subs timelineSignals = .ok plan
  /-- Until all submissions are done, one can take a step. -/
  progress : ∀ σ, Lanes.Reachable (laneProgram subs) σ → ¬ Lanes.AllDone (laneProgram subs) σ →
    ∃ σ', Lanes.Step (laneProgram subs) σ σ'
  /-- And every run reaches the end in finitely many steps. -/
  ends : ∀ σ, Lanes.Reachable (laneProgram subs) σ →
    ∃ σ', ReflTransGen (Lanes.Step (laneProgram subs)) σ σ' ∧
      Lanes.AllDone (laneProgram subs) σ'

theorem bindLoop_bound (timelineSignals : DeviceQueue → ℕ × ℕ) (subs : List LaneSubmission) :
    ∀ s : (DeviceQueue → Option EpochTimeline) × List TimelineBinding,
      (∀ b ∈ s.2, b ∈ (subs.foldl (bindStep timelineSignals) s).2) ∧
      ∀ r ∈ subs, ∃ b ∈ (subs.foldl (bindStep timelineSignals) s).2,
        b.lane = r.lane ∧ b.logicalValue = r.signalValue := by
  induction subs with
  | nil =>
    intro s
    refine ⟨fun _ hb => hb, ?_⟩
    intro r hr
    cases hr
  | cons t rest ih =>
    intro s
    obtain ⟨hkeep, hrest⟩ := ih (bindStep timelineSignals s t)
    have hstep : ∀ b ∈ s.2, b ∈ (bindStep timelineSignals s t).2 := by
      intro b hb
      exact List.mem_append_left _ hb
    refine ⟨fun b hb => hkeep b (hstep b hb), ?_⟩
    intro r hr
    cases List.mem_cons.mp hr with
    | inl hr =>
      rw [hr]
      refine ⟨_, hkeep _ (List.mem_append_right _ (List.mem_singleton.mpr rfl)), rfl, rfl⟩
    | inr hr => exact hrest r hr

/-- A plan links when every wait names a published value. -/
theorem fromLaneSubmissions_ok {subs : List LaneSubmission}
    (hwaits : ∀ t ∈ subs, ∀ w ∈ t.waits, ∃ r ∈ subs, r.lane = w.lane ∧ r.signalValue = w.value)
    (timelineSignals : DeviceQueue → ℕ × ℕ) :
    ∃ plan, fromLaneSubmissions subs timelineSignals = .ok plan := by
  have hnone : firstUnpublished (timelineBindings timelineSignals subs) subs = none := by
    unfold firstUnpublished
    rw [List.findSome?_eq_none_iff]
    intro t ht
    rw [Option.map_eq_none_iff, List.find?_eq_none]
    intro w hw
    obtain ⟨r, hr, hl, hv⟩ := hwaits t ht w hw
    obtain ⟨b, hb, hbl, hbv⟩ := (bindLoop_bound timelineSignals subs (fun _ => none, [])).2 r hr
    have hbound : isBound (timelineBindings timelineSignals subs) w = true := by
      unfold isBound
      rw [List.any_eq_true]
      exact ⟨b, hb, by simp [hbl, hbv, hl, hv]⟩
    simp [hbound]
  unfold fromLaneSubmissions
  dsimp only
  rw [hnone]
  exact ⟨_, rfl⟩

theorem scheduleDeviceLanes_safe (operations : List TopologyOperation) (limits : QueueMergeLimits)
    (canAccess : DeviceSpec → DeviceSpec → Bool)
    (hids : (operations.map TopologyOperation.operation).Nodup) :
    LanesSafe canAccess operations (scheduleDeviceLanes operations limits canAccess) := by
  have hcmds := expand_nodup canAccess hids
  have hraw := rawSubmissions_inv hcmds
  have hplaced := mergeSubmissions_placed limits hraw.placed
  have hflat := (mergeSubmissions_commands limits _).trans hraw.commands
  show LanesSafe canAccess operations
    (published (mergeSubmissions limits (rawSubmissions (expand canAccess operations))))
  change PlacedFrom _ [] (mergeSubmissions limits (rawSubmissions _)) at hplaced
  change (mergeSubmissions limits (rawSubmissions _)).flatMap _ = _ at hflat
  generalize mergeSubmissions limits (rawSubmissions (expand canAccess operations)) = merged
    at hplaced hflat
  have hw : Lanes.WellOrdered (laneProgram (published merged)) := by
    apply laneProgram_wellOrdered hplaced
    rw [hflat]
    exact hcmds
  have hprog : (laneProgram (published merged)).flatMap Lanes.Submission.commands
      = (expand canAccess operations).map Expanded.command := by
    rw [laneProgram_commands, published_commands, hflat]
  have hprec := published_precedes hplaced
  rw [hflat, List.pairwise_map] at hprec
  have hordered : ∀ σ, Lanes.Reachable (laneProgram (published merged)) σ →
      (expand canAccess operations).Pairwise fun x y => hazard x y = true →
        Lanes.Before σ.trace (.finished x.command) (.began y.command) := by
    intro σ h
    apply hprec.imp_of_mem
    intro x y hx hy hxy hhaz
    exact Lanes.reachable_before hw h (hxy x hx y hy rfl rfl hhaz)
  exact {
    atMostOnce := fun σ h => (Lanes.reachable_inv hw h).nodup
    once := by
      intro σ h hdone
      rw [← hprog]
      exact ⟨Lanes.begunCommands_perm hw h hdone, Lanes.finishedCommands_perm hw h hdone⟩
    ordered := hordered
    staged := by
      intro σ h op hop hstaged
      obtain ⟨x, y, hlegs, hxc, hyc, hhaz⟩ := staged_legs hstaged
      have hsub : List.Sublist [x, y] (expand canAccess operations) := by
        obtain ⟨pre, post, hsplit⟩ := List.append_of_mem hop
        unfold expand
        rw [hsplit, List.flatMap_append, List.flatMap_cons, hlegs]
        exact (List.sublist_append_left _ _).trans (List.sublist_append_right _ _)
      have hbefore := List.pairwise_iff_forall_sublist.mp (hordered σ h) hsub hhaz
      rw [hxc, hyc] at hbefore
      exact hbefore
    waits := published_waits hplaced
    linked := by
      apply fromLaneSubmissions_ok
      intro t ht w hwm
      obtain ⟨b, hb⟩ := List.mem_iff_getElem?.mp ht
      obtain ⟨a, r, _, hr, hl, hv⟩ := published_waits hplaced b t hb w hwm
      exact ⟨r, List.mem_of_getElem? hr, hl, hv⟩
    progress := fun σ h hnot => Lanes.progress hw h hnot
    ends := fun σ h => Lanes.reaches_end hw _ σ h (Nat.le_refl _) }

/-- Two kernels on one device, then a copy to another device that the first cannot reach. -/
def stagedExample : List TopologyOperation :=
  let q : DeviceQueue := { device := .cuda 0, queue := .compute 0 }
  let src : TopologyResource := { id := 1, owner := .cuda 0, start := 0, stop := 8 }
  let dst : TopologyResource := { id := 2, owner := .cuda 1, start := 0, stop := 8 }
  [{ operation := 0, lane := q, reads := [], writes := [src], kind := .execute },
   { operation := 1, lane := q, reads := [], writes := [], kind := .execute },
   { operation := 2, lane := q, reads := [], writes := [], kind := .copy src dst 8 }]

/-- The kernels merge, so the copy waits for the end of the batch. -/
example : (scheduleDeviceLanes stagedExample ⟨0, 0⟩ fun a b => a == b).map
    (fun s => (s.waits.map LaneWait.value, s.signalValue)) = [([], 2), ([2], 1), ([1], 1)] := by
  decide

theorem scheduleDeviceLanes_safe_staged :
    Staged (fun a b => a == b) stagedExample[2] ∧
    LanesSafe (fun a b => a == b) stagedExample
      (scheduleDeviceLanes stagedExample ⟨0, 0⟩ fun a b => a == b) :=
  ⟨⟨_, _, _, rfl, rfl⟩, scheduleDeviceLanes_safe stagedExample ⟨0, 0⟩ _ (by decide)⟩

end Svod.Device.Hcq
