/-
  Svod.MemoryPlanner.Arena

  Safety of the arena plan.

  `ArenaInv` is the invariant of the timeline loop: each lane's allocator holds
  the active buffers of the lane as live allocations, and any two placed buffers
  of one lane whose level intervals intersect lie in disjoint byte ranges.  A
  buffer is placed while every earlier buffer with an intersecting interval is
  still active, so the disjointness of the allocator's live allocations is what
  the alloc step needs.
-/

import Mathlib.Order.Bounds.Basic
import Svod.MemoryPlanner.Liveness
import Svod.MemoryPlanner.TlsfRun

namespace Svod.MemoryPlanner

open Svod.Lib Svod.Lib.Checked

variable {budget : Nat} {liveness : Liveness}

theorem le_roundUp {n g m : Nat} (hg : 0 < g) (h : roundUp n g = some m) : n ≤ m := by
  obtain ⟨-, rfl⟩ := divCeilMul_eq_some.mp h
  exact le_ceilTo hg

/-! ## One lane -/

/-- `id`, summarised by `info`, is a buffer of `lane` placed at `off`. -/
structure Placed (liveness : Liveness) (offsets : Nat → Option Nat) (lane : LaneKey)
    (id : Nat) (info : BufferLiveness) (off : Nat) : Prop where
  known : liveness.lookup id = some info
  lane : info.proto.laneKey = lane
  offset : offsets id = some off

/-- The allocator `s` of a lane holds exactly the lane's `held` buffers as live. -/
structure LaneInv (budget : Nat) (held : Nat → BufferLiveness → Nat → Prop)
    (s : Tlsf.TlsfAllocator) (live : List Tlsf.Live) : Prop where
  run : ∃ L, Tlsf.RunInv budget (s, live) L
  granule : s.blockSize = minBlockSize
  allocated : ∀ id info off, held id info off →
    ∃ r, roundUp info.proto.size minBlockSize = some r ∧ ⟨off, r⟩ ∈ live
  apart : ∀ id id' info info' off, held id info off → held id' info' off → id = id'

theorem LaneInv.mono {held held' : Nat → BufferLiveness → Nat → Prop} {s : Tlsf.TlsfAllocator}
    {live : List Tlsf.Live} (h : LaneInv budget held s live)
    (himp : ∀ id info off, held' id info off → held id info off) : LaneInv budget held' s live :=
  ⟨h.run, h.granule, fun id info off hh => h.allocated id info off (himp _ _ _ hh),
    fun id id' info info' off hh hh' =>
      h.apart id id' info info' off (himp _ _ _ hh) (himp _ _ _ hh')⟩

/-- A fresh allocator serves a lane without held buffers. -/
theorem LaneInv.new (budget : Nat) :
    ∃ s, Tlsf.TlsfAllocator.new budget 0 minBlockSize 32 = some s ∧
      LaneInv budget (fun _ _ _ => False) s [] := by
  obtain ⟨s, L, hnew, hwf, -, hbs, hfree⟩ := Tlsf.TlsfAllocator.new_wf budget 0
    minBlockSize 32
  refine ⟨s, hnew, ⟨L, hwf, by simp, by simp, ?_⟩, hbs, by simp, by simp⟩
  intro c hc hcu
  rw [hfree c hc] at hcu
  cases hcu

/-- A successful `alloc` adds a live allocation that no held buffer meets. -/
theorem LaneInv.alloc {budget : Nat} {held : Nat → BufferLiveness → Nat → Prop}
    {s s' : Tlsf.TlsfAllocator} {live : List Tlsf.Live} {req off : Nat}
    (id₀ : Nat) {info₀ : BufferLiveness} (h : LaneInv budget held s live) (hbudget : budget < wordSize)
    (hreq : roundUp info₀.proto.size minBlockSize = some req)
    (halloc : s.alloc req 1 = some (s', .ok off)) :
    LaneInv budget (fun id info o => held id info o ∨ (id = id₀ ∧ info = info₀ ∧ o = off)) s'
      (⟨off, req⟩ :: live) ∧
    ∀ id info o, held id info o →
      off + info₀.proto.size ≤ o ∨ o + info.proto.size ≤ off := by
  obtain ⟨L, hrun⟩ := h.run
  have hstep : Tlsf.step (s, live) (.alloc req 1) = some (s', ⟨off, req⟩ :: live) := by
    simp [Tlsf.step, halloc]
  have hpos : (Tlsf.Call.alloc req 1).NonEmpty s.blockSize := by
    rw [h.granule]
    exact Nat.lt_of_lt_of_le (by decide) (le_max_right req minBlockSize)
  obtain ⟨⟨L', hrun'⟩, -, hbs, -⟩ := Tlsf.step_inv hrun hbudget hpos hstep
  obtain ⟨hnew, -⟩ := List.nodup_cons.mp hrun'.live.offsets_nodup
  have hfresh : ∀ id info, ¬ held id info off := by
    intro id info hh
    obtain ⟨r, -, hmem⟩ := h.allocated id info off hh
    exact hnew (List.mem_map.mpr ⟨_, hmem, rfl⟩)
  have hdisj := (List.pairwise_cons.mp hrun'.clientView.disjoint).1
  refine ⟨⟨⟨L', hrun'⟩, hbs.trans h.granule, ?_, ?_⟩, ?_⟩
  · rintro id info o (hh | ⟨-, rfl, rfl⟩)
    · obtain ⟨r, hr, hmem⟩ := h.allocated id info o hh
      exact ⟨r, hr, List.mem_cons_of_mem _ hmem⟩
    · exact ⟨req, hreq, List.mem_cons_self⟩
  · rintro id id' info info' o (hh | ⟨rfl, -, ho⟩) (hh' | ⟨rfl, -, ho'⟩)
    · exact h.apart id id' info info' o hh hh'
    · exact absurd (ho' ▸ hh) (hfresh id info)
    · exact absurd (ho ▸ hh') (hfresh id' info')
    · rfl
  · intro id info o hh
    obtain ⟨r, hr, hmem⟩ := h.allocated id info o hh
    have hle := le_roundUp (by decide) hreq
    have hle' := le_roundUp (by decide) hr
    have := hdisj _ hmem
    simp only at this
    omega

/-- A successful `free` gives up the one buffer held at that offset. -/
theorem LaneInv.free {budget : Nat} {held : Nat → BufferLiveness → Nat → Prop}
    {s s' : Tlsf.TlsfAllocator} {live : List Tlsf.Live} {off : Nat}
    (h : LaneInv budget held s live) (hbudget : budget < wordSize)
    (hfree : s.free off = some (s', .ok ())) :
    LaneInv budget (fun id info o => held id info o ∧ o ≠ off) s'
      (live.filter (·.offset ≠ off)) := by
  obtain ⟨L, hrun⟩ := h.run
  have hstep : Tlsf.step (s, live) (.free off) = some (s', live.filter (·.offset ≠ off)) := by
    simp [Tlsf.step, hfree]
  have hpos : (Tlsf.Call.free off).NonEmpty s.blockSize := trivial
  obtain ⟨⟨L', hrun'⟩, -, hbs, -⟩ := Tlsf.step_inv hrun hbudget hpos hstep
  refine ⟨⟨L', hrun'⟩, hbs.trans h.granule, ?_, ?_⟩
  · rintro id info o ⟨hh, hne⟩
    obtain ⟨r, hr, hmem⟩ := h.allocated id info o hh
    exact ⟨r, hr, by simp [hmem, hne]⟩
  · rintro id id' info info' o ⟨hh, -⟩ ⟨hh', -⟩
    exact h.apart id id' info info' o hh hh'

/-! ## The timeline loop -/

/-- What a lane's allocator holds after the events `pre`: the lane's placed, active buffers. -/
def HeldBy (liveness : Liveness) (pre : List BufferEvent) (offsets : Nat → Option Nat)
    (lane : LaneKey) (id : Nat) (info : BufferLiveness) (off : Nat) : Prop :=
  Placed liveness offsets lane id info off ∧ Active pre id

/-- Ends of the placed buffers of a lane. -/
def laneEnds (liveness : Liveness) (offsets : Nat → Option Nat) (lane : LaneKey) : Set Nat :=
  {e | ∃ id info off, Placed liveness offsets lane id info off ∧ e = off + info.proto.size}

/-- The arena loop after the events `pre`. -/
structure ArenaInv (liveness : Liveness) (budget : Nat) (pre : List BufferEvent)
    (st : ArenaState) : Prop where
  offset_iff : ∀ id, (∃ off, st.offsets id = some off) ↔ ∃ t, ⟨t, true, id⟩ ∈ pre
  lanes : ∀ lane s, st.tlsfs lane = some s →
    ∃ live, LaneInv budget (HeldBy liveness pre st.offsets lane) s live
  unopened : ∀ lane, st.tlsfs lane = none →
    ∀ id info off, ¬ Placed liveness st.offsets lane id info off
  disjoint : ∀ lane id id' info info' off off', Placed liveness st.offsets lane id info off →
    Placed liveness st.offsets lane id' info' off' → id ≠ id' →
    info.firstLevel ≤ info'.lastLevel → info'.firstLevel ≤ info.lastLevel →
    off + info.proto.size ≤ off' ∨ off' + info'.proto.size ≤ off
  peak : ∀ lane p, st.peaks.lookup lane = some p →
    IsGreatest (laneEnds liveness st.offsets lane) p
  peak_known : ∀ lane id info off, Placed liveness st.offsets lane id info off →
    ∃ p, st.peaks.lookup lane = some p

theorem arenaInv_init (liveness : Liveness) (budget : Nat) :
    ArenaInv liveness budget [] ⟨fun _ => none, fun _ => none, ∅⟩ := by
  refine ⟨by simp, by simp, ?_, ?_, by simp [AList.lookup_empty], ?_⟩
  · rintro lane - id info off ⟨-, -, h⟩
    cases h
  · rintro lane id id' info info' off off' ⟨-, -, h⟩
    cases h
  · rintro lane id info off ⟨-, -, h⟩
    cases h

/-- The allocator the loop uses for a lane, opened on first use. -/
theorem ArenaInv.openLane {pre : List BufferEvent} {st : ArenaState}
    (h : ArenaInv liveness budget pre st) (lane : LaneKey) :
    ∃ s live, laneAllocator budget st lane = some s ∧
      LaneInv budget (HeldBy liveness pre st.offsets lane) s live := by
  unfold laneAllocator
  cases hl : st.tlsfs lane with
  | some s =>
    obtain ⟨live, hlive⟩ := h.lanes lane s hl
    exact ⟨s, live, rfl, hlive⟩
  | none =>
    obtain ⟨s, hnew, hlane⟩ := LaneInv.new budget
    exact ⟨s, [], hnew, hlane.mono fun id info off hh => h.unopened lane hl id info off hh.1⟩

/-- The alloc step: the new buffer avoids every placed buffer whose interval meets its own. -/
theorem arenaEvent_alloc {pre post : List BufferEvent} {st st' : ArenaState} {t id₀ : Nat}
    (h : ArenaInv liveness budget pre st) (hbudget : budget < wordSize)
    (hsplit : buildEventTimeline liveness = pre ++ ⟨t, true, id₀⟩ :: post)
    (hstep : arenaEvent budget liveness st ⟨t, true, id₀⟩ = some (.ok st')) :
    ArenaInv liveness budget (pre ++ [⟨t, true, id₀⟩]) st' := by
  simp only [arenaEvent, Option.bind_eq_bind, Option.bind_eq_some_iff] at hstep
  obtain ⟨info₀, hinfo₀, s, hs, hstep⟩ := hstep
  set lane₀ := info₀.proto.laneKey with hlane₀
  obtain ⟨s', live, hopen, hlane⟩ := h.openLane lane₀
  rw [hs, Option.some.injEq] at hopen
  subst hopen
  simp only [if_true, Option.bind_eq_some_iff] at hstep
  obtain ⟨req, hreq, ⟨s1, r⟩, halloc, hstep⟩ := hstep
  cases r with
  | error e => simp at hstep
  | ok off₀ =>
    simp only [Option.bind_eq_some_iff, Option.some.injEq, Except.ok.injEq] at hstep
    obtain ⟨usedEnd, hend, rfl⟩ := hstep
    obtain ⟨-, rfl⟩ := checkedAdd_eq_some.mp hend
    obtain ⟨hlane1, havoid⟩ := LaneInv.alloc id₀ hlane hbudget hreq halloc
    -- the buffer is placed by this event and by no earlier one
    have hfresh : st.offsets id₀ = none := by
      rw [Option.eq_none_iff_forall_ne_some]
      intro off hoff
      obtain ⟨t', ht'⟩ := (h.offset_iff id₀).mp ⟨off, hoff⟩
      have hlt := (timeline_split hsplit).1 _ ht'
      have hu : t' = t := event_unique liveness id₀ true
        (by rw [hsplit]; exact List.mem_append_left _ ht') (by simp [hsplit])
      subst hu
      rw [← Bool.not_eq_true, BufferEvent.le_iff] at hlt
      simp at hlt
    have hplaced : ∀ lane id info off,
        Placed liveness (Function.update st.offsets id₀ (some off₀)) lane id info off ↔
        (Placed liveness st.offsets lane id info off ∨
          (lane = lane₀ ∧ id = id₀ ∧ info = info₀ ∧ off = off₀)) := by
      intro lane id info off
      by_cases hid : id = id₀
      · subst hid
        constructor
        · rintro ⟨hk, hl, ho⟩
          rw [hinfo₀, Option.some.injEq] at hk
          rw [Function.update_self, Option.some.injEq] at ho
          subst hk ho
          exact .inr ⟨hl.symm, rfl, rfl, rfl⟩
        · rintro (⟨-, -, ho⟩ | ⟨rfl, -, rfl, rfl⟩)
          · rw [hfresh] at ho
            cases ho
          · exact ⟨hinfo₀, rfl, Function.update_self ..⟩
      · constructor
        · rintro ⟨hk, hl, ho⟩
          rw [Function.update_of_ne hid] at ho
          exact .inl ⟨hk, hl, ho⟩
        · rintro (⟨hk, hl, ho⟩ | ⟨-, hid', -⟩)
          · exact ⟨hk, hl, by rw [Function.update_of_ne hid]; exact ho⟩
          · exact absurd hid' hid
    have hold : ∀ {lane id info off}, Placed liveness st.offsets lane id info off → id ≠ id₀ := by
      rintro lane id info off ⟨-, -, ho⟩ rfl
      rw [hfresh] at ho
      cases ho
    -- an earlier buffer whose interval meets the new one is still active
    have hmeet : ∀ {id info off}, Placed liveness st.offsets lane₀ id info off →
        info₀.firstLevel ≤ info.lastLevel →
        off₀ + info₀.proto.size ≤ off ∨ off + info.proto.size ≤ off₀ := by
      intro id info off hp hle
      refine havoid id info off ⟨hp, (h.offset_iff id).mp ⟨off, hp.offset⟩, ?_⟩
      intro t' ht'
      have := retired_before hsplit hinfo₀ hp.known ht'
      omega
    refine ⟨?_, ?_, ?_, ?_, ?_, ?_⟩
    · intro id
      simp only [List.mem_append, List.mem_singleton, BufferEvent.mk.injEq, true_and,
        exists_or]
      by_cases hid : id = id₀
      · subst hid
        simp [Function.update_self]
      · rw [Function.update_of_ne hid, h.offset_iff]
        simp [hid]
    · intro lane s'' hs''
      have himp : ∀ id info off, HeldBy liveness (pre ++ [⟨t, true, id₀⟩])
          (Function.update st.offsets id₀ (some off₀)) lane id info off →
          HeldBy liveness pre st.offsets lane id info off ∨
            (lane = lane₀ ∧ id = id₀ ∧ info = info₀ ∧ off = off₀) := by
        rintro id info off ⟨hp, hact⟩
        rcases (hplaced lane id info off).mp hp with hp | hp
        · exact .inl ⟨hp, active_append hact (hold hp).symm⟩
        · exact .inr hp
      by_cases hl : lane = lane₀
      · subst hl
        simp only [Function.update_self, Option.some.injEq] at hs''
        subst hs''
        refine ⟨_, hlane1.mono fun id info off hh => ?_⟩
        rcases himp id info off hh with hh | ⟨-, hh⟩
        · exact .inl hh
        · exact .inr hh
      · simp only [Function.update_of_ne hl] at hs''
        obtain ⟨live'', hlive''⟩ := h.lanes lane s'' hs''
        refine ⟨live'', hlive''.mono fun id info off hh => ?_⟩
        rcases himp id info off hh with hh | ⟨hl', -⟩
        · exact hh
        · exact absurd hl' hl
    · intro lane hl id info off hp
      have hne : lane ≠ lane₀ := by
        rintro rfl
        simp at hl
      simp only [Function.update_of_ne hne] at hl
      rcases (hplaced lane id info off).mp hp with hp | ⟨hl', -⟩
      · exact h.unopened lane hl id info off hp
      · exact hne hl'
    · intro lane id id' info info' off off' hp hp' hne hle hle'
      rcases (hplaced lane id info off).mp hp with hq | ⟨rfl, rfl, rfl, rfl⟩
      · rcases (hplaced lane id' info' off').mp hp' with hq' | ⟨rfl, rfl, rfl, rfl⟩
        · exact h.disjoint lane id id' info info' off off' hq hq' hne hle hle'
        · exact (hmeet hq hle').symm
      · rcases (hplaced _ id' info' off').mp hp' with hq' | ⟨-, rfl, -⟩
        · exact hmeet hq' hle
        · exact absurd rfl hne
    · intro lane p hp
      by_cases hl : lane = lane₀
      · subst hl
        rw [AList.lookup_insert, Option.some.injEq] at hp
        subst hp
        have hnew : off₀ + info₀.proto.size ∈
            laneEnds liveness (Function.update st.offsets id₀ (some off₀)) lane₀ :=
          ⟨id₀, info₀, off₀, (hplaced _ _ _ _).mpr (.inr ⟨rfl, rfl, rfl, rfl⟩), rfl⟩
        have hmem : ∀ e, e ∈ laneEnds liveness st.offsets lane₀ →
            e ∈ laneEnds liveness (Function.update st.offsets id₀ (some off₀)) lane₀ := by
          rintro e ⟨id, info, off, hpl, rfl⟩
          exact ⟨id, info, off, (hplaced _ _ _ _).mpr (.inl hpl), rfl⟩
        cases hpk : st.peaks.lookup lane₀ with
        | none =>
          rw [Option.getD_none, Nat.zero_max]
          refine ⟨hnew, ?_⟩
          rintro e ⟨id, info, off, hpl, rfl⟩
          rcases (hplaced _ id info off).mp hpl with hpl | ⟨-, -, rfl, rfl⟩
          · obtain ⟨p, hp⟩ := h.peak_known _ _ _ _ hpl
            rw [hpk] at hp
            cases hp
          · exact le_rfl
        | some p =>
          rw [Option.getD_some]
          obtain ⟨hpm, hpub⟩ := h.peak lane₀ p hpk
          refine ⟨?_, ?_⟩
          · rcases max_choice p (off₀ + info₀.proto.size) with hm | hm
            · rw [hm]
              exact hmem p hpm
            · rw [hm]
              exact hnew
          · rintro e ⟨id, info, off, hpl, rfl⟩
            rcases (hplaced _ id info off).mp hpl with hpl | ⟨-, -, rfl, rfl⟩
            · exact le_max_of_le_left (hpub ⟨id, info, off, hpl, rfl⟩)
            · exact le_max_right _ _
      · rw [AList.lookup_insert_ne hl] at hp
        have hends : laneEnds liveness (Function.update st.offsets id₀ (some off₀)) lane =
            laneEnds liveness st.offsets lane := by
          ext e
          simp only [laneEnds, Set.mem_ofPred_eq, hplaced, hl, false_and, or_false]
        rw [hends]
        exact h.peak lane p hp
    · intro lane id info off hp
      by_cases hl : lane = lane₀
      · subst hl
        exact ⟨_, AList.lookup_insert _⟩
      · rw [AList.lookup_insert_ne hl]
        rcases (hplaced lane id info off).mp hp with hp | ⟨hl', -⟩
        · exact h.peak_known lane id info off hp
        · exact absurd hl' hl

/-- The free step moves no buffer; the lane's allocator gives up the one it retires. -/
theorem arenaEvent_free {pre post : List BufferEvent} {st st' : ArenaState} {t id₀ : Nat}
    (h : ArenaInv liveness budget pre st) (hbudget : budget < wordSize)
    (hsplit : buildEventTimeline liveness = pre ++ ⟨t, false, id₀⟩ :: post)
    (hstep : arenaEvent budget liveness st ⟨t, false, id₀⟩ = some (.ok st')) :
    ArenaInv liveness budget (pre ++ [⟨t, false, id₀⟩]) st' := by
  simp only [arenaEvent, Option.bind_eq_bind, Option.bind_eq_some_iff] at hstep
  obtain ⟨info₀, hinfo₀, s, hs, hstep⟩ := hstep
  set lane₀ := info₀.proto.laneKey with hlane₀
  obtain ⟨s', live, hopen, hlane⟩ := h.openLane lane₀
  rw [hs, Option.some.injEq] at hopen
  subst hopen
  simp only [Bool.false_eq_true, if_false] at hstep
  -- whatever the allocator did, it still holds the remaining active buffers
  obtain ⟨s1, live1, hst', hlane1⟩ : ∃ s1 live1,
      st' = { st with tlsfs := Function.update st.tlsfs lane₀ (some s1) } ∧
      LaneInv budget (HeldBy liveness (pre ++ [⟨t, false, id₀⟩]) st.offsets lane₀) s1 live1 := by
    have hheld : ∀ id info off,
        HeldBy liveness (pre ++ [⟨t, false, id₀⟩]) st.offsets lane₀ id info off →
        HeldBy liveness pre st.offsets lane₀ id info off ∧ id ≠ id₀ := by
      rintro id info off ⟨hp, hact⟩
      have hne : id ≠ id₀ := by
        rintro rfl
        exact hact.2 t (by simp)
      exact ⟨⟨hp, active_append hact hne.symm⟩, hne⟩
    cases hoff : st.offsets id₀ with
    | none =>
      rw [hoff] at hstep
      simp only [Option.some.injEq, Except.ok.injEq] at hstep
      exact ⟨s, live, hstep.symm, hlane.mono fun id info off hh => (hheld id info off hh).1⟩
    | some off₀ =>
      rw [hoff] at hstep
      simp only [Option.bind_eq_some_iff] at hstep
      obtain ⟨⟨s1, r⟩, hfree, hstep⟩ := hstep
      cases r with
      | error e => simp at hstep
      | ok u =>
        simp only [Option.some.injEq, Except.ok.injEq] at hstep
        refine ⟨s1, _, hstep.symm, (hlane.free hbudget hfree).mono ?_⟩
        intro id info off hh
        obtain ⟨hh', hne⟩ := hheld id info off hh
        refine ⟨hh', ?_⟩
        rintro rfl
        -- the retired buffer is active until now, so the offset is its own
        have hact₀ : Active pre id₀ := by
          refine ⟨(h.offset_iff id₀).mp ⟨off, hoff⟩, fun t' ht' => ?_⟩
          have hlt := (timeline_split hsplit).1 _ ht'
          have hu : t' = t := event_unique liveness id₀ false
            (by rw [hsplit]; exact List.mem_append_left _ ht') (by simp [hsplit])
          subst hu
          rw [← Bool.not_eq_true, BufferEvent.le_iff] at hlt
          simp at hlt
        exact hne (hlane.apart id id₀ info info₀ off hh' ⟨⟨hinfo₀, rfl, hoff⟩, hact₀⟩)
  subst hst'
  refine ⟨?_, ?_, ?_, h.disjoint, h.peak, h.peak_known⟩
  · intro id
    simp [h.offset_iff]
  · intro lane s'' hs''
    by_cases hl : lane = lane₀
    · subst hl
      simp only [Function.update_self, Option.some.injEq] at hs''
      subst hs''
      exact ⟨live1, hlane1⟩
    · simp only [Function.update_of_ne hl] at hs''
      obtain ⟨live'', hlive''⟩ := h.lanes lane s'' hs''
      refine ⟨live'', hlive''.mono ?_⟩
      rintro id info off ⟨hp, hact⟩
      refine ⟨hp, active_append hact ?_⟩
      rintro rfl
      have := hp.known
      rw [hinfo₀, Option.some.injEq] at this
      subst this
      exact hl hp.lane.symm
  · intro lane hl
    by_cases hl' : lane = lane₀
    · subst hl'
      simp at hl
    · simp only [Function.update_of_ne hl'] at hl
      exact h.unopened lane hl

/-- The loop keeps the invariant until the timeline is processed. -/
theorem arenaLoop_inv (hbudget : budget < wordSize) {pre post : List BufferEvent}
    {st st' : ArenaState} (h : ArenaInv liveness budget pre st)
    (hsplit : buildEventTimeline liveness = pre ++ post)
    (hrun : arenaLoop budget liveness st post = some (.ok st')) :
    ArenaInv liveness budget (buildEventTimeline liveness) st' := by
  induction post generalizing pre st with
  | nil =>
    simp only [arenaLoop, Option.some.injEq, Except.ok.injEq] at hrun
    subst hrun
    rw [hsplit, List.append_nil]
    exact h
  | cons e post ih =>
    simp only [arenaLoop, bind_eq_some] at hrun
    obtain ⟨r, hstep, hrun⟩ := hrun
    cases r with
    | error u => simp at hrun
    | ok st1 =>
      obtain ⟨t, isAlloc, id⟩ := e
      refine ih ?_ (by simp [hsplit] : _ = (pre ++ [⟨t, isAlloc, id⟩]) ++ post) hrun
      cases isAlloc with
      | true => exact arenaEvent_alloc h hbudget hsplit hstep
      | false => exact arenaEvent_free h hbudget hsplit hstep

/-! ## Arenas and views -/

/-- Every arena has the rounded peak of its lane and a storage of its own. -/
theorem buildArenas_spec {peaks : List (Sigma fun _ : LaneKey => Nat)} {nextId : Nat}
    {arenas : List (LaneKey × Buffer)} (h : buildArenas peaks nextId = some arenas) :
    (∀ lane arena, (lane, arena) ∈ arenas → nextId ≤ arena.data.storageId ∧ arena.offset = 0 ∧
      ∃ peak, ⟨lane, peak⟩ ∈ peaks ∧ roundUp peak minBlockSize = some arena.size ∧
        arena.data.totalSize = arena.size) ∧
    ∀ lane lane' arena arena', (lane, arena) ∈ arenas → (lane', arena') ∈ arenas →
      lane ≠ lane' → arena.data.storageId ≠ arena'.data.storageId := by
  induction peaks generalizing nextId arenas with
  | nil =>
    simp only [buildArenas, Option.some.injEq] at h
    subst h
    simp
  | cons e peaks ih =>
    obtain ⟨lane₀, peak₀⟩ := e
    simp only [buildArenas] at h
    split at h
    · obtain ⟨hspec, hne⟩ := ih h
      refine ⟨fun lane arena hmem => ?_, hne⟩
      obtain ⟨hid, hoff, peak, hpeak, hround⟩ := hspec lane arena hmem
      exact ⟨hid, hoff, peak, List.mem_cons_of_mem _ hpeak, hround⟩
    · simp only [bind_eq_some, Option.some.injEq] at h
      obtain ⟨size, hsize, rest, hrest, rfl⟩ := h
      obtain ⟨hspec, hne⟩ := ih hrest
      refine ⟨?_, ?_⟩
      · intro lane arena hmem
        rcases List.mem_cons.mp hmem with heq | hmem
        · obtain ⟨rfl, rfl⟩ := Prod.mk.inj heq
          exact ⟨le_rfl, rfl, peak₀, List.mem_cons_self, by simpa [Buffer.new, DType.bytes,
            ScalarDType.bytes] using hsize, rfl⟩
        · obtain ⟨hid, hoff, peak, hpeak, hround⟩ := hspec lane arena hmem
          exact ⟨by omega, hoff, peak, List.mem_cons_of_mem _ hpeak, hround⟩
      · intro lane lane' arena arena' hmem hmem' hl
        rcases List.mem_cons.mp hmem with heq | hmem <;>
          rcases List.mem_cons.mp hmem' with heq' | hmem'
        · exact absurd ((Prod.mk.inj heq).1.trans (Prod.mk.inj heq').1.symm) hl
        · -- the arenas after this one take larger ids
          have := (hspec lane' arena' hmem').1
          rw [(Prod.mk.inj heq).2]
          simp only [Buffer.new]
          omega
        · have := (hspec lane arena hmem).1
          rw [(Prod.mk.inj heq').2]
          simp only [Buffer.new]
          omega
        · exact hne lane lane' arena arena' hmem hmem' hl

theorem view_eq_ok {b v : Buffer} {id offset size : Nat}
    (h : b.view id offset size = some (.ok v)) :
    v.data = b.data ∧ v.offset = b.offset + offset ∧ v.size = size ∧ offset + size ≤ b.size := by
  simp only [Buffer.view, Option.bind_eq_bind, Option.bind_eq_some_iff] at h
  obtain ⟨stop, hstop, h⟩ := h
  obtain ⟨-, rfl⟩ := checkedAdd_eq_some.mp hstop
  split at h
  · simp at h
  · simp only [Option.bind_eq_some_iff, Option.some.injEq, Except.ok.injEq] at h
    obtain ⟨off, hoff, rfl⟩ := h
    obtain ⟨-, rfl⟩ := checkedAdd_eq_some.mp hoff
    exact ⟨rfl, rfl, rfl, by omega⟩

/-- `v` is the view of the placed buffer `id` into its lane's arena. -/
def ViewOf (liveness : Liveness) (offsets : Nat → Option Nat) (arenas : List (LaneKey × Buffer))
    (id : Nat) (v : Buffer) : Prop :=
  ∃ info offset arena, liveness.lookup id = some info ∧ offsets id = some offset ∧
    arenas.lookup info.proto.laneKey = some arena ∧ v.data = arena.data ∧
    v.offset = arena.offset + offset ∧ v.size = info.proto.size ∧
    offset + info.proto.size ≤ arena.size

/-- The views are those of the planned slots whose buffer is placed in an existing arena. -/
theorem buildViews_spec {offsets : Nat → Option Nat} {arenas : List (LaneKey × Buffer)}
    {occs : List (BufferKey × Nat)} {nextId : Nat} {views : List (BufferKey × Buffer)}
    (h : buildViews liveness offsets arenas occs nextId = some (.ok views)) :
    (∀ k v, (k, v) ∈ views → ∃ id, (k, id) ∈ occs ∧ ViewOf liveness offsets arenas id v) ∧
    (∀ k id info off arena, (k, id) ∈ occs → liveness.lookup id = some info →
      offsets id = some off → arenas.lookup info.proto.laneKey = some arena →
      ∃ v, (k, v) ∈ views ∧ ViewOf liveness offsets arenas id v) := by
  induction occs generalizing nextId views with
  | nil =>
    simp only [buildViews, Option.some.injEq, Except.ok.injEq] at h
    subst h
    simp
  | cons occ occs ih =>
    obtain ⟨key, bufId⟩ := occ
    -- a slot without offset or arena is skipped
    have hskip : ∀ {n}, buildViews liveness offsets arenas occs n = some (.ok views) →
        (∀ info off arena, liveness.lookup bufId = some info → offsets bufId = some off →
          arenas.lookup info.proto.laneKey ≠ some arena) →
        (∀ k v, (k, v) ∈ views →
          ∃ id, (k, id) ∈ (key, bufId) :: occs ∧ ViewOf liveness offsets arenas id v) ∧
        (∀ k id info off arena, (k, id) ∈ (key, bufId) :: occs → liveness.lookup id = some info →
          offsets id = some off → arenas.lookup info.proto.laneKey = some arena →
          ∃ v, (k, v) ∈ views ∧ ViewOf liveness offsets arenas id v) := by
      intro n hrec hno
      obtain ⟨hsound, hcomplete⟩ := ih hrec
      refine ⟨?_, ?_⟩
      · intro k v hv
        obtain ⟨id, hid, hview⟩ := hsound k v hv
        exact ⟨id, List.mem_cons_of_mem _ hid, hview⟩
      · intro k id info off arena hmem hinfo hoff harena
        rcases List.mem_cons.mp hmem with heq | hmem
        · obtain ⟨rfl, rfl⟩ := Prod.mk.inj heq
          exact absurd harena (hno info off arena hinfo hoff)
        · exact hcomplete k id info off arena hmem hinfo hoff harena
    unfold buildViews at h
    cases hoff : offsets bufId with
    | none =>
      rw [hoff] at h
      exact hskip h (by simp [hoff])
    | some offset =>
      rw [hoff] at h
      simp only [Option.bind_eq_bind, Option.bind_eq_some_iff] at h
      obtain ⟨info, hinfo, h⟩ := h
      cases harena : arenas.lookup info.proto.laneKey with
      | none =>
        rw [harena] at h
        refine hskip h ?_
        intro info' off' arena' hinfo' _ harena'
        rw [hinfo, Option.some.injEq] at hinfo'
        subst hinfo'
        rw [harena] at harena'
        cases harena'
      | some arena =>
        rw [harena] at h
        simp only [Option.bind_eq_some_iff] at h
        obtain ⟨r, hview, h⟩ := h
        cases r with
        | error u => simp at h
        | ok view =>
          simp only [Option.bind_eq_some_iff] at h
          obtain ⟨r, hrec, h⟩ := h
          cases r with
          | error u => simp at h
          | ok rest =>
            simp only [Option.some.injEq, Except.ok.injEq] at h
            subst h
            obtain ⟨hsound, hcomplete⟩ := ih hrec
            obtain ⟨hdata, hvoff, hvsize, hfit⟩ := view_eq_ok hview
            have hof : ViewOf liveness offsets arenas bufId view :=
              ⟨info, offset, arena, hinfo, hoff, harena, hdata, hvoff, hvsize, hfit⟩
            refine ⟨?_, ?_⟩
            · intro k v hv
              rcases List.mem_cons.mp hv with heq | hv
              · obtain ⟨rfl, rfl⟩ := Prod.mk.inj heq
                exact ⟨bufId, List.mem_cons_self, hof⟩
              · obtain ⟨id, hid, hvw⟩ := hsound k v hv
                exact ⟨id, List.mem_cons_of_mem _ hid, hvw⟩
            · intro k id info' off' arena' hmem hinfo' hoff' harena'
              rcases List.mem_cons.mp hmem with heq | hmem
              · obtain ⟨rfl, rfl⟩ := Prod.mk.inj heq
                exact ⟨view, List.mem_cons_self, hof⟩
              · obtain ⟨v, hv, hvw⟩ := hcomplete k id info' off' arena' hmem hinfo' hoff' harena'
                exact ⟨v, List.mem_cons_of_mem _ hv, hvw⟩

/-! ## The plan -/

/-- A plan rewrites nothing, or it is the loop's placement read through arenas and views. -/
theorem memoryPlanArena_cases {schedule : Schedule} {itemLevels outs : List Nat} {nextId : Nat}
    {res : MemoryPlannerResult}
    (h : memoryPlanArena schedule itemLevels outs nextId = some res) :
    res.bufferReplace = [] ∨ ∃ input budget st arenas,
      analyzeLiveness schedule itemLevels outs .arena = some input ∧ budget < wordSize ∧
      arenaLoop budget input.liveness ⟨fun _ => none, fun _ => none, ∅⟩
        (buildEventTimeline input.liveness) = some (.ok st) ∧
      buildArenas st.peaks.entries nextId = some arenas ∧
      buildViews input.liveness st.offsets arenas input.occurrences (nextId + arenas.length) =
        some (.ok res.bufferReplace) := by
  simp only [memoryPlanArena, Option.bind_eq_bind, Option.bind_eq_some_iff] at h
  obtain ⟨input, hinput, h⟩ := h
  split at h
  · simp only [Option.some.injEq] at h
    exact .inl (by rw [← h]; rfl)
  · simp only [Option.bind_eq_some_iff] at h
    obtain ⟨rounded, -, total, -, r, hloop, h⟩ := h
    have hbudget : max (min (total * 2) (wordSize - 1)) minBlockSize < wordSize := by
      simp only [wordSize, minBlockSize]
      omega
    cases r with
    | error u =>
      simp only [Option.some.injEq] at h
      exact .inl (by rw [← h]; rfl)
    | ok st =>
      simp only [Option.bind_eq_some_iff] at h
      obtain ⟨arenas, harenas, r, hviews, h⟩ := h
      cases r with
      | error u =>
        simp only [Option.some.injEq] at h
        exact .inl (by rw [← h]; rfl)
      | ok views =>
        simp only [Option.bind_eq_some_iff, Option.some.injEq] at h
        obtain ⟨sizes, -, arenaTotal, -, rfl⟩ := h
        exact .inr ⟨input, _, st, arenas, hinput, hbudget, hloop, harenas, hviews⟩

/-- The ends of a lane's views. -/
def viewEnds (schedule : Schedule) (replace : List (BufferKey × Buffer)) (lane : LaneKey) :
    Set Nat :=
  {e | ∃ k v b, (k, v) ∈ replace ∧ schedule.slot k = some b ∧ b.laneKey = lane ∧
    e = v.offset + v.size}

/-- What an arena plan guarantees for the views it puts in place of the buffers. -/
structure ArenaPlanSafe (schedule : Schedule) (itemLevels outs : List Nat)
    (replace : List (BufferKey × Buffer)) : Prop where
  /-- A view replaces a plannable buffer and has its size. -/
  planned : ∀ k v, (k, v) ∈ replace →
    ∃ b, schedule.slot k = some b ∧ schedule.Plannable outs b ∧ v.size = b.size
  /-- It lies inside its lane's arena, whose size is the rounded peak of the lane. -/
  inside : ∀ k v b, (k, v) ∈ replace → schedule.slot k = some b →
    v.offset + v.size ≤ v.data.totalSize ∧
      ∃ peak, IsGreatest (viewEnds schedule replace b.laneKey) peak ∧
        roundUp peak minBlockSize = some v.data.totalSize
  /-- One arena per lane. -/
  storage : ∀ k v b k' v' b', (k, v) ∈ replace → schedule.slot k = some b →
    (k', v') ∈ replace → schedule.slot k' = some b' →
    (v.data.storageId = v'.data.storageId ↔ b.laneKey = b'.laneKey)
  /-- Buffers of one lane that are live at a common level have disjoint byte ranges. -/
  disjoint : ∀ k v b k' v' b', (k, v) ∈ replace → schedule.slot k = some b →
    (k', v') ∈ replace → schedule.slot k' = some b' → b.id ≠ b'.id → b.laneKey = b'.laneKey →
    (∃ level, LiveAt schedule itemLevels b level ∧ LiveAt schedule itemLevels b' level) →
    v.offset + v.size ≤ v'.offset ∨ v'.offset + v'.size ≤ v.offset
  /-- Buffers that share a byte of storage are strictly level-disjoint. -/
  sharers : ∀ k v b k' v' b' x, (k, v) ∈ replace → schedule.slot k = some b →
    (k', v') ∈ replace → schedule.slot k' = some b' → b.id ≠ b'.id →
    v.data.storageId = v'.data.storageId →
    v.offset ≤ x → x < v.offset + v.size → v'.offset ≤ x → x < v'.offset + v'.size →
    StrictlyBefore schedule itemLevels b b' ∨ StrictlyBefore schedule itemLevels b' b

/-- The slot of a view and the placement behind it. -/
theorem view_placed {schedule : Schedule} {itemLevels outs : List Nat} {input : PlannerInput}
    {st : ArenaState} {arenas : List (LaneKey × Buffer)} {k : BufferKey} {v b : Buffer} {id : Nat}
    (hspec : LivenessSpec schedule itemLevels outs input)
    (hocc : (k, id) ∈ input.occurrences) (hb : schedule.slot k = some b)
    (hview : ViewOf input.liveness st.offsets arenas id v)
    (hzero : ∀ lane arena, (lane, arena) ∈ arenas → arena.offset = 0) :
    ∃ info arena, Placed input.liveness st.offsets b.laneKey b.id info v.offset ∧
      info.proto = b ∧ schedule.Plannable outs b ∧ v.size = b.size ∧
      (b.laneKey, arena) ∈ arenas ∧ v.data = arena.data ∧ v.offset + v.size ≤ arena.size := by
  obtain ⟨b', hb', -, hplan, hid⟩ := (hspec.occurrence k id).mp hocc
  rw [hb, Option.some.injEq] at hb'
  subst hb' hid
  obtain ⟨info, offset, arena, hinfo, hoff, harena, hdata, hvoff, hvsize, hfit⟩ := hview
  have hproto := hspec.lookup_proto hb hinfo
  obtain ⟨A, C, harenas, -⟩ := List.lookup_eq_some_iff.mp harena
  have hmem : (info.proto.laneKey, arena) ∈ arenas := by simp [harenas]
  rw [hzero _ _ hmem, Nat.zero_add] at hvoff
  rw [hproto] at hmem hvsize hfit
  refine ⟨info, arena, ⟨hinfo, by rw [hproto], by rw [hvoff]; exact hoff⟩, hproto, hplan, hvsize,
    hmem, hdata, by omega⟩

/-- On every schedule, level vector and output set, the plan of `memory_plan_arena` is safe. -/
theorem memoryPlanArena_safe {schedule : Schedule} {itemLevels outs : List Nat} {nextId : Nat}
    {res : MemoryPlannerResult}
    (h : memoryPlanArena schedule itemLevels outs nextId = some res) :
    ArenaPlanSafe schedule itemLevels outs res.bufferReplace := by
  rcases memoryPlanArena_cases h with hnil | ⟨input, budget, st, arenas, hinput, hbudget, hloop,
    harenas, hviews⟩
  · rw [hnil]
    refine ⟨?_, ?_, ?_, ?_, ?_⟩ <;> simp
  have hspec := analyzeLiveness_spec hinput
  have hinv := arenaLoop_inv hbudget (arenaInv_init _ _) rfl hloop
  obtain ⟨harena, hstorage⟩ := buildArenas_spec harenas
  obtain ⟨hsound, hcomplete⟩ := buildViews_spec hviews
  set replace := res.bufferReplace
  have hplaced : ∀ {k v b}, (k, v) ∈ replace → schedule.slot k = some b →
      ∃ info arena, Placed input.liveness st.offsets b.laneKey b.id info v.offset ∧
        info.proto = b ∧ schedule.Plannable outs b ∧ v.size = b.size ∧
        (b.laneKey, arena) ∈ arenas ∧ v.data = arena.data ∧ v.offset + v.size ≤ arena.size := by
    intro k v b hv hb
    obtain ⟨id, hocc, hview⟩ := hsound k v hv
    exact view_placed hspec hocc hb hview fun lane arena hmem => (harena lane arena hmem).2.1
  -- two views of one lane lie in the same arena
  have hsame : ∀ {k v b k' v' b'}, (k, v) ∈ replace → schedule.slot k = some b →
      (k', v') ∈ replace → schedule.slot k' = some b' →
      (v.data.storageId = v'.data.storageId ↔ b.laneKey = b'.laneKey) := by
    intro k v b k' v' b' hv hb hv' hb'
    obtain ⟨id, hocc, info, offset, arena, hinfo, hoff, hlook, hdata, -⟩ := hsound k v hv
    obtain ⟨id', hocc', info', offset', arena', hinfo', hoff', hlook', hdata', -⟩ := hsound k' v' hv'
    obtain ⟨b₁, hb₁, -, -, rfl⟩ := (hspec.occurrence k id).mp hocc
    obtain ⟨b₂, hb₂, -, -, rfl⟩ := (hspec.occurrence k' id').mp hocc'
    rw [hb, Option.some.injEq] at hb₁
    rw [hb', Option.some.injEq] at hb₂
    subst hb₁ hb₂
    rw [hspec.lookup_proto hb hinfo] at hlook
    rw [hspec.lookup_proto hb' hinfo'] at hlook'
    obtain ⟨A, C, hA, -⟩ := List.lookup_eq_some_iff.mp hlook
    obtain ⟨A', C', hA', -⟩ := List.lookup_eq_some_iff.mp hlook'
    have hmem : (b.laneKey, arena) ∈ arenas := by simp [hA]
    have hmem' : (b'.laneKey, arena') ∈ arenas := by simp [hA']
    constructor
    · intro hid
      by_contra hne
      rw [hdata, hdata'] at hid
      exact hstorage _ _ _ _ hmem hmem' hne hid
    · intro hl
      rw [hl, hlook', Option.some.injEq] at hlook
      rw [hdata, hdata', hlook]
  have hdisjoint : ∀ {k v b k' v' b'}, (k, v) ∈ replace → schedule.slot k = some b →
      (k', v') ∈ replace → schedule.slot k' = some b' → b.id ≠ b'.id → b.laneKey = b'.laneKey →
      ∀ {info info'}, input.liveness.lookup b.id = some info →
      input.liveness.lookup b'.id = some info' → info.firstLevel ≤ info'.lastLevel →
      info'.firstLevel ≤ info.lastLevel →
      v.offset + v.size ≤ v'.offset ∨ v'.offset + v'.size ≤ v.offset := by
    intro k v b k' v' b' hv hb hv' hb' hne hl info info' hinfo hinfo' hle hle'
    obtain ⟨i, -, hp, rfl, -, hsize, -⟩ := hplaced hv hb
    obtain ⟨i', -, hp', rfl, -, hsize', -⟩ := hplaced hv' hb'
    have hi := hp.known
    have hi' := hp'.known
    rw [hinfo, Option.some.injEq] at hi
    rw [hinfo', Option.some.injEq] at hi'
    subst hi hi'
    rw [hsize, hsize']
    rw [← hl] at hp'
    exact hinv.disjoint _ _ _ _ _ _ _ hp hp' hne hle hle'
  refine ⟨?_, ?_, fun k v b k' v' b' hv hb hv' hb' => hsame hv hb hv' hb', ?_, ?_⟩
  · intro k v hv
    obtain ⟨id, hocc, -⟩ := hsound k v hv
    obtain ⟨b, hb, -, hplan, -⟩ := (hspec.occurrence k id).mp hocc
    obtain ⟨_, _, -, -, -, hsize, -⟩ := hplaced hv hb
    exact ⟨b, hb, hplan, hsize⟩
  · intro k v b hv hb
    obtain ⟨info, arena, -, -, -, -, hmem, hdata, hfit⟩ := hplaced hv hb
    obtain ⟨-, -, peak, hpeak, hround, htotal⟩ := harena _ _ hmem
    rw [hdata, htotal]
    refine ⟨hfit, peak, ?_, hround⟩
    obtain ⟨⟨id₁, info₁, off₁, hp₁, rfl⟩, hub⟩ :=
      hinv.peak _ _ (AList.mem_lookup_iff.mpr hpeak)
    refine ⟨?_, ?_⟩
    · -- the buffer that reaches the peak has a slot, and that slot a view
      obtain ⟨hid₁, hplan₁, k₁, hk₁⟩ := hspec.proto id₁ info₁ hp₁.known
      obtain ⟨k₂, hk₂, hl₂⟩ := (hspec.levels id₁ info₁ hp₁.known).1
      have hocc₁ : (k₂, id₁) ∈ input.occurrences :=
        (hspec.occurrence k₂ id₁).mpr ⟨info₁.proto, hk₂, by rw [hl₂]; rfl, hplan₁, hid₁⟩
      obtain ⟨id, hocc, info', _, arena', hinfo', -, hlook', -⟩ := hsound k v hv
      obtain ⟨b₂, hb₂, -, -, rfl⟩ := (hspec.occurrence k id).mp hocc
      rw [hb, Option.some.injEq] at hb₂
      subst hb₂
      rw [hspec.lookup_proto hb hinfo', ← hp₁.lane] at hlook'
      obtain ⟨v₁, hv₁, -⟩ := hcomplete k₂ id₁ info₁ off₁ arena' hocc₁ hp₁.known hp₁.offset hlook'
      obtain ⟨info₂, _, hp₂, hproto₂, -, hsize₂, -⟩ := hplaced hv₁ hk₂
      refine ⟨k₂, v₁, info₁.proto, hv₁, hk₂, hp₁.lane, ?_⟩
      have hoff := hp₂.offset
      rw [hid₁, hp₁.offset, Option.some.injEq] at hoff
      rw [hsize₂, hoff]
    · rintro e ⟨k', v', b', hv', hb', hl', rfl⟩
      obtain ⟨info', _, hp', hproto', -, hsize', -⟩ := hplaced hv' hb'
      rw [hl'] at hp'
      exact hub ⟨_, info', v'.offset, hp', by rw [hsize', hproto']⟩
  · rintro k v b k' v' b' hv hb hv' hb' hne hl ⟨level, ⟨l₁, l₂, h₁, h₂, hl₁, hl₂⟩,
      ⟨l₁', l₂', h₁', h₂', hl₁', hl₂'⟩⟩
    obtain ⟨info, -, hp, rfl, -⟩ := hplaced hv hb
    obtain ⟨info', -, hp', rfl, -⟩ := hplaced hv' hb'
    have hb₁ := (hspec.levels _ info hp.known).2.2
    have hb₂ := (hspec.levels _ info' hp'.known).2.2
    have := hb₁ l₁ h₁
    have := hb₁ l₂ h₂
    have := hb₂ l₁' h₁'
    have := hb₂ l₂' h₂'
    exact hdisjoint hv hb hv' hb' hne hl hp.known hp'.known (by omega) (by omega)
  · intro k v b k' v' b' x hv hb hv' hb' hne hst hx₁ hx₂ hx₁' hx₂'
    have hl := (hsame hv hb hv' hb').mp hst
    obtain ⟨info, -, hp, rfl, -⟩ := hplaced hv hb
    obtain ⟨info', -, hp', rfl, -⟩ := hplaced hv' hb'
    have hb₁ := (hspec.levels _ info hp.known).2.2
    have hb₂ := (hspec.levels _ info' hp'.known).2.2
    by_cases hle : info.lastLevel < info'.firstLevel
    · left
      intro l l' hul hul'
      have := hb₁ l hul
      have := hb₂ l' hul'
      omega
    · by_cases hle' : info'.lastLevel < info.firstLevel
      · right
        intro l l' hul hul'
        have := hb₂ l hul
        have := hb₁ l' hul'
        omega
      · have := hdisjoint hv hb hv' hb' hne hl hp.known hp'.known (by omega) (by omega)
        omega

/-- Three one-step buffers and an output: the third starts where the first has been retired. -/
def sharingSchedule : Schedule :=
  let buffer (id n : Nat) : Buffer :=
    Buffer.new id .cpu (.scalar .uint8) [n] ⟨false, false, false, false⟩
  ⟨[⟨[buffer 1 300, buffer 2 100], [11, 12], true, []⟩,
    ⟨[buffer 2 100], [12], true, []⟩,
    ⟨[buffer 3 250, buffer 9 9], [13, 19], true, []⟩], by decide⟩

/-- Three buffers of which the first and the last share bytes. -/
theorem memoryPlanArena_safe_sharing :
    ∃ res, memoryPlanArena sharingSchedule [0, 1, 2] [9] 100 = some res ∧
      res.bufferReplace.map (fun r => (r.2.offset, r.2.size)) =
        [(0, 300), (512, 100), (512, 100), (0, 250)] ∧
      ArenaPlanSafe sharingSchedule [0, 1, 2] [9] res.bufferReplace := by
  have hsome : (memoryPlanArena sharingSchedule [0, 1, 2] [9] 100).map
      (fun res => res.bufferReplace.map fun r => (r.2.offset, r.2.size)) =
      some [(0, 300), (512, 100), (512, 100), (0, 250)] := by decide +kernel
  obtain ⟨res, hres, hviews⟩ := Option.map_eq_some_iff.mp hsome
  exact ⟨res, hres, hviews, memoryPlanArena_safe hres⟩

end Svod.MemoryPlanner
