/-
  Svod.MemoryPlanner.Liveness

  What `analyze_liveness` and `build_event_timeline` compute.

  `UsedAt` reads a buffer's execution levels off the schedule.  The liveness
  fold keeps, per handle id, the least and the greatest of them; the sorted
  timeline then holds one alloc and one free event per id, and a buffer freed
  before another is allocated is retired at a strictly earlier level.
-/

import Svod.MemoryPlanner.Planner
import Svod.Lib.Fallible

namespace Svod.MemoryPlanner

open Svod.Lib Svod.Lib.Checked

variable {b : Buffer} {liveness : Liveness} {id level : Nat} {info : BufferLiveness}
  {U : BufferKey → Nat → Buffer → Prop} {itemLevels outs : List Nat} {e : BufferEvent}

/-! ## Uses of a buffer -/

/-- The buffer in one slot of the schedule. -/
def Schedule.slot (schedule : Schedule) (key : BufferKey) : Option Buffer := do
  let it ← schedule.items[key.kernelIdx]?
  it.buffers[key.bufferIdx]?

/-- The planner takes charge of `b`: no exclusion applies to it. -/
def Schedule.Plannable (schedule : Schedule) (outputBufferIds : List Nat) (b : Buffer) : Prop :=
  exclusionReason b outputBufferIds (collectExcludedBufferIds schedule) = none

/-- Some item of level `level` has `b` among its buffers. -/
def UsedAt (schedule : Schedule) (itemLevels : List Nat) (b : Buffer) (level : Nat) : Prop :=
  ∃ key, schedule.slot key = some b ∧ itemLevels[key.kernelIdx]? = some level

/-- `level` lies in the execution-level interval of `b`. -/
def LiveAt (schedule : Schedule) (itemLevels : List Nat) (b : Buffer) (level : Nat) : Prop :=
  ∃ l₁ l₂, UsedAt schedule itemLevels b l₁ ∧ UsedAt schedule itemLevels b l₂ ∧
    l₁ ≤ level ∧ level ≤ l₂

/-- Every level of `b` is strictly below every level of `b'`. -/
def StrictlyBefore (schedule : Schedule) (itemLevels : List Nat) (b b' : Buffer) : Prop :=
  ∀ l l', UsedAt schedule itemLevels b l → UsedAt schedule itemLevels b' l' → l < l'

variable {schedule : Schedule}

theorem Schedule.slot_eq_some {key : BufferKey} :
    schedule.slot key = some b ↔
      ∃ it, schedule.items[key.kernelIdx]? = some it ∧ it.buffers[key.bufferIdx]? = some b := by
  simp [slot, Option.bind_eq_some_iff]

/-- A handle id names one buffer across all slots. -/
theorem Schedule.slot_inj {k k' : BufferKey} {b b' : Buffer} (h : schedule.slot k = some b)
    (h' : schedule.slot k' = some b') (hid : b.id = b'.id) : b = b' := by
  obtain ⟨it, hit, hb⟩ := slot_eq_some.mp h
  obtain ⟨it', hit', hb'⟩ := slot_eq_some.mp h'
  exact schedule.ids_identify it (List.mem_of_getElem? hit) it' (List.mem_of_getElem? hit')
    b (List.mem_of_getElem? hb) b' (List.mem_of_getElem? hb') hid

theorem ScheduleItem.mem_slots {it : ScheduleItem} {i : Nat} {key : BufferKey} :
    (key, b) ∈ it.slots i ↔ key.kernelIdx = i ∧ it.buffers[key.bufferIdx]? = some b := by
  simp only [slots, List.mem_map, Prod.exists, List.mem_zipIdx_iff_getElem?, Prod.mk.injEq]
  constructor
  · rintro ⟨b', j, hj, rfl, rfl⟩
    exact ⟨rfl, hj⟩
  · rintro ⟨rfl, hb⟩
    exact ⟨b, key.bufferIdx, hb, rfl, rfl⟩

/-! ## The liveness fold -/

theorem lookup_recordUse_ne {poolKey : BufferPoolKey} (h : id ≠ b.id) :
    (recordUse liveness level b poolKey).lookup id = liveness.lookup id := by
  unfold recordUse
  split
  · exact AList.lookup_insert_ne h
  · exact AList.lookup_insert_ne h

theorem lookup_recordUse_known {poolKey : BufferPoolKey} (h : liveness.lookup b.id = some info) :
    (recordUse liveness level b poolKey).lookup b.id = some
      { info with firstLevel := min info.firstLevel level
                  lastLevel := max info.lastLevel level } := by
  simp [recordUse, h, AList.lookup_insert]

theorem lookup_recordUse_new {poolKey : BufferPoolKey} (h : liveness.lookup b.id = none) :
    (recordUse liveness level b poolKey).lookup b.id = some ⟨level, level, poolKey, b⟩ := by
  simp [recordUse, h, AList.lookup_insert]

/-- `info` summarises the uses `U` of the buffer with id `id`: its interval is spanned by
    uses and covers them all, its prototype is the buffer of one of them. -/
structure Summarises (plannable : Buffer → Prop) (U : BufferKey → Nat → Buffer → Prop)
    (id : Nat) (info : BufferLiveness) : Prop where
  first_used : ∃ k b, U k info.firstLevel b ∧ b.id = id
  last_used : ∃ k b, U k info.lastLevel b ∧ b.id = id
  bounds : ∀ k l b, U k l b → plannable b → b.id = id → info.firstLevel ≤ l ∧ l ≤ info.lastLevel
  proto_used : ∃ k l, U k l info.proto
  proto_id : info.proto.id = id
  proto_plannable : plannable info.proto
  poolKey : ∃ size, roundUp info.proto.size minBlockSize = some size ∧
    info.poolKey = ⟨info.proto.data.device, info.proto.dtype, size⟩

/-- The state of the liveness loops after the uses `U`. -/
structure LivenessInv (plannable : Buffer → Prop) (U : BufferKey → Nat → Buffer → Prop)
    (st : LivenessState) : Prop where
  occurrence : ∀ k id, (k, id) ∈ st.occurrences ↔ ∃ l b, U k l b ∧ plannable b ∧ b.id = id
  known : ∀ k l b, U k l b → plannable b → ∃ info, st.liveness.lookup b.id = some info
  summary : ∀ id info, st.liveness.lookup id = some info → Summarises plannable U id info

theorem Summarises.mono {P : Buffer → Prop} {U U' : BufferKey → Nat → Buffer → Prop}
    (h : Summarises P U id info) (hU : ∀ k l b, U k l b → U' k l b)
    (hnew : ∀ k l b, U' k l b → P b → b.id = id → U k l b) : Summarises P U' id info := by
  obtain ⟨⟨k₁, b₁, h₁, e₁⟩, ⟨k₂, b₂, h₂, e₂⟩, hb, ⟨k₃, l₃, h₃⟩, hid, hp, hpool⟩ := h
  exact ⟨⟨k₁, b₁, hU _ _ _ h₁, e₁⟩, ⟨k₂, b₂, hU _ _ _ h₂, e₂⟩,
    fun k l b hu hP he => hb k l b (hnew k l b hu hP he) hP he,
    ⟨k₃, l₃, hU _ _ _ h₃⟩, hid, hp, hpool⟩

theorem LivenessInv.congr {P : Buffer → Prop} {U U' : BufferKey → Nat → Buffer → Prop}
    {st : LivenessState} (h : LivenessInv P U st) (hU : ∀ k l b, U k l b ↔ U' k l b) :
    LivenessInv P U' st := by
  have : U = U' := by
    funext k l b
    exact propext (hU k l b)
  rwa [← this]

/-- One slot adds one use. -/
theorem visitSlot_inv {excluded : ExcludedBufferIds} {st st' : LivenessState} {key : BufferKey}
    (h : LivenessInv (exclusionReason · outs excluded = none) U st)
    (hstep : visitSlot outs excluded level st (key, b) = some st') :
    LivenessInv (exclusionReason · outs excluded = none)
      (fun k l b' => U k l b' ∨ (k = key ∧ l = level ∧ b' = b)) st' := by
  cases hex : exclusionReason b outs excluded with
  | some reason =>
    -- an excluded buffer changes neither the occurrences nor the intervals
    have hsame : st'.occurrences = st.occurrences ∧ st'.liveness = st.liveness := by
      simp only [visitSlot, hex] at hstep
      split at hstep
      · cases hstep
        exact ⟨rfl, rfl⟩
      · cases hstep
        exact ⟨rfl, rfl⟩
    have hnew : ∀ k l b', (U k l b' ∨ (k = key ∧ l = level ∧ b' = b)) →
        exclusionReason b' outs excluded = none → U k l b' := by
      rintro k l b' (hu | ⟨-, -, rfl⟩) hp
      · exact hu
      · rw [hex] at hp
        cases hp
    refine ⟨?_, ?_, ?_⟩
    · intro k id
      rw [hsame.1, h.occurrence]
      constructor
      · rintro ⟨l, b', hu, hp, he⟩
        exact ⟨l, b', .inl hu, hp, he⟩
      · rintro ⟨l, b', hu, hp, he⟩
        exact ⟨l, b', hnew k l b' hu hp, hp, he⟩
    · intro k l b' hu hp
      rw [hsame.2]
      exact h.known k l b' (hnew k l b' hu hp) hp
    · intro id info hinfo
      rw [hsame.2] at hinfo
      exact (h.summary id info hinfo).mono (fun _ _ _ => .inl)
        fun k l b' hu hp _ => hnew k l b' hu hp
  | none =>
    simp only [visitSlot, hex, bind_eq_some,
      Option.some.injEq] at hstep
    obtain ⟨size, hsize, rfl⟩ := hstep
    set pk : BufferPoolKey := ⟨b.data.device, b.dtype, size⟩ with hpk
    refine ⟨?_, ?_, ?_⟩
    · intro k id
      rw [List.mem_append, h.occurrence, List.mem_singleton, Prod.mk.injEq]
      constructor
      · rintro (⟨l, b', hu, hp, he⟩ | ⟨rfl, rfl⟩)
        · exact ⟨l, b', .inl hu, hp, he⟩
        · exact ⟨level, b, .inr ⟨rfl, rfl, rfl⟩, hex, rfl⟩
      · rintro ⟨l, b', hu | ⟨rfl, -, rfl⟩, hp, he⟩
        · exact .inl ⟨l, b', hu, hp, he⟩
        · exact .inr ⟨rfl, he.symm⟩
    · intro k l b' hu hp
      by_cases hid : b'.id = b.id
      · rw [hid]
        cases hl : st.liveness.lookup b.id with
        | none => exact ⟨_, lookup_recordUse_new hl⟩
        | some info => exact ⟨_, lookup_recordUse_known hl⟩
      · rcases hu with hu | ⟨-, -, rfl⟩
        · obtain ⟨info, hinfo⟩ := h.known k l b' hu hp
          exact ⟨info, by rw [lookup_recordUse_ne hid]; exact hinfo⟩
        · exact absurd rfl hid
    · intro id info hinfo
      by_cases hid : id = b.id
      · subst hid
        cases hl : st.liveness.lookup b.id with
        | none =>
          -- no earlier plannable use of this id: the interval is the single level
          rw [lookup_recordUse_new hl, Option.some.injEq] at hinfo
          subst hinfo
          have hold : ∀ k l b', U k l b' → exclusionReason b' outs excluded = none →
              b'.id ≠ b.id := by
            intro k l b' hu hp he
            obtain ⟨info, hinfo⟩ := h.known k l b' hu hp
            rw [he, hl] at hinfo
            cases hinfo
          refine ⟨⟨key, b, .inr ⟨rfl, rfl, rfl⟩, rfl⟩, ⟨key, b, .inr ⟨rfl, rfl, rfl⟩, rfl⟩, ?_,
            ⟨key, level, .inr ⟨rfl, rfl, rfl⟩⟩, rfl, hex, ⟨size, hsize, rfl⟩⟩
          rintro k l b' (hu | ⟨-, rfl, -⟩) hp he
          · exact absurd he (hold k l b' hu hp)
          · exact ⟨le_rfl, le_rfl⟩
        | some info₀ =>
          rw [lookup_recordUse_known hl, Option.some.injEq] at hinfo
          subst hinfo
          obtain ⟨⟨k₁, b₁, h₁, e₁⟩, ⟨k₂, b₂, h₂, e₂⟩, hb, ⟨k₃, l₃, h₃⟩, hpid, hpp, hpool⟩ :=
            h.summary b.id info₀ hl
          refine ⟨?_, ?_, ?_, ⟨k₃, l₃, .inl h₃⟩, hpid, hpp, hpool⟩
          · rcases min_choice info₀.firstLevel level with hm | hm
            · exact ⟨k₁, b₁, .inl (by simpa only [hm] using h₁), e₁⟩
            · exact ⟨key, b, .inr ⟨rfl, hm, rfl⟩, rfl⟩
          · rcases max_choice info₀.lastLevel level with hm | hm
            · exact ⟨k₂, b₂, .inl (by simpa only [hm] using h₂), e₂⟩
            · exact ⟨key, b, .inr ⟨rfl, hm, rfl⟩, rfl⟩
          · rintro k l b' (hu | ⟨-, rfl, -⟩) hp he
            · have := hb k l b' hu hp he
              simp only
              omega
            · simp only
              omega
      · rw [lookup_recordUse_ne hid] at hinfo
        refine (h.summary id info hinfo).mono (fun _ _ _ => .inl) ?_
        rintro k l b' (hu | ⟨-, -, rfl⟩) - he
        · exact hu
        · exact absurd he.symm hid

/-- The slots of one item add one use each. -/
theorem visitSlots_inv {excluded : ExcludedBufferIds} {slots : List (BufferKey × Buffer)}
    {st st' : LivenessState} (h : LivenessInv (exclusionReason · outs excluded = none) U st)
    (hrun : slots.foldlM (visitSlot outs excluded level) st = some st') :
    LivenessInv (exclusionReason · outs excluded = none)
      (fun k l b => U k l b ∨ (l = level ∧ (k, b) ∈ slots)) st' := by
  induction slots generalizing U st with
  | nil =>
    simp only [List.foldlM_nil, Option.pure_def, Option.some.injEq] at hrun
    subst hrun
    exact h.congr (by simp)
  | cons slot slots ih =>
    simp only [List.foldlM_cons, bind_eq_some] at hrun
    obtain ⟨st1, hstep, hrun⟩ := hrun
    refine (ih (visitSlot_inv h hstep) hrun).congr ?_
    intro k l b
    rw [List.mem_cons, Prod.ext_iff]
    tauto

/-- The items add the uses of their slots, at the level the vector gives each item. -/
theorem visitItems_inv {excluded : ExcludedBufferIds} {items : List (ScheduleItem × Nat)}
    {st st' : LivenessState} (h : LivenessInv (exclusionReason · outs excluded = none) U st)
    (hrun : items.foldlM (visitItem itemLevels outs excluded) st = some st') :
    LivenessInv (exclusionReason · outs excluded = none)
      (fun k l b => U k l b ∨
        ∃ item ∈ items, itemLevels[item.2]? = some l ∧ (k, b) ∈ item.1.slots item.2) st' := by
  induction items generalizing U st with
  | nil =>
    simp only [List.foldlM_nil, Option.pure_def, Option.some.injEq] at hrun
    subst hrun
    exact h.congr (by simp)
  | cons item items ih =>
    simp only [List.foldlM_cons, visitItem, bind_eq_some] at hrun
    obtain ⟨st1, ⟨level, hlevel, hslots⟩, hrun⟩ := hrun
    refine (ih (visitSlots_inv h hslots) hrun).congr ?_
    intro k l b
    simp only [List.mem_cons, exists_eq_or_imp, hlevel, Option.some.injEq]
    rw [eq_comm (a := l), or_assoc]

/-- What `analyze_liveness` returns: per handle id of a plannable buffer the span of its
    levels, and the slots of the plannable buffers. -/
structure LivenessSpec (schedule : Schedule) (itemLevels outs : List Nat) (input : PlannerInput) :
    Prop where
  occurrence : ∀ k id, (k, id) ∈ input.occurrences ↔
    ∃ b, schedule.slot k = some b ∧ (itemLevels[k.kernelIdx]?).isSome ∧
      schedule.Plannable outs b ∧ b.id = id
  known : ∀ b l, UsedAt schedule itemLevels b l → schedule.Plannable outs b →
    ∃ info, input.liveness.lookup b.id = some info
  proto : ∀ id info, input.liveness.lookup id = some info →
    info.proto.id = id ∧ schedule.Plannable outs info.proto ∧
      (∃ k, schedule.slot k = some info.proto)
  levels : ∀ id info, input.liveness.lookup id = some info →
    UsedAt schedule itemLevels info.proto info.firstLevel ∧
    UsedAt schedule itemLevels info.proto info.lastLevel ∧
    ∀ l, UsedAt schedule itemLevels info.proto l → info.firstLevel ≤ l ∧ l ≤ info.lastLevel
  poolKey : ∀ id info, input.liveness.lookup id = some info →
    ∃ size, roundUp info.proto.size minBlockSize = some size ∧
      info.poolKey = ⟨info.proto.data.device, info.proto.dtype, size⟩

theorem analyzeLiveness_spec {mode : PlannerMode} {input : PlannerInput}
    (h : analyzeLiveness schedule itemLevels outs mode = some input) :
    LivenessSpec schedule itemLevels outs input := by
  simp only [analyzeLiveness, bind_eq_some,
    Option.some.injEq] at h
  obtain ⟨st, hrun, rfl⟩ := h
  have hinit : LivenessInv (exclusionReason · outs (collectExcludedBufferIds schedule) = none)
      (fun _ _ _ => False) ⟨∅, [], [], []⟩ := by
    refine ⟨by simp, by simp, ?_⟩
    intro id info hinfo
    simp [AList.lookup_empty] at hinfo
  -- the uses the loops have seen are the slots of the schedule
  have huse : ∀ k l b, (False ∨ ∃ item ∈ schedule.items.zipIdx,
      itemLevels[item.2]? = some l ∧ (k, b) ∈ item.1.slots item.2) ↔
      schedule.slot k = some b ∧ itemLevels[k.kernelIdx]? = some l := by
    intro k l b
    simp only [false_or, Prod.exists, List.mem_zipIdx_iff_getElem?, ScheduleItem.mem_slots,
      Schedule.slot_eq_some]
    constructor
    · rintro ⟨it, i, hit, hl, rfl, hb⟩
      exact ⟨⟨it, hit, hb⟩, hl⟩
    · rintro ⟨⟨it, hit, hb⟩, hl⟩
      exact ⟨it, k.kernelIdx, hit, hl, rfl, hb⟩
  obtain ⟨hocc, hknown, hsum⟩ := (visitItems_inv hinit hrun).congr huse
  refine ⟨?_, ?_, ?_, ?_, ?_⟩
  · intro k id
    rw [hocc]
    constructor
    · rintro ⟨l, b, ⟨hb, hl⟩, hp, he⟩
      exact ⟨b, hb, by rw [hl]; rfl, hp, he⟩
    · rintro ⟨b, hb, hl, hp, he⟩
      obtain ⟨l, hl⟩ := Option.isSome_iff_exists.mp hl
      exact ⟨l, b, ⟨hb, hl⟩, hp, he⟩
  · rintro b l ⟨k, hk, hl⟩ hp
    exact hknown k l b ⟨hk, hl⟩ hp
  · intro id info hinfo
    have hs := hsum id info hinfo
    obtain ⟨k, l, hk, -⟩ := hs.proto_used
    exact ⟨hs.proto_id, hs.proto_plannable, k, hk⟩
  · intro id info hinfo
    have hs := hsum id info hinfo
    obtain ⟨k, l, hk, -⟩ := hs.proto_used
    have hproto : ∀ k' b', schedule.slot k' = some b' → b'.id = id → b' = info.proto :=
      fun k' b' hk' he => Schedule.slot_inj hk' hk (he.trans hs.proto_id.symm)
    obtain ⟨k₁, b₁, ⟨h₁, l₁⟩, e₁⟩ := hs.first_used
    obtain ⟨k₂, b₂, ⟨h₂, l₂⟩, e₂⟩ := hs.last_used
    refine ⟨⟨k₁, by rw [← hproto k₁ b₁ h₁ e₁]; exact h₁, l₁⟩,
      ⟨k₂, by rw [← hproto k₂ b₂ h₂ e₂]; exact h₂, l₂⟩, ?_⟩
    rintro l ⟨k', hk', hl'⟩
    exact hs.bounds k' l info.proto ⟨hk', hl'⟩ hs.proto_plannable hs.proto_id
  · intro id info hinfo
    exact (hsum id info hinfo).poolKey

/-- The interval of a summarised buffer is not empty. -/
theorem LivenessSpec.first_le_last {input : PlannerInput}
    (h : LivenessSpec schedule itemLevels outs input)
    (hinfo : input.liveness.lookup id = some info) : info.firstLevel ≤ info.lastLevel := by
  obtain ⟨hfirst, -, hbounds⟩ := h.levels id info hinfo
  exact (hbounds _ hfirst).2

/-- The summary of a plannable buffer that some slot holds. -/
theorem LivenessSpec.lookup_proto {input : PlannerInput}
    (h : LivenessSpec schedule itemLevels outs input) {k : BufferKey}
    (hslot : schedule.slot k = some b) (hinfo : input.liveness.lookup b.id = some info) :
    info.proto = b := by
  obtain ⟨hid, -, k', hk'⟩ := h.proto b.id info hinfo
  exact Schedule.slot_inj hk' hslot hid

/-! ## The event timeline -/

namespace BufferEvent

theorem le_iff {e e' : BufferEvent} : e.le e' = true ↔
    e.timestep < e'.timestep ∨ (e.timestep = e'.timestep ∧
      ((e.isAlloc = false ∧ e'.isAlloc = true) ∨
        (e.isAlloc = e'.isAlloc ∧ e.bufferId ≤ e'.bufferId))) := by
  simp [le]

theorem le_trans {e e' e'' : BufferEvent} (h : e.le e' = true) (h' : e'.le e'' = true) :
    e.le e'' = true := by
  rw [le_iff] at *
  grind

theorem le_total (e e' : BufferEvent) : e.le e' = true ∨ e'.le e = true := by
  rw [le_iff, le_iff]
  grind

theorem le_antisymm {e e' : BufferEvent} (h : e.le e' = true) (h' : e'.le e = true) :
    e = e' := by
  rw [le_iff] at *
  cases e
  cases e'
  grind

instance : IsTrans BufferEvent (fun e e' => e.le e' = true) := ⟨fun _ _ _ => le_trans⟩

instance : Std.Total (fun e e' : BufferEvent => e.le e' = true) := ⟨le_total⟩

end BufferEvent

/-- An event stands in the timeline when it opens or retires the interval of its buffer. -/
theorem mem_buildEventTimeline :
    e ∈ buildEventTimeline liveness ↔ ∃ info, liveness.lookup e.bufferId = some info ∧
      e ∈ bufferEvents e.bufferId info := by
  simp only [buildEventTimeline, List.mem_insertionSort, List.mem_flatMap, Sigma.exists]
  constructor
  · rintro ⟨id, info, hmem, he⟩
    have hid : e.bufferId = id := by
      rcases List.mem_cons.mp he with rfl | he
      · rfl
      · rw [List.mem_singleton.mp he]
    subst hid
    exact ⟨info, AList.mem_lookup_iff.mpr hmem, he⟩
  · rintro ⟨info, hinfo, he⟩
    exact ⟨e.bufferId, info, AList.mem_lookup_iff.mp hinfo, he⟩

theorem alloc_mem_timeline {t id : Nat} :
    ⟨t, true, id⟩ ∈ buildEventTimeline liveness ↔
      ∃ info, liveness.lookup id = some info ∧ t = info.firstLevel := by
  rw [mem_buildEventTimeline]
  simp [bufferEvents]

theorem free_mem_timeline {t id : Nat} :
    ⟨t, false, id⟩ ∈ buildEventTimeline liveness ↔
      ∃ info, liveness.lookup id = some info ∧ t = info.lastLevel + 1 := by
  rw [mem_buildEventTimeline]
  simp [bufferEvents]

theorem buildEventTimeline_nodup (liveness : Liveness) : (buildEventTimeline liveness).Nodup := by
  rw [buildEventTimeline, (List.perm_insertionSort _ _).nodup_iff, List.nodup_flatMap]
  refine ⟨fun e _ => by simp [bufferEvents], ?_⟩
  have hkeys := List.nodupKeys_iff_pairwise.mp liveness.nodupKeys
  refine hkeys.imp ?_
  intro e e' hne x hx hx'
  have hid : x.bufferId = e.1 := by
    simp only [bufferEvents, List.mem_cons, List.not_mem_nil, or_false] at hx
    rcases hx with rfl | rfl <;> rfl
  have hid' : x.bufferId = e'.1 := by
    simp only [bufferEvents, List.mem_cons, List.not_mem_nil, or_false] at hx'
    rcases hx' with rfl | rfl <;> rfl
  exact hne (hid.symm.trans hid')

/-- Where the timeline is cut at `e`, the events before it are the strictly smaller ones. -/
theorem timeline_split {pre post : List BufferEvent}
    (h : buildEventTimeline liveness = pre ++ e :: post) :
    (∀ x ∈ pre, e.le x = false) ∧ (∀ x ∈ post, x.le e = false) := by
  have hsorted := List.pairwise_insertionSort (fun e e' : BufferEvent => e.le e' = true)
    (liveness.entries.flatMap fun e => bufferEvents e.1 e.2)
  have hnodup := buildEventTimeline_nodup liveness
  change (buildEventTimeline liveness).Pairwise _ at hsorted
  rw [h] at hsorted hnodup
  obtain ⟨-, hpost, hcross⟩ := List.pairwise_append.mp hsorted
  obtain ⟨-, hnpost, hncross⟩ := List.nodup_append.mp hnodup
  refine ⟨fun x hx => ?_, fun x hx => ?_⟩
  · rw [Bool.eq_false_iff]
    intro hle
    have hxe := BufferEvent.le_antisymm (hcross x hx e List.mem_cons_self) hle
    exact hncross x hx e List.mem_cons_self hxe
  · rw [Bool.eq_false_iff]
    intro hle
    have hxe := BufferEvent.le_antisymm hle ((List.pairwise_cons.mp hpost).1 x hx)
    rw [hxe] at hx
    exact (List.nodup_cons.mp hnpost).1 hx

/-- An event of the timeline other than `e` stands before `e` when it is smaller. -/
theorem mem_pre_of_le {pre post : List BufferEvent} {e x : BufferEvent}
    (h : buildEventTimeline liveness = pre ++ e :: post) (hx : x ∈ buildEventTimeline liveness)
    (hle : x.le e = true) (hne : x ≠ e) : x ∈ pre := by
  rw [h, List.mem_append, List.mem_cons] at hx
  rcases hx with hx | rfl | hx
  · exact hx
  · exact absurd rfl hne
  · rw [(timeline_split h).2 x hx] at hle
    cases hle

/-- A buffer retired before another one is opened ends at a strictly earlier level. -/
theorem retired_before {pre post : List BufferEvent} {t t' id id' : Nat}
    {info info' : BufferLiveness} (h : buildEventTimeline liveness = pre ++ ⟨t, true, id⟩ :: post)
    (hinfo : liveness.lookup id = some info) (hinfo' : liveness.lookup id' = some info')
    (hfree : ⟨t', false, id'⟩ ∈ pre) : info'.lastLevel < info.firstLevel := by
  have hlt := (timeline_split h).1 _ hfree
  have hmem : ⟨t, true, id⟩ ∈ buildEventTimeline liveness := by simp [h]
  have hmem' : ⟨t', false, id'⟩ ∈ buildEventTimeline liveness := by
    rw [h]
    exact List.mem_append_left _ hfree
  obtain ⟨_, hi, rfl⟩ := alloc_mem_timeline.mp hmem
  obtain ⟨_, hi', rfl⟩ := free_mem_timeline.mp hmem'
  rw [hinfo, Option.some.injEq] at hi
  rw [hinfo', Option.some.injEq] at hi'
  subst hi hi'
  rw [← Bool.not_eq_true, BufferEvent.le_iff] at hlt
  simp only at hlt
  omega

/-- Each buffer has one alloc and one free event. -/
theorem event_unique (liveness : Liveness) (id : Nat) (isAlloc : Bool) {t t' : Nat}
    (h : ⟨t, isAlloc, id⟩ ∈ buildEventTimeline liveness)
    (h' : ⟨t', isAlloc, id⟩ ∈ buildEventTimeline liveness) : t = t' := by
  obtain ⟨info, hinfo, he⟩ := mem_buildEventTimeline.mp h
  obtain ⟨info', hinfo', he'⟩ := mem_buildEventTimeline.mp h'
  rw [hinfo, Option.some.injEq] at hinfo'
  subst hinfo'
  cases isAlloc <;> simp_all [bufferEvents]

/-- `id` is allocated and not yet retired after the events `pre`. -/
def Active (pre : List BufferEvent) (id : Nat) : Prop :=
  (∃ t, ⟨t, true, id⟩ ∈ pre) ∧ ∀ t, ⟨t, false, id⟩ ∉ pre

theorem active_append {pre : List BufferEvent} (h : Active (pre ++ [e]) id)
    (hne : e.bufferId ≠ id) : Active pre id := by
  obtain ⟨⟨t, ht⟩, hno⟩ := h
  refine ⟨⟨t, ?_⟩, fun t' ht' => hno t' (List.mem_append_left _ ht')⟩
  rcases List.mem_append.mp ht with ht | ht
  · exact ht
  · rw [List.mem_singleton] at ht
    exact absurd (by rw [← ht]) hne

end Svod.MemoryPlanner
