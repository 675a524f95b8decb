/-
  Svod.MemoryPlanner.Pool

  Pool reuse (`Remap`): which buffer a logical buffer is given, and when that is
  safe.

  Read the timeline of one pool as brackets, frees opening and allocs closing:
  an alloc takes over the buffer of the free it matches (`Reuses`).  Following
  these matches back from a buffer ends in a root, whose own storage serves the
  whole chain.  The levels of two buffers served by one storage are always
  strictly disjoint.  Size and class of memory are not compared anywhere on the
  chain, so they are right exactly when the root's are (`PoolFits`).
-/

import Mathlib.Order.Bounds.Basic
import Svod.Lib.Lifo
import Svod.MemoryPlanner.Liveness

namespace Svod.MemoryPlanner

open Svod.Lib.Checked Svod.Lib.Lifo

variable {key : BufferPoolKey} {id : Nat} {info : BufferLiveness} {k : BufferKey}

/-! ## The reuse chains of a schedule -/

/-- The buffer a handle id names in the schedule. -/
def Schedule.bufferOf (schedule : Schedule) (id : Nat) : Option Buffer :=
  (schedule.items.flatMap (·.buffers)).find? (·.id = id)

/-- The pool a buffer returns to. -/
def Buffer.poolKey (b : Buffer) : Option BufferPoolKey :=
  (roundUp b.size minBlockSize).map fun size => ⟨b.data.device, b.dtype, size⟩

/-- The event is about a buffer of the same pool as `b`. -/
def Schedule.inPool (schedule : Schedule) (b : Buffer) (e : BufferEvent) : Bool :=
  match schedule.bufferOf e.bufferId with
  | some b' => b'.poolKey = b.poolKey
  | none => false

/-- `events` is the timeline of the plannable buffers: one alloc event at the first level of
    each, one free event past its last level, in the planner's order. -/
structure IsTimeline (schedule : Schedule) (itemLevels outs : List Nat)
    (events : List BufferEvent) : Prop where
  sorted : events.Pairwise fun e e' => e.le e' = true
  nodup : events.Nodup
  alloc : ∀ t id, ⟨t, true, id⟩ ∈ events ↔ ∃ b, b.id = id ∧ schedule.Plannable outs b ∧
    IsLeast {l | UsedAt schedule itemLevels b l} t
  free : ∀ t id, ⟨t, false, id⟩ ∈ events ↔ ∃ b, b.id = id ∧ schedule.Plannable outs b ∧
    ∃ l, IsGreatest {l | UsedAt schedule itemLevels b l} l ∧ t = l + 1

/-- Frees open a bracket: they push a buffer on the pool. -/
def BufferEvent.pushes (e : BufferEvent) : Bool := !e.isAlloc

/-- The alloc of `b` matches the free of `b'` in the timeline of their pool. -/
def Reuses (schedule : Schedule) (itemLevels outs : List Nat) (b' b : Buffer) : Prop :=
  (∃ k, schedule.slot k = some b') ∧ (∃ k, schedule.slot k = some b) ∧
  ∃ events pre mid post t t', IsTimeline schedule itemLevels outs events ∧
    events.filter (schedule.inPool b) =
      (pre ++ ⟨t', false, b'.id⟩ :: mid) ++ ⟨t, true, b.id⟩ :: post ∧
    Balanced BufferEvent.pushes mid

/-- `r` starts the reuse chain of `b`. -/
def Root (schedule : Schedule) (itemLevels outs : List Nat) (r b : Buffer) : Prop :=
  Relation.ReflTransGen (Reuses schedule itemLevels outs) r b ∧
    ∀ b', ¬ Reuses schedule itemLevels outs b' r

/-- Every chain starts with a buffer that can serve all of its members. -/
def PoolFits (schedule : Schedule) (itemLevels outs : List Nat) : Prop :=
  ∀ r b, Root schedule itemLevels outs r b → b.size ≤ r.size ∧ r.spec = b.spec

/-! ## The same chains over the liveness table -/

/-- The event is about a buffer with pool key `key`. -/
def keyed (liveness : Liveness) (key : BufferPoolKey) (e : BufferEvent) : Bool :=
  match liveness.lookup e.bufferId with
  | some info => info.poolKey = key
  | none => false

variable {e : BufferEvent}

theorem keyed_eq_true {liveness : Liveness} :
    keyed liveness key e = true ↔ ∃ info, liveness.lookup e.bufferId = some info ∧
      info.poolKey = key := by
  unfold keyed
  split <;> simp_all

/-- The alloc of `id` matches the free of `id'`. -/
def ReusesId (liveness : Liveness) (id' id : Nat) : Prop :=
  ∃ info pre post pre' mid t t', liveness.lookup id = some info ∧
    buildEventTimeline liveness = pre ++ ⟨t, true, id⟩ :: post ∧
    pre.filter (keyed liveness info.poolKey) = pre' ++ ⟨t', false, id'⟩ :: mid ∧
    Balanced BufferEvent.pushes mid

def RootId (liveness : Liveness) (r id : Nat) : Prop :=
  Relation.ReflTransGen (ReusesId liveness) r id ∧ ∀ id', ¬ ReusesId liveness id' r

/-- A duplicate-free list is cut at an element in one way. -/
theorem split_unique {α : Type} {A A' B B' : List α} {x : α}
    (h : A ++ x :: B = A' ++ x :: B') (hnd : (A ++ x :: B).Nodup) : A = A' ∧ B = B' := by
  obtain ⟨-, -, hA⟩ := List.nodup_append.mp hnd
  rw [h] at hnd
  obtain ⟨-, -, hA'⟩ := List.nodup_append.mp hnd
  rw [List.append_eq_append_iff] at h
  rcases h with ⟨C, hA₁, hB₁⟩ | ⟨C, hA₁, hB₁⟩
  · cases C with
    | nil =>
      simp only [List.nil_append, List.cons.injEq, true_and] at hB₁
      exact ⟨by simpa using hA₁.symm, hB₁⟩
    | cons y C =>
      obtain ⟨rfl, -⟩ := List.cons.inj hB₁
      exact absurd rfl (hA' x (by simp [hA₁]) x List.mem_cons_self)
  · cases C with
    | nil =>
      simp only [List.nil_append, List.cons.injEq, true_and] at hB₁
      exact ⟨by simpa using hA₁, hB₁.symm⟩
    | cons y C =>
      obtain ⟨rfl, -⟩ := List.cons.inj hB₁
      exact absurd rfl (hA x (by simp [hA₁]) x List.mem_cons_self)

/-- Which free an alloc matches is the top of its pool's stack. -/
theorem reusesId_iff {liveness : Liveness} {pre post : List BufferEvent} {t id : Nat} (id' : Nat)
    (hinfo : liveness.lookup id = some info)
    (hsplit : buildEventTimeline liveness = pre ++ ⟨t, true, id⟩ :: post) :
    ReusesId liveness id' id ↔ ∃ t', (stack BufferEvent.pushes
      (pre.filter (keyed liveness info.poolKey))).head? = some ⟨t', false, id'⟩ := by
  constructor
  · rintro ⟨info', pre', post', A, mid, t₁, t', hinfo', hsplit', hfilter, hbal⟩
    rw [hinfo, Option.some.injEq] at hinfo'
    subst hinfo'
    have ht : t₁ = t := event_unique liveness id true
      (by simp [hsplit']) (by simp [hsplit])
    subst ht
    have hnd := buildEventTimeline_nodup liveness
    rw [hsplit] at hsplit' hnd
    obtain ⟨rfl, -⟩ := split_unique hsplit' hnd
    exact ⟨t', top_iff.mpr ⟨A, mid, hfilter, rfl, hbal⟩⟩
  · rintro ⟨t', htop⟩
    obtain ⟨A, mid, hfilter, -, hbal⟩ := top_iff.mp htop
    exact ⟨info, pre, post, A, mid, t, t', hinfo, hsplit, hfilter, hbal⟩

/-! ## The pool loop -/

/-- The handle given to `id` is in use or on a free list. -/
def Holds (liveness : Liveness) (pre : List BufferEvent) (id : Nat) : Prop :=
  Active pre id ∨ ∃ t key, ⟨t, false, id⟩ ∈
    stack BufferEvent.pushes (pre.filter (keyed liveness key))

/-- The pool loop after the events `pre`. -/
structure PoolInv (liveness : Liveness) (pre : List BufferEvent) (st : PoolState) : Prop where
  pools : ∀ key, (st.freePools key).map some =
    (stack BufferEvent.pushes (pre.filter (keyed liveness key))).map
      fun e => st.chosenById e.bufferId
  active : ∀ id, Active pre id → st.activeBuffers id = st.chosenById id
  chosen : ∀ t id, ⟨t, true, id⟩ ∈ pre → ∃ r info t', RootId liveness r id ∧
    ⟨t', true, r⟩ ∈ pre ∧ liveness.lookup r = some info ∧ st.chosenById id = some info.proto
  uniq : ∀ id id', Holds liveness pre id → Holds liveness pre id' →
    st.chosenById id = st.chosenById id' → id = id'
  apart : ∀ t t' id id' info info', ⟨t, true, id⟩ ∈ pre → ⟨t', true, id'⟩ ∈ pre →
    liveness.lookup id = some info → liveness.lookup id' = some info' → id ≠ id' →
    st.chosenById id = st.chosenById id' →
    info.lastLevel < info'.firstLevel ∨ info'.lastLevel < info.firstLevel

theorem poolInv_init (liveness : Liveness) : PoolInv liveness [] PoolState.init := by
  refine ⟨by simp [PoolState.init], ?_, by simp, ?_, by simp⟩
  · rintro id ⟨⟨t, ht⟩, -⟩
    simp at ht
  · rintro id id' (⟨⟨t, ht⟩, -⟩ | ⟨t, key, ht⟩)
    · simp at ht
    · simp at ht

section Step

variable {liveness : Liveness} {pre post : List BufferEvent} {st : PoolState}
  {t₀ id₀ : Nat} {info₀ : BufferLiveness}

/-- An interval is not empty. -/
def Proper (liveness : Liveness) : Prop :=
  ∀ id info, liveness.lookup id = some info →
    info.firstLevel ≤ info.lastLevel ∧ info.proto.id = id

/-- A retired buffer has been allocated. -/
theorem alloc_before_free {t id : Nat} (hproper : Proper liveness)
    (hsplit : buildEventTimeline liveness = pre ++ e :: post)
    (hfree : ⟨t, false, id⟩ = e ∨ ⟨t, false, id⟩ ∈ pre) : ∃ t', ⟨t', true, id⟩ ∈ pre := by
  have hmem : (⟨t, false, id⟩ : BufferEvent) ∈ buildEventTimeline liveness := by
    rw [hsplit, List.mem_append, List.mem_cons]
    tauto
  obtain ⟨info, hinfo, rfl⟩ := free_mem_timeline.mp hmem
  have hle := (hproper id info hinfo).1
  have halloc : (⟨info.firstLevel, true, id⟩ : BufferEvent) ∈ buildEventTimeline liveness :=
    alloc_mem_timeline.mpr ⟨info, hinfo, rfl⟩
  have hlt : BufferEvent.le ⟨info.firstLevel, true, id⟩ ⟨info.lastLevel + 1, false, id⟩ = true := by
    rw [BufferEvent.le_iff]
    exact .inl (Nat.lt_succ_of_le hle)
  refine ⟨info.firstLevel, ?_⟩
  rcases hfree with rfl | hfree
  · exact mem_pre_of_le hsplit halloc hlt (by simp)
  · -- the free event stands before `e`, and the alloc event before it
    by_contra hno
    have hpost : e.le ⟨info.firstLevel, true, id⟩ = true := by
      rcases BufferEvent.le_total e ⟨info.firstLevel, true, id⟩ with h | h
      · exact h
      · by_cases heq : (⟨info.firstLevel, true, id⟩ : BufferEvent) = e
        · rw [heq] at h ⊢
          exact h
        · exact absurd (mem_pre_of_le hsplit halloc h heq) hno
    have := (timeline_split hsplit).1 _ hfree
    rw [BufferEvent.le_trans hpost hlt] at this
    cases this

theorem not_mem_pre_self (hsplit : buildEventTimeline liveness = pre ++ e :: post) : e ∉ pre := by
  intro hmem
  have hnd := buildEventTimeline_nodup liveness
  rw [hsplit] at hnd
  exact (List.nodup_append.mp hnd).2.2 e hmem e List.mem_cons_self rfl

/-- The event under way is the first of its kind for its buffer. -/
theorem fresh_event {isAlloc : Bool} {t : Nat}
    (hsplit : buildEventTimeline liveness = pre ++ ⟨t₀, isAlloc, id₀⟩ :: post) :
    ⟨t, isAlloc, id₀⟩ ∉ pre := by
  intro hmem
  have hu : t = t₀ := event_unique liveness id₀ isAlloc
    (by rw [hsplit]; exact List.mem_append_left _ hmem) (by simp [hsplit])
  subst hu
  exact not_mem_pre_self hsplit hmem

theorem stack_mem_free (key : BufferPoolKey)
    (h : e ∈ stack BufferEvent.pushes (pre.filter (keyed liveness key))) :
    e = ⟨e.timestep, false, e.bufferId⟩ ∧ e ∈ pre ∧ keyed liveness key e = true := by
  obtain ⟨hmem, hpush⟩ := mem_of_mem_stack h
  rw [List.mem_filter] at hmem
  refine ⟨?_, hmem.1, hmem.2⟩
  cases e
  simp_all [BufferEvent.pushes]

/-- A buffer in use or on a free list has been allocated. -/
theorem Holds.allocated (hproper : Proper liveness)
    (hsplit : buildEventTimeline liveness = pre ++ e :: post) (h : Holds liveness pre id) :
    ∃ t, ⟨t, true, id⟩ ∈ pre := by
  rcases h with ⟨halloc, -⟩ | ⟨t, key, hmem⟩
  · exact halloc
  · exact alloc_before_free hproper hsplit (.inr (stack_mem_free _ hmem).2.1)

theorem filter_keyed_concat_other (h : keyed liveness key e = false) :
    (pre ++ [e]).filter (keyed liveness key) = pre.filter (keyed liveness key) := by
  simp [List.filter_append, h]

theorem filter_keyed_concat_self (h : keyed liveness key e = true) :
    (pre ++ [e]).filter (keyed liveness key) = pre.filter (keyed liveness key) ++ [e] := by
  simp [List.filter_append, h]

/-- Another event's buffers stay in use across the alloc of `id₀`. -/
theorem active_concat_alloc (hne : id ≠ id₀) :
    Active (pre ++ [⟨t₀, true, id₀⟩]) id ↔ Active pre id := by
  simp [Active, hne]

theorem active_concat_free : Active (pre ++ [⟨t₀, false, id₀⟩]) id ↔ Active pre id ∧ id ≠ id₀ := by
  simp only [Active, List.mem_append, List.mem_singleton, BufferEvent.mk.injEq, Bool.true_eq_false,
    false_and, and_false, or_false, true_and, not_or, not_and]
  constructor
  · rintro ⟨halloc, hno⟩
    exact ⟨⟨halloc, fun t => (hno t).1⟩, (hno t₀).2 rfl⟩
  · rintro ⟨⟨halloc, hno⟩, hne⟩
    exact ⟨halloc, fun t => ⟨hno t, fun _ => hne⟩⟩

/-- What an alloc takes off the stack of its pool. -/
theorem stack_concat_alloc (hinfo₀ : liveness.lookup id₀ = some info₀) :
    stack BufferEvent.pushes ((pre ++ [(⟨t₀, true, id₀⟩ : BufferEvent)]).filter (keyed liveness key)) =
      if key = info₀.poolKey then
        (stack BufferEvent.pushes (pre.filter (keyed liveness key))).tail
      else stack BufferEvent.pushes (pre.filter (keyed liveness key)) := by
  by_cases hkey : key = info₀.poolKey
  · rw [if_pos hkey, filter_keyed_concat_self (keyed_eq_true.mpr ⟨info₀, hinfo₀, hkey.symm⟩),
      stack_concat_pop rfl]
  · rw [if_neg hkey, filter_keyed_concat_other]
    rw [← Bool.not_eq_true, keyed_eq_true]
    rintro ⟨info, hinfo, hk⟩
    rw [hinfo₀, Option.some.injEq] at hinfo
    subst hinfo
    exact hkey hk.symm

/-- The alloc step, for the buffer `c` it hands out: `c` is the prototype of the chain's root,
    and no other buffer in use or on a free list holds it. -/
theorem poolInv_alloc {st' : PoolState} {c : Buffer} (hproper : Proper liveness)
    (h : PoolInv liveness pre st)
    (hsplit : buildEventTimeline liveness = pre ++ ⟨t₀, true, id₀⟩ :: post)
    (hinfo₀ : liveness.lookup id₀ = some info₀)
    (hchosen : st'.chosenById = Function.update st.chosenById id₀ (some c))
    (hactive : st'.activeBuffers = Function.update st.activeBuffers id₀ (some c))
    (hpools : ∀ key, (st'.freePools key).map some =
      (stack BufferEvent.pushes
        ((pre ++ [(⟨t₀, true, id₀⟩ : BufferEvent)]).filter (keyed liveness key))).map
        fun e => st.chosenById e.bufferId)
    (hroot : ∃ r info t', RootId liveness r id₀ ∧
      ⟨t', true, r⟩ ∈ pre ++ [(⟨t₀, true, id₀⟩ : BufferEvent)] ∧
        liveness.lookup r = some info ∧ c = info.proto)
    (hsole : ∀ id, id ≠ id₀ → Holds liveness (pre ++ [⟨t₀, true, id₀⟩]) id →
      st.chosenById id ≠ some c) :
    PoolInv liveness (pre ++ [⟨t₀, true, id₀⟩]) st' := by
  have hother : ∀ {id}, id ≠ id₀ → st'.chosenById id = st.chosenById id := by
    intro id hne
    rw [hchosen, Function.update_of_ne hne]
  have hself : st'.chosenById id₀ = some c := by
    rw [hchosen, Function.update_self]
  have halloc : ∀ {t id}, (⟨t, true, id⟩ : BufferEvent) ∈ pre ++ [(⟨t₀, true, id₀⟩ : BufferEvent)] →
      id ≠ id₀ → ⟨t, true, id⟩ ∈ pre := by
    intro t id hmem hne
    simpa [hne] using hmem
  have hholds : ∀ {id}, Holds liveness (pre ++ [⟨t₀, true, id₀⟩]) id → id ≠ id₀ →
      Holds liveness pre id := by
    rintro id (hact | ⟨t, key, hmem⟩) hne
    · exact .inl ((active_concat_alloc hne).mp hact)
    · rw [stack_concat_alloc hinfo₀] at hmem
      split at hmem
      · exact .inr ⟨t, key, List.mem_of_mem_tail hmem⟩
      · exact .inr ⟨t, key, hmem⟩
  -- buffers that share the storage handed out have been retired before
  have hapart : ∀ {t id info}, (⟨t, true, id⟩ : BufferEvent) ∈ pre → liveness.lookup id = some info →
      id ≠ id₀ → st.chosenById id = some c → info.lastLevel < info₀.firstLevel := by
    intro t id info hmem hinfo hne hc
    have hretired : ∃ t', (⟨t', false, id⟩ : BufferEvent) ∈ pre := by
      by_contra hno
      rw [not_exists] at hno
      exact hsole id hne (.inl ((active_concat_alloc hne).mpr ⟨⟨t, hmem⟩, hno⟩)) hc
    obtain ⟨t', hfree⟩ := hretired
    exact retired_before hsplit hinfo₀ hinfo hfree
  refine ⟨?_, ?_, ?_, ?_, ?_⟩
  · intro key
    rw [hpools]
    refine List.map_congr_left fun e he => ?_
    rw [hother]
    -- a buffer on a free list has been allocated, this one not yet
    have hmem : e ∈ stack BufferEvent.pushes (pre.filter (keyed liveness key)) := by
      rw [stack_concat_alloc hinfo₀] at he
      split at he
      · exact List.mem_of_mem_tail he
      · exact he
    obtain ⟨heq, hpre, -⟩ := stack_mem_free _ hmem
    rw [heq] at hpre
    obtain ⟨t', ht'⟩ := alloc_before_free hproper hsplit (.inr hpre)
    intro hid
    rw [hid] at ht'
    exact fresh_event hsplit ht'
  · intro id hact
    by_cases hid : id = id₀
    · subst hid
      rw [hactive, hchosen, Function.update_self, Function.update_self]
    · rw [hactive, hother hid, Function.update_of_ne hid]
      exact h.active id ((active_concat_alloc hid).mp hact)
  · intro t id hmem
    by_cases hid : id = id₀
    · subst hid
      obtain ⟨r, info, t', hr, ht', hinfo, rfl⟩ := hroot
      exact ⟨r, info, t', hr, ht', hinfo, hself⟩
    · obtain ⟨r, info, t', hr, ht', hinfo, hc⟩ := h.chosen t id (halloc hmem hid)
      exact ⟨r, info, t', hr, List.mem_append_left _ ht', hinfo, by rw [hother hid, hc]⟩
  · intro id id' hh hh' heq
    by_cases hid : id = id₀ <;> by_cases hid' : id' = id₀
    · rw [hid, hid']
    · subst hid
      rw [hself, hother hid'] at heq
      exact absurd heq.symm (hsole id' hid' hh')
    · subst hid'
      rw [hself, hother hid] at heq
      exact absurd heq (hsole id hid hh)
    · rw [hother hid, hother hid'] at heq
      exact h.uniq id id' (hholds hh hid) (hholds hh' hid') heq
  · intro t t' id id' info info' hmem hmem' hinfo hinfo' hne heq
    by_cases hid : id = id₀
    · subst hid
      have hid' : id' ≠ id := hne.symm
      rw [hself, hother hid'] at heq
      rw [hinfo₀, Option.some.injEq] at hinfo
      subst hinfo
      exact .inr (hapart (halloc hmem' hid') hinfo' hid' heq.symm)
    · by_cases hid' : id' = id₀
      · subst hid'
        rw [hself, hother hid] at heq
        rw [hinfo₀, Option.some.injEq] at hinfo'
        subst hinfo'
        exact .inl (hapart (halloc hmem hid) hinfo hid heq)
      · rw [hother hid, hother hid'] at heq
        exact h.apart t t' id id' info info' (halloc hmem hid) (halloc hmem' hid') hinfo hinfo'
          hne heq

/-- An alloc event of the pool loop. -/
theorem processEvent_alloc (hproper : Proper liveness) (h : PoolInv liveness pre st)
    (hsplit : buildEventTimeline liveness = pre ++ ⟨t₀, true, id₀⟩ :: post) :
    PoolInv liveness (pre ++ [⟨t₀, true, id₀⟩])
      (processEvent liveness st ⟨t₀, true, id₀⟩) := by
  have hmem₀ : (⟨t₀, true, id₀⟩ : BufferEvent) ∈ buildEventTimeline liveness := by simp [hsplit]
  obtain ⟨info₀, hinfo₀, -⟩ := alloc_mem_timeline.mp hmem₀
  have hpool := h.pools info₀.poolKey
  have hreuse := fun id' => reusesId_iff id' hinfo₀ hsplit
  cases hfree : st.freePools info₀.poolKey with
  | nil =>
    -- nothing matches: the buffer starts a chain of its own
    rw [hfree, List.map_nil, eq_comm, List.map_eq_nil_iff] at hpool
    have hnone : ∀ id', ¬ ReusesId liveness id' id₀ := by
      intro id' hr
      obtain ⟨t', htop⟩ := (hreuse id').mp hr
      simp [hpool] at htop
    refine poolInv_alloc (c := info₀.proto) hproper h hsplit hinfo₀ ?_ ?_ ?_ ?_ ?_
    · simp [processEvent, hinfo₀, hfree]
    · simp [processEvent, hinfo₀, hfree]
    · intro key
      rw [show (processEvent liveness st ⟨t₀, true, id₀⟩).freePools = st.freePools by
        simp [processEvent, hinfo₀, hfree], h.pools, stack_concat_alloc hinfo₀]
      split
      · next hkey =>
        subst hkey
        rw [hpool, List.tail_nil]
      · rfl
    · exact ⟨id₀, info₀, t₀, ⟨.refl, hnone⟩, by simp, hinfo₀, rfl⟩
    · intro id hne hh heq
      have hh' : Holds liveness pre id := by
        rcases hh with hact | ⟨t, key, hmem⟩
        · exact .inl ((active_concat_alloc hne).mp hact)
        · rw [stack_concat_alloc hinfo₀] at hmem
          split at hmem
          · exact .inr ⟨t, key, List.mem_of_mem_tail hmem⟩
          · exact .inr ⟨t, key, hmem⟩
      obtain ⟨t, hmem⟩ := hh'.allocated hproper hsplit
      obtain ⟨r, info, t', -, ht', hinfo, hc⟩ := h.chosen t id hmem
      rw [hc, Option.some.injEq] at heq
      have hr : r = id₀ := by
        rw [← (hproper r info hinfo).2, ← (hproper id₀ info₀ hinfo₀).2, heq]
      rw [hr] at ht'
      exact fresh_event hsplit ht'
  | cons reused rest =>
    -- the alloc takes the buffer of the free on top of the pool's stack
    rw [hfree, List.map_cons] at hpool
    obtain ⟨y, ys, hstack, hy, hys⟩ := List.map_eq_cons_iff.mp hpool.symm
    have hymem : y ∈ stack BufferEvent.pushes (pre.filter (keyed liveness info₀.poolKey)) := by
      rw [hstack]
      exact List.mem_cons_self
    obtain ⟨hyeq, hypre, hykey⟩ := stack_mem_free _ hymem
    rw [hyeq] at hypre
    have hlink : ReusesId liveness y.bufferId id₀ :=
      (hreuse y.bufferId).mpr ⟨y.timestep, by rw [hstack, List.head?_cons, ← hyeq]⟩
    have hyholds : Holds liveness pre y.bufferId :=
      .inr ⟨y.timestep, info₀.poolKey, by rw [← hyeq]; exact hymem⟩
    refine poolInv_alloc (c := reused) hproper h hsplit hinfo₀ ?_ ?_ ?_ ?_ ?_
    · simp [processEvent, hinfo₀, hfree]
    · simp [processEvent, hinfo₀, hfree]
    · intro key
      rw [show (processEvent liveness st ⟨t₀, true, id₀⟩).freePools =
        Function.update st.freePools info₀.poolKey rest by simp [processEvent, hinfo₀, hfree],
        stack_concat_alloc hinfo₀]
      split
      · next hkey =>
        subst hkey
        rw [Function.update_self, hstack, List.tail_cons, hys]
      · next hkey =>
        rw [Function.update_of_ne hkey]
        exact h.pools key
    · obtain ⟨t, hmem⟩ := hyholds.allocated hproper hsplit
      obtain ⟨r, info, t', ⟨hchain, hr⟩, ht', hinfo, hc⟩ := h.chosen t _ hmem
      rw [hy, Option.some.injEq] at hc
      exact ⟨r, info, t', ⟨hchain.tail hlink, hr⟩, List.mem_append_left _ ht', hinfo, hc⟩
    · intro id hne hh heq
      -- another holder of the same storage would be the freed buffer itself
      have hback : Holds liveness pre id ∧ id ≠ y.bufferId := by
        rcases hh with hact | ⟨t, key, hmem⟩
        · have hact' := (active_concat_alloc hne).mp hact
          refine ⟨.inl hact', ?_⟩
          rintro rfl
          exact hact'.2 _ hypre
        · rw [stack_concat_alloc hinfo₀] at hmem
          split at hmem
          · next hkey =>
            subst hkey
            refine ⟨.inr ⟨t, _, List.mem_of_mem_tail hmem⟩, ?_⟩
            rintro rfl
            rw [hstack, List.tail_cons] at hmem
            have hnd : (y :: ys).Nodup := by
              rw [← hstack]
              refine stack_nodup (List.Nodup.filter _ ?_)
              have := buildEventTimeline_nodup liveness
              rw [hsplit] at this
              exact (List.nodup_append.mp this).1
            have ht : t = y.timestep := event_unique liveness _ false
              (by
                rw [hsplit]
                exact List.mem_append_left _ (stack_mem_free info₀.poolKey
                  (by rw [hstack]; exact List.mem_cons_of_mem _ hmem)).2.1)
              (by rw [hsplit]; exact List.mem_append_left _ hypre)
            rw [ht, ← hyeq] at hmem
            exact (List.nodup_cons.mp hnd).1 hmem
          · next hkey =>
            refine ⟨.inr ⟨t, key, hmem⟩, ?_⟩
            rintro rfl
            obtain ⟨i, hi, hik⟩ := keyed_eq_true.mp (stack_mem_free _ hmem).2.2
            obtain ⟨i', hi', hik'⟩ := keyed_eq_true.mp hykey
            rw [hi, Option.some.injEq] at hi'
            subst hi'
            exact hkey (hik.symm.trans hik')
      exact hback.2 (h.uniq id _ hback.1 hyholds (heq.trans hy.symm))

/-- A free event of the pool loop. -/
theorem processEvent_free (hproper : Proper liveness) (h : PoolInv liveness pre st)
    (hsplit : buildEventTimeline liveness = pre ++ ⟨t₀, false, id₀⟩ :: post) :
    PoolInv liveness (pre ++ [⟨t₀, false, id₀⟩])
      (processEvent liveness st ⟨t₀, false, id₀⟩) := by
  have hmem₀ : (⟨t₀, false, id₀⟩ : BufferEvent) ∈ buildEventTimeline liveness := by simp [hsplit]
  obtain ⟨info₀, hinfo₀, -⟩ := free_mem_timeline.mp hmem₀
  obtain ⟨t, halloc⟩ := alloc_before_free hproper hsplit (.inl rfl)
  have hact₀ : Active pre id₀ := ⟨⟨t, halloc⟩, fun t' => fresh_event hsplit⟩
  obtain ⟨r, info, t', -, -, -, hc⟩ := h.chosen t id₀ halloc
  have hbuf := (h.active id₀ hact₀).trans hc
  have hst : processEvent liveness st ⟨t₀, false, id₀⟩ =
      { st with
        freePools := Function.update st.freePools info₀.poolKey
          (info.proto :: st.freePools info₀.poolKey)
        activeBuffers := Function.update st.activeBuffers id₀ none } := by
    simp [processEvent, hinfo₀, hbuf]
  have hstack : ∀ key, stack BufferEvent.pushes
      ((pre ++ [(⟨t₀, false, id₀⟩ : BufferEvent)]).filter (keyed liveness key)) =
      if key = info₀.poolKey then
        ⟨t₀, false, id₀⟩ :: stack BufferEvent.pushes (pre.filter (keyed liveness key))
      else stack BufferEvent.pushes (pre.filter (keyed liveness key)) := by
    intro key
    by_cases hkey : key = info₀.poolKey
    · rw [if_pos hkey, filter_keyed_concat_self (keyed_eq_true.mpr ⟨info₀, hinfo₀, hkey.symm⟩),
        stack_concat_push rfl]
    · rw [if_neg hkey, filter_keyed_concat_other]
      rw [← Bool.not_eq_true, keyed_eq_true]
      rintro ⟨i, hi, hk⟩
      rw [hinfo₀, Option.some.injEq] at hi
      subst hi
      exact hkey hk.symm
  -- the buffer goes from use to the free list: the same handles are held
  have hholds : ∀ {id}, Holds liveness (pre ++ [⟨t₀, false, id₀⟩]) id → Holds liveness pre id := by
    rintro id (hact | ⟨t', key, hmem⟩)
    · exact .inl (active_concat_free.mp hact).1
    · rw [hstack] at hmem
      split at hmem
      · rcases List.mem_cons.mp hmem with heq | hmem
        · obtain ⟨-, -, rfl⟩ := BufferEvent.mk.inj heq
          exact .inl hact₀
        · exact .inr ⟨t', key, hmem⟩
      · exact .inr ⟨t', key, hmem⟩
  have hmem' : ∀ {t id}, (⟨t, true, id⟩ : BufferEvent) ∈ pre ++ [(⟨t₀, false, id₀⟩ : BufferEvent)] →
      ⟨t, true, id⟩ ∈ pre := by
    intro t id hmem
    simpa using hmem
  rw [hst]
  refine ⟨?_, ?_, ?_, ?_, ?_⟩
  · intro key
    rw [hstack]
    by_cases hkey : key = info₀.poolKey
    · subst hkey
      simp only [if_true, Function.update_self, List.map_cons, h.pools, hc]
    · simp only [if_neg hkey, Function.update_of_ne hkey, h.pools]
  · intro id hact
    obtain ⟨hact', hne⟩ := active_concat_free.mp hact
    simp only [Function.update_of_ne hne]
    exact h.active id hact'
  · intro t id hmem
    obtain ⟨r, info, t', hr, ht', hinfo, hc⟩ := h.chosen t id (hmem' hmem)
    exact ⟨r, info, t', hr, List.mem_append_left _ ht', hinfo, hc⟩
  · intro id id' hh hh' heq
    exact h.uniq id id' (hholds hh) (hholds hh') heq
  · intro t t' id id' info info' hmem hmem'' hinfo hinfo' hne heq
    exact h.apart t t' id id' info info' (hmem' hmem) (hmem' hmem'') hinfo hinfo' hne heq

end Step

/-- The loop keeps the invariant over the whole timeline. -/
theorem processEvents_inv {liveness : Liveness} {pre post : List BufferEvent} {st : PoolState}
    (hproper : Proper liveness) (h : PoolInv liveness pre st)
    (hsplit : buildEventTimeline liveness = pre ++ post) :
    PoolInv liveness (buildEventTimeline liveness) (post.foldl (processEvent liveness) st) := by
  induction post generalizing pre st with
  | nil =>
    rw [hsplit, List.append_nil]
    exact h
  | cons e post ih =>
    obtain ⟨t, isAlloc, id⟩ := e
    rw [List.foldl_cons]
    refine ih ?_ (by simp [hsplit] : _ = (pre ++ [⟨t, isAlloc, id⟩]) ++ post)
    cases isAlloc with
    | true => exact processEvent_alloc hproper h hsplit
    | false => exact processEvent_free hproper h hsplit

/-! ## From the liveness table to the schedule -/

variable {b : Buffer}

section Bridge

variable {schedule : Schedule} {itemLevels outs : List Nat} {input : PlannerInput}

theorem LivenessSpec.proper (h : LivenessSpec schedule itemLevels outs input) :
    Proper input.liveness :=
  fun id info hinfo => ⟨h.first_le_last hinfo, (h.proto id info hinfo).1⟩

theorem LivenessSpec.isLeast (h : LivenessSpec schedule itemLevels outs input)
    (hinfo : input.liveness.lookup id = some info) :
    IsLeast {l | UsedAt schedule itemLevels info.proto l} info.firstLevel ∧
      IsGreatest {l | UsedAt schedule itemLevels info.proto l} info.lastLevel := by
  obtain ⟨hfirst, hlast, hbounds⟩ := h.levels id info hinfo
  exact ⟨⟨hfirst, fun l hl => (hbounds l hl).1⟩, ⟨hlast, fun l hl => (hbounds l hl).2⟩⟩

/-- A used plannable buffer is the prototype of its id. -/
theorem LivenessSpec.lookup_used (h : LivenessSpec schedule itemLevels outs input) {l : Nat}
    (hused : UsedAt schedule itemLevels b l) (hplan : schedule.Plannable outs b) :
    ∃ info, input.liveness.lookup b.id = some info ∧ info.proto = b := by
  obtain ⟨info, hinfo⟩ := h.known b l hused hplan
  obtain ⟨k, hk, -⟩ := hused
  exact ⟨info, hinfo, h.lookup_proto hk hinfo⟩

/-- The timeline built from the liveness table is the schedule's timeline. -/
theorem LivenessSpec.isTimeline (h : LivenessSpec schedule itemLevels outs input) :
    IsTimeline schedule itemLevels outs (buildEventTimeline input.liveness) := by
  refine ⟨List.pairwise_insertionSort _ _, buildEventTimeline_nodup _, ?_, ?_⟩
  · intro t id
    rw [alloc_mem_timeline]
    constructor
    · rintro ⟨info, hinfo, rfl⟩
      obtain ⟨hid, hplan, -⟩ := h.proto id info hinfo
      exact ⟨info.proto, hid, hplan, (h.isLeast hinfo).1⟩
    · rintro ⟨b, rfl, hplan, hleast⟩
      obtain ⟨info, hinfo, rfl⟩ := h.lookup_used hleast.1 hplan
      exact ⟨info, hinfo, hleast.unique (h.isLeast hinfo).1⟩
  · intro t id
    rw [free_mem_timeline]
    constructor
    · rintro ⟨info, hinfo, rfl⟩
      obtain ⟨hid, hplan, -⟩ := h.proto id info hinfo
      exact ⟨info.proto, hid, hplan, info.lastLevel, (h.isLeast hinfo).2, rfl⟩
    · rintro ⟨b, rfl, hplan, l, hgreatest, rfl⟩
      obtain ⟨info, hinfo, rfl⟩ := h.lookup_used hgreatest.1 hplan
      exact ⟨info, hinfo, by rw [hgreatest.unique (h.isLeast hinfo).2]⟩

theorem IsTimeline.unique {events events' : List BufferEvent}
    (h : IsTimeline schedule itemLevels outs events)
    (h' : IsTimeline schedule itemLevels outs events') : events = events' := by
  refine List.Perm.eq_of_pairwise (fun e e' _ _ => BufferEvent.le_antisymm)
    h.sorted h'.sorted ?_
  refine (List.perm_ext_iff_of_nodup h.nodup h'.nodup).mpr ?_
  rintro ⟨t, isAlloc, id⟩
  cases isAlloc with
  | true => rw [h.alloc, h'.alloc]
  | false => rw [h.free, h'.free]

theorem LivenessSpec.poolKey_proto (h : LivenessSpec schedule itemLevels outs input)
    (hinfo : input.liveness.lookup id = some info) : info.proto.poolKey = some info.poolKey := by
  obtain ⟨size, hsize, hkey⟩ := h.poolKey id info hinfo
  simp [Buffer.poolKey, hsize, hkey]

theorem Schedule.bufferOf_eq (hslot : schedule.slot k = some b) :
    schedule.bufferOf b.id = some b := by
  obtain ⟨it, hit, hb⟩ := Schedule.slot_eq_some.mp hslot
  have hmem : b ∈ schedule.items.flatMap (·.buffers) :=
    List.mem_flatMap.mpr ⟨it, List.mem_of_getElem? hit, List.mem_of_getElem? hb⟩
  cases hfind : schedule.bufferOf b.id with
  | none => simpa using List.find?_eq_none.mp hfind b hmem
  | some b' =>
    have hid : b'.id = b.id := by simpa using List.find?_some hfind
    obtain ⟨it', hit', hb'⟩ := List.mem_flatMap.mp (List.mem_of_find?_eq_some hfind)
    rw [schedule.ids_identify it' hit' it (List.mem_of_getElem? hit) b' hb' b
      (List.mem_of_getElem? hb) hid]

/-- An event of the timeline is in the pool of `b` when its key is `b`'s. -/
theorem LivenessSpec.inPool_eq_keyed (h : LivenessSpec schedule itemLevels outs input)
    (he : e ∈ buildEventTimeline input.liveness) (hinfo : input.liveness.lookup id = some info) :
    schedule.inPool info.proto e = keyed input.liveness info.poolKey e := by
  obtain ⟨info', hinfo', -⟩ := mem_buildEventTimeline.mp he
  obtain ⟨hid, -, k, hk⟩ := h.proto _ info' hinfo'
  have hbuf := Schedule.bufferOf_eq hk
  rw [hid] at hbuf
  simp only [Schedule.inPool, hbuf, keyed, hinfo', h.poolKey_proto hinfo, h.poolKey_proto hinfo',
    Option.some.injEq]

/-- The matches of the schedule's timeline are those of the liveness table. -/
theorem LivenessSpec.reuses_iff (h : LivenessSpec schedule itemLevels outs input) {id id' : Nat}
    {info info' : BufferLiveness} (hinfo : input.liveness.lookup id = some info)
    (hinfo' : input.liveness.lookup id' = some info') :
    Reuses schedule itemLevels outs info'.proto info.proto ↔ ReusesId input.liveness id' id := by
  obtain ⟨hid, -, k, hk⟩ := h.proto id info hinfo
  obtain ⟨hid', -, k', hk'⟩ := h.proto id' info' hinfo'
  have hpool : ∀ {l : List BufferEvent}, (∀ e ∈ l, e ∈ buildEventTimeline input.liveness) →
      l.filter (schedule.inPool info.proto) = l.filter (keyed input.liveness info.poolKey) :=
    fun hl => List.filter_congr fun e he => h.inPool_eq_keyed (hl e he) hinfo
  constructor
  · rintro ⟨-, -, events, pre, mid, post, t, t', htl, hfilter, hbal⟩
    rw [htl.unique h.isTimeline, hpool fun _ he => he, hid, hid'] at hfilter
    obtain ⟨A, C, hsplit, hA, hC⟩ := List.filter_eq_append_iff.mp hfilter
    obtain ⟨C₁, C₂, rfl, hC₁, -, hC₂⟩ := List.filter_eq_cons_iff.mp hC
    have hC₁' : C₁.filter (keyed input.liveness info.poolKey) = [] :=
      List.filter_eq_nil_iff.mpr hC₁
    refine ⟨info, A ++ C₁, C₂, pre, mid, t, t', hinfo, by simp [hsplit], ?_, hbal⟩
    rw [List.filter_append, hA, hC₁', List.append_nil]
  · rintro ⟨i, A, C, pre, mid, t, t', hi, hsplit, hfilter, hbal⟩
    rw [hinfo, Option.some.injEq] at hi
    subst hi
    refine ⟨⟨k', hk'⟩, ⟨k, hk⟩, _, pre, mid, C.filter (keyed input.liveness info.poolKey), t, t',
      h.isTimeline, ?_, hbal⟩
    have hself : keyed input.liveness info.poolKey ⟨t, true, id⟩ = true :=
      keyed_eq_true.mpr ⟨info, hinfo, rfl⟩
    rw [hpool fun _ he => he, hsplit, List.filter_append, List.filter_cons_of_pos hself, hfilter,
      hid, hid']

/-- Both ends of a match are plannable buffers of the table. -/
theorem LivenessSpec.reuses_known (h : LivenessSpec schedule itemLevels outs input)
    {b b' : Buffer} (hr : Reuses schedule itemLevels outs b' b) :
    (∃ info, input.liveness.lookup b.id = some info ∧ info.proto = b) ∧
      ∃ info, input.liveness.lookup b'.id = some info ∧ info.proto = b' := by
  obtain ⟨⟨k', hk'⟩, ⟨k, hk⟩, events, pre, mid, post, t, t', htl, hfilter, -⟩ := hr
  have hmem : (⟨t, true, b.id⟩ : BufferEvent) ∈ events :=
    (List.filter_sublist (p := schedule.inPool b)).subset (by rw [hfilter]; simp)
  have hmem' : (⟨t', false, b'.id⟩ : BufferEvent) ∈ events :=
    (List.filter_sublist (p := schedule.inPool b)).subset (by rw [hfilter]; simp)
  refine ⟨?_, ?_⟩
  · obtain ⟨b₁, hid, hplan, hused, -⟩ := (htl.alloc t b.id).mp hmem
    obtain ⟨k₁, hk₁, hl₁⟩ := hused
    obtain rfl := Schedule.slot_inj hk₁ hk hid
    exact h.lookup_used ⟨k₁, hk₁, hl₁⟩ hplan
  · obtain ⟨b₁, hid, hplan, l, ⟨hused, -⟩, -⟩ := (htl.free t' b'.id).mp hmem'
    obtain ⟨k₁, hk₁, hl₁⟩ := hused
    obtain rfl := Schedule.slot_inj hk₁ hk' hid
    exact h.lookup_used ⟨k₁, hk₁, hl₁⟩ hplan

theorem reusesId_known {liveness : Liveness} {id id' : Nat} (hr : ReusesId liveness id' id) :
    (∃ info, liveness.lookup id = some info) ∧ ∃ info, liveness.lookup id' = some info := by
  obtain ⟨info, pre, post, pre', mid, t, t', hinfo, hsplit, hfilter, -⟩ := hr
  refine ⟨⟨info, hinfo⟩, ?_⟩
  have hmem : (⟨t', false, id'⟩ : BufferEvent) ∈ buildEventTimeline liveness := by
    rw [hsplit]
    exact List.mem_append_left _ ((List.filter_sublist (p := keyed liveness info.poolKey)).subset
      (by rw [hfilter]; simp))
  obtain ⟨info', hinfo', -⟩ := free_mem_timeline.mp hmem
  exact ⟨info', hinfo'⟩

/-- The root of a chain of ids is the root of the chain of buffers. -/
theorem LivenessSpec.root_of_rootId (h : LivenessSpec schedule itemLevels outs input) {r id : Nat}
    {infoR info : BufferLiveness} (hroot : RootId input.liveness r id)
    (hinfoR : input.liveness.lookup r = some infoR)
    (hinfo : input.liveness.lookup id = some info) :
    Root schedule itemLevels outs infoR.proto info.proto := by
  obtain ⟨hchain, hstart⟩ := hroot
  refine ⟨?_, ?_⟩
  · induction hchain generalizing info with
    | refl =>
      rw [hinfoR, Option.some.injEq] at hinfo
      rw [hinfo]
    | @tail x y _ hlink ih =>
      obtain ⟨-, infoX, hinfoX⟩ := reusesId_known hlink
      exact (ih hinfoX).tail ((h.reuses_iff hinfo hinfoX).mpr hlink)
  · intro b' hr
    obtain ⟨-, info', hinfo', rfl⟩ := h.reuses_known hr
    exact hstart _ ((h.reuses_iff hinfoR hinfo').mp hr)

/-- The root of a chain of buffers is the root of the chain of their ids. -/
theorem LivenessSpec.rootId_of_root (h : LivenessSpec schedule itemLevels outs input)
    {r b : Buffer} (hroot : Root schedule itemLevels outs r b)
    (hinfo : input.liveness.lookup b.id = some info) (hproto : info.proto = b) :
    RootId input.liveness r.id b.id ∧
      ∃ infoR, input.liveness.lookup r.id = some infoR ∧ infoR.proto = r := by
  obtain ⟨hchain, hstart⟩ := hroot
  have hids : Relation.ReflTransGen (ReusesId input.liveness) r.id b.id ∧
      ∃ infoR, input.liveness.lookup r.id = some infoR ∧ infoR.proto = r := by
    induction hchain generalizing info with
    | refl => exact ⟨.refl, info, hinfo, hproto⟩
    | @tail x y _ hlink ih =>
      obtain ⟨-, infoX, hinfoX, hprotoX⟩ := h.reuses_known hlink
      obtain ⟨hchain, hR⟩ := ih hinfoX hprotoX
      rw [← hprotoX, ← hproto] at hlink
      have hlink' := (h.reuses_iff hinfo hinfoX).mp hlink
      exact ⟨hchain.tail hlink', hR⟩
  obtain ⟨hchain', infoR, hinfoR, hprotoR⟩ := hids
  refine ⟨⟨hchain', ?_⟩, infoR, hinfoR, hprotoR⟩
  intro id' hr
  obtain ⟨-, info', hinfo'⟩ := reusesId_known hr
  have := (h.reuses_iff hinfoR hinfo').mpr hr
  rw [hprotoR] at this
  exact hstart _ this

end Bridge

/-- A chain has one root. -/
theorem rootId_unique {liveness : Liveness} {r r' id : Nat} (h : RootId liveness r id)
    (h' : RootId liveness r' id) : r = r' := by
  have hfun : ∀ {x y z}, ReusesId liveness x z → ReusesId liveness y z → x = y := by
    intro x y z hx hy
    obtain ⟨info, pre, post, A, mid, t, t', hinfo, hsplit, hfilter, hbal⟩ := hx
    obtain ⟨t₁, htop⟩ := (reusesId_iff _ hinfo hsplit).mp
      ⟨info, pre, post, A, mid, t, t', hinfo, hsplit, hfilter, hbal⟩
    obtain ⟨t₂, htop'⟩ := (reusesId_iff _ hinfo hsplit).mp hy
    rw [htop, Option.some.injEq] at htop'
    exact (BufferEvent.mk.inj htop').2.2
  obtain ⟨hchain, hstart⟩ := h
  obtain ⟨hchain', hstart'⟩ := h'
  induction hchain with
  | refl =>
    cases hchain' with
    | refl => rfl
    | tail _ hlink => exact absurd hlink (hstart _)
  | tail _ hlink ih =>
    cases hchain' with
    | refl => exact absurd hlink (hstart' _)
    | tail hc hlink' =>
      rw [hfun hlink hlink'] at ih
      exact ih hc

/-! ## The plan -/

/-- The buffer of a slot after `apply_buffer_replacements`. -/
def slotAfter (replace : List (BufferKey × Buffer)) (key : BufferKey) (b : Buffer) : Buffer :=
  (replace.lookup key).getD b

/-- What pool reuse should guarantee. -/
structure RemapSafe (schedule : Schedule) (itemLevels : List Nat)
    (replace : List (BufferKey × Buffer)) : Prop where
  /-- A replacement has room for the buffer and is of the same class of memory. -/
  fits : ∀ k r b, (k, r) ∈ replace → schedule.slot k = some b → b.size ≤ r.size ∧ r.spec = b.spec
  /-- Distinct buffers served by one physical buffer are strictly level-disjoint. -/
  apart : ∀ k b k' b', schedule.slot k = some b → schedule.slot k' = some b' → b.id ≠ b'.id →
    (slotAfter replace k b).id = (slotAfter replace k' b').id →
    StrictlyBefore schedule itemLevels b b' ∨ StrictlyBefore schedule itemLevels b' b

/-- A remap plan is empty for want of plannable buffers, or it reads the pool loop's choice. -/
theorem memoryPlanner_remap_cases {schedule : Schedule} {itemLevels outs : List Nat}
    {nextId : Nat} {res : MemoryPlannerResult}
    (h : memoryPlanner schedule itemLevels outs .remap nextId = some res) :
    (schedule.items = [] ∧ res.bufferReplace = []) ∨
    ∃ input, analyzeLiveness schedule itemLevels outs .remap = some input ∧
      res.bufferReplace = input.occurrences.filterMap
        (replacement ((buildEventTimeline input.liveness).foldl (processEvent input.liveness)
          PoolState.init)) := by
  simp only [memoryPlanner, reduceCtorEq, if_false] at h
  split at h
  · next hempty =>
    simp only [Option.some.injEq] at h
    exact .inl ⟨List.isEmpty_iff.mp hempty, by rw [← h]⟩
  · simp only [Option.bind_eq_bind, Option.bind_eq_some_iff] at h
    obtain ⟨input, hinput, h⟩ := h
    refine .inr ⟨input, hinput, ?_⟩
    split at h
    · next hempty =>
      -- without summaries there are no occurrences either
      simp only [Option.some.injEq] at h
      have hnone : input.occurrences = [] := by
        rw [List.eq_nil_iff_forall_not_mem]
        rintro ⟨k, id⟩ hocc
        obtain ⟨b, hb, hl, hplan, rfl⟩ :=
          ((analyzeLiveness_spec hinput).occurrence k id).mp hocc
        obtain ⟨l, hl⟩ := Option.isSome_iff_exists.mp hl
        obtain ⟨info, hinfo⟩ := (analyzeLiveness_spec hinput).known b l ⟨k, hb, hl⟩ hplan
        have := AList.mem_lookup_iff.mp hinfo
        rw [List.isEmpty_iff.mp hempty] at this
        simp at this
      rw [hnone, ← h]
      rfl
    · simp only [Option.some.injEq] at h
      rw [← h]
      rfl

section Plan

variable {schedule : Schedule} {itemLevels outs : List Nat} {input : PlannerInput}
  {st : PoolState} {replace : List (BufferKey × Buffer)}

/-- The choice the loop has made for a known buffer: the prototype of its chain's root. -/
theorem chosen_root (hspec : LivenessSpec schedule itemLevels outs input)
    (hinv : PoolInv input.liveness (buildEventTimeline input.liveness) st)
    (hinfo : input.liveness.lookup id = some info) :
    ∃ r infoR, RootId input.liveness r id ∧ input.liveness.lookup r = some infoR ∧
      st.chosenById id = some infoR.proto ∧ infoR.proto.id = r := by
  have hmem : (⟨info.firstLevel, true, id⟩ : BufferEvent) ∈ buildEventTimeline input.liveness :=
    alloc_mem_timeline.mpr ⟨info, hinfo, rfl⟩
  obtain ⟨r, infoR, -, hroot, -, hinfoR, hc⟩ := hinv.chosen _ _ hmem
  exact ⟨r, infoR, hroot, hinfoR, hc, (hspec.proto r infoR hinfoR).1⟩

theorem mem_replace_iff {c : Buffer} :
    (k, c) ∈ input.occurrences.filterMap (replacement st) ↔
      ∃ id, (k, id) ∈ input.occurrences ∧ st.chosenById id = some c ∧ c.id ≠ id := by
  simp only [List.mem_filterMap, Prod.exists]
  constructor
  · rintro ⟨k', id, hocc, hr⟩
    unfold replacement at hr
    simp only at hr
    split at hr
    · next chosen hc =>
      split at hr
      · next hne =>
        obtain ⟨rfl, rfl⟩ := Prod.mk.inj (Option.some.inj hr)
        exact ⟨id, hocc, hc, hne⟩
      · cases hr
    · cases hr
  · rintro ⟨id, hocc, hc, hne⟩
    exact ⟨k, id, hocc, by simp [replacement, hc, hne]⟩

/-- After the replacement a slot holds its own buffer or the one chosen for it. -/
theorem slotAfter_eq (hspec : LivenessSpec schedule itemLevels outs input)
    (hreplace : replace = input.occurrences.filterMap (replacement st))
    (hslot : schedule.slot k = some b) :
    slotAfter replace k b = b ∨ ((∃ info, input.liveness.lookup b.id = some info) ∧
      st.chosenById b.id = some (slotAfter replace k b)) := by
  unfold slotAfter
  cases hlook : replace.lookup k with
  | none => exact .inl rfl
  | some c =>
    right
    obtain ⟨A, C, hmem, -⟩ := List.lookup_eq_some_iff.mp hlook
    have hmem' : (k, c) ∈ replace := by simp [hmem]
    rw [hreplace, mem_replace_iff] at hmem'
    obtain ⟨id, hocc, hc, -⟩ := hmem'
    obtain ⟨b', hb', hl, hplan, rfl⟩ := (hspec.occurrence k id).mp hocc
    rw [hslot, Option.some.injEq] at hb'
    subst hb'
    obtain ⟨l, hl⟩ := Option.isSome_iff_exists.mp hl
    exact ⟨hspec.known b l ⟨k, hslot, hl⟩ hplan, hc⟩

/-- Known buffers for which the loop made the same choice are strictly level-disjoint. -/
theorem strictlyBefore_of_chosen_eq (hspec : LivenessSpec schedule itemLevels outs input)
    (hinv : PoolInv input.liveness (buildEventTimeline input.liveness) st) {k k' : BufferKey}
    {b b' : Buffer} {info info' : BufferLiveness} (hslot : schedule.slot k = some b)
    (hslot' : schedule.slot k' = some b') (hinfo : input.liveness.lookup b.id = some info)
    (hinfo' : input.liveness.lookup b'.id = some info') (hne : b.id ≠ b'.id)
    (heq : st.chosenById b.id = st.chosenById b'.id) :
    StrictlyBefore schedule itemLevels b b' ∨ StrictlyBefore schedule itemLevels b' b := by
  have hb := (hspec.levels _ info hinfo).2.2
  have hb' := (hspec.levels _ info' hinfo').2.2
  rw [hspec.lookup_proto hslot hinfo] at hb
  rw [hspec.lookup_proto hslot' hinfo'] at hb'
  have hmem := alloc_mem_timeline.mpr ⟨info, hinfo, rfl⟩
  have hmem' := alloc_mem_timeline.mpr ⟨info', hinfo', rfl⟩
  rcases hinv.apart _ _ _ _ _ _ hmem hmem' hinfo hinfo' hne heq with hlt | hlt
  · left
    intro l l' hl hl'
    have := hb l hl
    have := hb' l' hl'
    omega
  · right
    intro l l' hl hl'
    have := hb' l hl
    have := hb l' hl'
    omega

/-- Reuse never joins buffers that are live at a common level. -/
theorem slotAfter_apart (hspec : LivenessSpec schedule itemLevels outs input)
    (hinv : PoolInv input.liveness (buildEventTimeline input.liveness) st)
    (hreplace : replace = input.occurrences.filterMap (replacement st)) {k k' : BufferKey}
    {b b' : Buffer} (hslot : schedule.slot k = some b) (hslot' : schedule.slot k' = some b')
    (hne : b.id ≠ b'.id) (heq : (slotAfter replace k b).id = (slotAfter replace k' b').id) :
    StrictlyBefore schedule itemLevels b b' ∨ StrictlyBefore schedule itemLevels b' b := by
  -- a buffer that keeps its own storage while another is given it is its chain's root
  have hroot : ∀ {x y : Buffer} {infoY}, input.liveness.lookup y.id = some infoY →
      ∀ {c}, st.chosenById y.id = some c → c.id = x.id →
      ∃ infoX, input.liveness.lookup x.id = some infoX ∧
        st.chosenById x.id = st.chosenById y.id := by
    intro x y infoY hy c hc hcx
    obtain ⟨r, infoR, ⟨-, hstart⟩, hinfoR, hchosen, hid⟩ := chosen_root hspec hinv hy
    rw [hc, Option.some.injEq] at hchosen
    have hr : r = x.id := by rw [← hid, ← hchosen, hcx]
    subst hr
    obtain ⟨r', infoR', hroot', hinfoR', hchosen', -⟩ := chosen_root hspec hinv hinfoR
    have hsame := rootId_unique hroot' ⟨.refl, hstart⟩
    subst hsame
    rw [hinfoR, Option.some.injEq] at hinfoR'
    subst hinfoR'
    exact ⟨infoR, hinfoR, by rw [hchosen', hc, hchosen]⟩
  rcases slotAfter_eq hspec hreplace hslot with hself | ⟨⟨info, hinfo⟩, hc⟩ <;>
    rcases slotAfter_eq hspec hreplace hslot' with hself' | ⟨⟨info', hinfo'⟩, hc'⟩
  · rw [hself, hself'] at heq
    exact absurd heq hne
  · rw [hself] at heq
    obtain ⟨info, hinfo, hsame⟩ := hroot hinfo' hc' heq.symm
    exact strictlyBefore_of_chosen_eq hspec hinv hslot hslot' hinfo hinfo' hne hsame
  · rw [hself'] at heq
    obtain ⟨info', hinfo', hsame⟩ := hroot hinfo hc heq
    exact strictlyBefore_of_chosen_eq hspec hinv hslot hslot' hinfo hinfo' hne hsame.symm
  · obtain ⟨r, infoR, -, hinfoR, hchosen, hid⟩ := chosen_root hspec hinv hinfo
    obtain ⟨r', infoR', -, hinfoR', hchosen', hid'⟩ := chosen_root hspec hinv hinfo'
    rw [hc, Option.some.injEq] at hchosen
    rw [hc', Option.some.injEq] at hchosen'
    have hr : r = r' := by rw [← hid, ← hid', ← hchosen, ← hchosen', heq]
    subst hr
    rw [hinfoR, Option.some.injEq] at hinfoR'
    subst hinfoR'
    exact strictlyBefore_of_chosen_eq hspec hinv hslot hslot' hinfo hinfo' hne
      (by rw [hc, hc', hchosen, hchosen'])

end Plan

/-- On every schedule, level vector and output set, pool reuse is safe exactly when the root of
    every reuse chain has the size and the class of memory its members need. -/
theorem memoryPlanner_remap_safe_iff {schedule : Schedule} {itemLevels outs : List Nat}
    {nextId : Nat} {res : MemoryPlannerResult}
    (h : memoryPlanner schedule itemLevels outs .remap nextId = some res) :
    RemapSafe schedule itemLevels res.bufferReplace ↔ PoolFits schedule itemLevels outs := by
  rcases memoryPlanner_remap_cases h with ⟨hitems, hnil⟩ | ⟨input, hinput, hreplace⟩
  · have hslot : ∀ k b, schedule.slot k ≠ some b := by
      intro k b hk
      obtain ⟨it, hit, -⟩ := Schedule.slot_eq_some.mp hk
      rw [hitems] at hit
      simp at hit
    refine ⟨fun _ => ?_, fun _ => ⟨?_, ?_⟩⟩
    · rintro r b ⟨hchain, -⟩
      cases hchain with
      | refl => exact ⟨le_rfl, rfl⟩
      | tail _ hlink =>
        obtain ⟨-, ⟨k, hk⟩, -⟩ := hlink
        exact absurd hk (hslot k b)
    · intro k r b hr
      rw [hnil] at hr
      simp at hr
    · intro k b k' b' hk
      exact absurd hk (hslot k b)
  have hspec := analyzeLiveness_spec hinput
  have hinv := processEvents_inv hspec.proper (poolInv_init _)
    (List.nil_append (buildEventTimeline input.liveness)).symm
  set st := (buildEventTimeline input.liveness).foldl (processEvent input.liveness) PoolState.init
  constructor
  · rintro ⟨hfits, -⟩ r b hroot
    obtain ⟨hchain, hstart⟩ := hroot
    cases hchain with
    | refl => exact ⟨le_rfl, rfl⟩
    | tail hchain hlink =>
      obtain ⟨⟨info, hinfo, hproto⟩, -⟩ := hspec.reuses_known hlink
      obtain ⟨hrootId, infoR, hinfoR, rfl⟩ :=
        hspec.rootId_of_root ⟨hchain.tail hlink, hstart⟩ hinfo hproto
      obtain ⟨r', infoR', hroot', hinfoR', hchosen, hid⟩ := chosen_root hspec hinv hinfo
      have hr := rootId_unique hroot' hrootId
      subst hr
      rw [hinfoR, Option.some.injEq] at hinfoR'
      subst hinfoR'
      by_cases hne : infoR.proto.id = b.id
      · rw [hne, hinfo, Option.some.injEq] at hinfoR
        rw [← hproto, hinfoR]
        exact ⟨le_rfl, rfl⟩
      · -- some slot of `b` is replaced by the root
        obtain ⟨k, hk, hl⟩ := (hspec.levels _ info hinfo).1
        rw [hproto] at hk
        have hocc : (k, b.id) ∈ input.occurrences :=
          (hspec.occurrence k b.id).mpr
            ⟨b, hk, by rw [hl]; rfl, hproto ▸ (hspec.proto _ info hinfo).2.1, rfl⟩
        have hmem : (k, infoR.proto) ∈ res.bufferReplace := by
          rw [hreplace]
          exact mem_replace_iff.mpr ⟨b.id, hocc, hchosen, hne⟩
        exact hfits k infoR.proto b hmem hk
  · intro hfits
    refine ⟨?_, fun k b k' b' hk hk' hne heq => slotAfter_apart hspec hinv hreplace hk hk' hne heq⟩
    intro k c b hmem hk
    rw [hreplace] at hmem
    obtain ⟨id, hocc, hc, -⟩ := mem_replace_iff.mp hmem
    obtain ⟨b', hb', hl, hplan, rfl⟩ := (hspec.occurrence k id).mp hocc
    rw [hk, Option.some.injEq] at hb'
    subst hb'
    obtain ⟨l, hl⟩ := Option.isSome_iff_exists.mp hl
    obtain ⟨info, hinfo, hproto⟩ := hspec.lookup_used ⟨k, hk, hl⟩ hplan
    obtain ⟨r, infoR, hroot, hinfoR, hchosen, -⟩ := chosen_root hspec hinv hinfo
    rw [hc, Option.some.injEq] at hchosen
    have := hspec.root_of_rootId hroot hinfoR hinfo
    rw [hproto, ← hchosen] at this
    exact hfits c b this

/-- Two consecutive buffers of one pool, the second larger than the first. -/
def growingSchedule : Schedule :=
  let buffer (id n : Nat) : Buffer :=
    Buffer.new id .cpu (.scalar .uint8) [n] ⟨false, false, false, false⟩
  ⟨[⟨[buffer 1 100], [11], true, []⟩, ⟨[buffer 2 200], [12], true, []⟩], by decide⟩

/-- The same two buffers in the other order. -/
def shrinkingSchedule : Schedule :=
  let buffer (id n : Nat) : Buffer :=
    Buffer.new id .cpu (.scalar .uint8) [n] ⟨false, false, false, false⟩
  ⟨[⟨[buffer 2 200], [12], true, []⟩, ⟨[buffer 1 100], [11], true, []⟩], by decide⟩

theorem memoryPlanner_remap_safe_iff_shrinking :
    ∃ res, memoryPlanner shrinkingSchedule [0, 1] [] .remap 100 = some res ∧
      res.bufferReplace.map (fun r => r.2.size) = [200] ∧
      (RemapSafe shrinkingSchedule [0, 1] res.bufferReplace ↔
        PoolFits shrinkingSchedule [0, 1] []) := by
  have hsome : (memoryPlanner shrinkingSchedule [0, 1] [] .remap 100).map
      (fun res => res.bufferReplace.map fun r => r.2.size) = some [200] := by decide +kernel
  obtain ⟨res, hres, hsizes⟩ := Option.map_eq_some_iff.mp hsome
  exact ⟨res, hres, hsizes, memoryPlanner_remap_safe_iff hres⟩

/-- The second buffer is mapped to the first, which has half its bytes. -/
theorem memoryPlanner_remap_undersized :
    ¬ ∀ (schedule : Schedule) (itemLevels outs : List Nat) (nextId : Nat)
      (res : MemoryPlannerResult),
      memoryPlanner schedule itemLevels outs .remap nextId = some res →
      RemapSafe schedule itemLevels res.bufferReplace := by
  intro hsafe
  have hsome : (memoryPlanner growingSchedule [0, 1] [] .remap 100).map
      (fun res => res.bufferReplace.map fun r => (r.1, r.2.size)) =
      some [(⟨1, 0⟩, 100)] := by decide +kernel
  obtain ⟨res, hres, hsizes⟩ := Option.map_eq_some_iff.mp hsome
  obtain ⟨⟨k, r⟩, hmem, heq⟩ := List.map_eq_singleton_iff.mp hsizes
  obtain ⟨rfl, hsize⟩ := Prod.mk.inj heq
  have hfit := ((hsafe growingSchedule [0, 1] [] 100 res hres).fits ⟨1, 0⟩ r _
    (by rw [hmem]; exact List.mem_singleton_self _) rfl).1
  simp only at hsize
  rw [hsize] at hfit
  revert hfit
  decide

end Svod.MemoryPlanner
