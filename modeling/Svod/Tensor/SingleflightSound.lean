/-
  Svod.Tensor.SingleflightSound

  Singleflight computes once, whatever the interleaving of the calls.

  `Effect` says what one step can do; the table's invariant, the cache's and the
  one of the events so far are kept by each of its cases.
-/

import Svod.Tensor.Singleflight
import Mathlib.Tactic.SplitIfs

namespace Svod.Tensor.Singleflight

open Svod.Lib

variable {C K V E : Type}
variable {t : Ticket K} {s s' : State C K V E} {c : C} {a : Action K V E}

/-! ## What a counter stands for -/

/-- The ticket a call has not finished dropping. -/
def Pc.owned : Pc K V E → Option (Ticket K)
  | .notify t _ => some t
  | pc => pc.ticket

/-- The ticket under which the last look-up of the call was a miss. -/
def Pc.missed : Pc K V E → Option (Ticket K)
  | .compute t | .held t true | .heldCompute t => some t
  | _ => none

/-- The result a run is about to return, or has returned. -/
def Pc.result : Pc K V E → Option (K × Computed V E)
  | .drop t (.computed r) | .notify t (.computed r) => some (t.key, r)
  | .finished key (.computed r) => some (key, r)
  | _ => none

def Pc.waiting : Pc K V E → Option (Ticket K)
  | .wait t => some t
  | _ => none

variable {pc : Pc K V E}

theorem Pc.owned_of_ticket (h : pc.ticket = some t) : pc.owned = some t := by
  cases pc <;> first | exact h | cases h

theorem Pc.ticket_of_missed (h : pc.missed = some t) : pc.ticket = some t := by
  unfold Pc.missed at h
  split at h <;> first | exact h | cases h

theorem Pc.ticket_of_owned_none (h : pc.owned = none) : pc.ticket = none := by
  cases ht : pc.ticket with
  | none => rfl
  | some t =>
    rw [Pc.owned_of_ticket ht] at h
    cases h

/-! ## Invariants -/

/-- The entries of the table are the tickets held, each with a slot of its own. -/
structure Table (s : State C K V E) : Prop where
  entry : ∀ key slot,
    s.inflight key = some slot ↔ ∃ c, (s.calls c).ticket = some ⟨key, slot⟩
  slots : ∀ c c' t t', (s.calls c).owned = some t → (s.calls c').owned = some t' →
    t.slot = t'.slot → c = c'
  fresh : ∀ c t, (s.calls c).owned = some t → t.slot < s.fresh ∧ s.done t.slot = false
  doneFresh : ∀ slot, s.done slot = true → slot < s.fresh

theorem Table.new (cache : K → Option V) : Table (State.new cache : State C K V E) where
  entry _ _ := ⟨nofun, fun ⟨_, h⟩ => nomatch h⟩
  slots _ _ _ _ h := nomatch h
  fresh _ _ h := nomatch h
  doneFresh _ h := nomatch h

/-- Two tickets of one key are one call's. -/
theorem Table.exclusive (h : Table s) {c c' : C} {t t' : Ticket K}
    (ht : (s.calls c).ticket = some t) (ht' : (s.calls c').ticket = some t')
    (hkey : t.key = t'.key) : c = c' := by
  have hslot : s.inflight t.key = some t.slot := (h.entry _ _).mpr ⟨c, ht⟩
  have hslot' : s.inflight t'.key = some t'.slot := (h.entry _ _).mpr ⟨c', ht'⟩
  rw [hkey, hslot', Option.some.injEq] at hslot
  exact h.slots c c' t t' (Pc.owned_of_ticket ht) (Pc.owned_of_ticket ht') hslot.symm

/-- A step that changes no ticket keeps the table. -/
theorem Table.keep (h : Table s) (hin : s'.inflight = s.inflight) (hdone : s'.done = s.done)
    (hfresh : s'.fresh = s.fresh) (hticket : ∀ c, (s'.calls c).ticket = (s.calls c).ticket)
    (howned : ∀ c, (s'.calls c).owned = (s.calls c).owned) : Table s' where
  entry key slot := by
    rw [hin]
    simp only [hticket]
    exact h.entry key slot
  slots c c' t t' := by
    rw [howned, howned]
    exact h.slots c c' t t'
  fresh c t := by
    rw [howned, hfresh, hdone]
    exact h.fresh c t
  doneFresh slot := by
    rw [hfresh, hdone]
    exact h.doneFresh slot

/-- A miss under a ticket stays a miss, and a value that is returned is the stored one. -/
structure Cached (s : State C K V E) : Prop where
  missed : ∀ c t, (s.calls c).missed = some t → s.cache t.key = none
  stored : ∀ c key v, (s.calls c).result = some (key, .ok v) → s.cache key = some v

theorem Cached.new (cache : K → Option V) : Cached (State.new cache : State C K V E) where
  missed _ _ h := nomatch h
  stored _ _ _ h := nomatch h

/-- What an event asks of the ones before it. -/
def Lawful : Event C K V E → List (Event C K V E) → Prop
  | .claimed _ t, earlier => ∀ c' t', .claimed c' t' ∈ earlier → t'.slot ≠ t.slot
  | .dropped c t, earlier => .claimed c t ∈ earlier ∧ ∀ c', .dropped c' t ∉ earlier
  | .waits _ t, earlier => ∃ holder, .claimed holder t ∈ earlier ∧ ∀ c', .dropped c' t ∉ earlier
  | .wakes c t, earlier =>
    .waits c t ∈ earlier ∧ ∃ holder, .claimed holder t ∈ earlier ∧ .dropped holder t ∈ earlier
  | .starts _ key, earlier => ∀ c' v, .computed c' key (.ok v) ∉ earlier
  | .ended c key (.computed (.err e)), earlier => .computed c key (.err e) ∈ earlier
  | _, _ => True

/-- A slot is claimed once. -/
theorem claimed_unique {es : List (Event C K V E)} (h : EachPreceded Lawful es) {c c' : C}
    {t t' : Ticket K} (hc : .claimed c t ∈ es) (hc' : .claimed c' t' ∈ es)
    (hslot : t.slot = t'.slot) : c = c' ∧ t = t' := by
  induction es with
  | nil => cases hc
  | cons e es ih =>
    obtain ⟨hhead, hrest⟩ := h
    rcases List.mem_cons.mp hc with rfl | hold
    · rcases List.mem_cons.mp hc' with heq | hold'
      · cases heq
        exact ⟨rfl, rfl⟩
      · exact absurd hslot.symm (hhead c' t' hold')
    · rcases List.mem_cons.mp hc' with rfl | hold'
      · exact absurd hslot (hhead c t hold)
      · exact ih hrest hold hold'

/-- What the history says of the state. -/
structure Logged (s : State C K V E) : Prop where
  lawful : EachPreceded Lawful s.events
  computedOk : ∀ c key v, .computed c key (.ok v) ∈ s.events → s.cache key = some v
  endedOk : ∀ c key v, .ended c key (.computed (.ok v)) ∈ s.events → s.cache key = some v
  failed : ∀ c key e, (s.calls c).result = some (key, .err e) →
    .computed c key (.err e) ∈ s.events
  claimed : ∀ c t, .claimed c t ∈ s.events →
    t.slot < s.fresh ∧ (s.done t.slot = true → .dropped c t ∈ s.events)
  dropped : ∀ c t, .dropped c t ∈ s.events → .claimed c t ∈ s.events
  owned : ∀ c t, (s.calls c).owned = some t →
    .claimed c t ∈ s.events ∧ ∀ c', .dropped c' t ∉ s.events
  waiting : ∀ c t, (s.calls c).waiting = some t →
    .waits c t ∈ s.events ∧ ∃ holder, .claimed holder t ∈ s.events

theorem Logged.new (cache : K → Option V) : Logged (State.new cache : State C K V E) where
  lawful := trivial
  computedOk _ _ _ h := nomatch h
  endedOk _ _ _ h := nomatch h
  failed _ _ _ h := nomatch h
  claimed _ _ h := nomatch h
  dropped _ _ h := nomatch h
  owned _ _ h := nomatch h
  waiting _ _ h := nomatch h

/-! ## What a step can do -/

variable [DecidableEq C]

/-- A reading of the counters that the step does not change. -/
theorem read_update {α : Type} {f : Pc K V E → α} {calls : C → Pc K V E} (h : f pc = f (calls c))
    (c' : C) : f (Function.update calls c pc c') = f (calls c') := by
  by_cases hc : c' = c
  · rw [hc, Function.update_self, h]
  · rw [Function.update_of_ne hc]

variable [DecidableEq K]

inductive Effect (s : State C K V E) (c : C) : State C K V E → Prop
  /-- The call goes on, with what it holds. -/
  | move (pc : Pc K V E) (howned : pc.owned = (s.calls c).owned)
      (hticket : pc.ticket = (s.calls c).ticket) (hwait : pc.waiting = none)
      (hmissed : ∀ t, pc.missed = some t → s.cache t.key = none)
      (hresult : ∀ key r, pc.result = some (key, r) → ∃ v, r = .ok v ∧ s.cache key = some v) :
      Effect s c (s.goto c pc)
  /-- The call ends without a ticket. -/
  | finish (key : K) (o : Outcome V E) (howned : (s.calls c).owned = none)
      (hresult : ∀ r, o = .computed r → ∃ v, r = .ok v ∧ s.cache key = some v) :
      Effect s c (finishCall s c key o)
  | claim (key : K) (pc : Pc K V E) (howned : (s.calls c).owned = none)
      (hvacant : s.inflight key = none) (hticket : pc.ticket = some ⟨key, s.fresh⟩)
      (hwait : pc.waiting = none) (hmissed : pc.missed = none) (hresult : pc.result = none) :
      Effect s c (((s.insertSlot key).goto c pc).emit (.claimed c ⟨key, s.fresh⟩))
  | waits (key : K) (slot : ℕ) (howned : (s.calls c).owned = none)
      (hentry : s.inflight key = some slot) :
      Effect s c ((s.goto c (.wait ⟨key, slot⟩)).emit (.waits c ⟨key, slot⟩))
  | wakes (t : Ticket K) (hpc : s.calls c = .wait t) (hdone : s.done t.slot = true) :
      Effect s c ((s.goto c (.lookup t.key)).emit (.wakes c t))
  | starts (t : Ticket K) (pc : Pc K V E) (hheld : (s.calls c).ticket = some t)
      (hmiss : (s.calls c).missed = some t ∨ s.cache t.key = none) (hticket : pc.ticket = some t)
      (hwait : pc.waiting = none) (hmissed : pc.missed = some t) (hresult : pc.result = none) :
      Effect s c ((s.goto c pc).emit (.starts c t.key))
  | ends (t : Ticket K) (r : Computed V E) (pc : Pc K V E) (hheld : (s.calls c).ticket = some t)
      (hmiss : (s.calls c).missed = some t) (hticket : pc.ticket = some t)
      (hwait : pc.waiting = none)
      (hmissed : ∀ t', pc.missed = some t' → t' = t ∧ ∀ v, r ≠ .ok v)
      (hresult : ∀ key r', pc.result = some (key, r') → key = t.key ∧ r' = r) :
      Effect s c (endCompute s c t.key r pc)
  | remove (t : Ticket K) (o : Outcome V E) (hpc : s.calls c = .drop t o) :
      Effect s c ({ s with inflight := Function.update s.inflight t.key none }.goto c (.notify t o))
  | flag (t : Ticket K) (o : Outcome V E) (hpc : s.calls c = .notify t o) :
      Effect s c (finishCall
        ({ s with done := Function.update s.done t.slot true }.emit (.dropped c t)) c t.key o)

/-- A claim takes the vacant entry, or does what the caller does with the other's slot. -/
theorem claim_effect {key : K} {won : Ticket K → Pc K V E} {lost : ℕ → State C K V E}
    (howned : (s.calls c).owned = none) (hticket : ∀ t, (won t).ticket = some t)
    (hwait : ∀ t, (won t).waiting = none) (hmissed : ∀ t, (won t).missed = none)
    (hresult : ∀ t, (won t).result = none)
    (hlost : ∀ slot, s.inflight key = some slot → Effect s c (lost slot)) :
    Effect s c (claim s c key won lost) := by
  unfold claim
  cases hentry : s.inflight key with
  | some slot => exact hlost slot hentry
  | none => exact .claim key _ howned hentry (hticket _) (hwait _) (hmissed _) (hresult _)

/-- What a call without a ticket does next, silently. -/
theorem goto_effect (hpc : (s.calls c).owned = none) (howned : pc.owned = none)
    (hwait : pc.waiting = none) (hmissed : pc.missed = none) (hresult : pc.result = none) :
    Effect s c (s.goto c pc) := by
  have hticket : ∀ {pc : Pc K V E}, pc.owned = none → pc.ticket = none := by
    intro pc h
    cases ht : pc.ticket with
    | none => rfl
    | some t => exact absurd (h.symm.trans (Pc.owned_of_ticket ht)) (by simp)
  refine .move pc (howned.trans hpc.symm) ((hticket howned).trans (hticket hpc).symm) hwait ?_ ?_
  · intro t ht
    rw [hmissed] at ht
    cases ht
  · intro key r hr
    rw [hresult] at hr
    cases hr

theorem refuse_effect {key : K} (hpc : (s.calls c).owned = none) :
    Effect s c (finishCall s c key .refused) :=
  .finish key .refused hpc fun _ h => by cases h

theorem step_effect (h : step s (c, a) = some s') : Effect s c s' := by
  cases hpc : s.calls c with
  | idle =>
    have hnone : (s.calls c).owned = none := by rw [hpc]; rfl
    rcases a with ⟨⟨key⟩ | ⟨key⟩ | ⟨key⟩⟩ | _ | _ | _ | _ | _ <;> simp only [step, hpc] at h <;>
      cases h
    · exact goto_effect hnone rfl rfl rfl rfl
    · exact goto_effect hnone rfl rfl rfl rfl
    · exact goto_effect hnone rfl rfl rfl rfl
  | lookup key =>
    have hnone : (s.calls c).owned = none := by rw [hpc]; rfl
    cases a <;> simp only [step, hpc] at h <;> try cases h
    cases hhit : s.cache key with
    | some hit =>
      simp only [hhit, Option.some.injEq] at h
      exact h ▸ .finish key _ hnone fun r hr => ⟨hit, by cases hr; rfl, hhit⟩
    | none =>
      simp only [hhit, Option.some.injEq] at h
      exact h ▸ goto_effect hnone rfl rfl rfl rfl
  | claim key =>
    have hnone : (s.calls c).owned = none := by rw [hpc]; rfl
    cases a <;> simp only [step, hpc] at h <;> cases h
    exact claim_effect hnone (fun _ => rfl) (fun _ => rfl) (fun _ => rfl) (fun _ => rfl)
      fun slot hslot => .waits key slot hnone hslot
  | wait t =>
    cases a <;> simp only [step, hpc] at h <;> try cases h
    split_ifs at h with hdone
    cases h
    exact .wakes t hpc hdone
  | recheck t =>
    cases a <;> simp only [step, hpc] at h <;> try cases h
    cases hhit : s.cache t.key with
    | some hit =>
      simp only [hhit, Option.some.injEq] at h
      refine h ▸ .move _ (by rw [hpc]; rfl) (by rw [hpc]; rfl) rfl (fun _ h => by cases h) ?_
      intro key r hr
      cases hr
      exact ⟨hit, rfl, hhit⟩
    | none =>
      simp only [hhit, Option.some.injEq] at h
      exact h ▸ .starts t _ (by rw [hpc]; rfl) (.inr hhit) rfl rfl rfl rfl
  | compute t =>
    cases a <;> simp only [step, hpc] at h <;> cases h
    refine .ends t _ _ (by rw [hpc]; rfl) (by rw [hpc]; rfl) rfl rfl (fun _ h => by cases h) ?_
    intro key r hr
    cases hr
    exact ⟨rfl, rfl⟩
  | tryClaim key =>
    have hnone : (s.calls c).owned = none := by rw [hpc]; rfl
    cases a <;> simp only [step, hpc] at h <;> cases h
    exact claim_effect hnone (fun _ => rfl) (fun _ => rfl) (fun _ => rfl) (fun _ => rfl)
      fun _ _ => refuse_effect hnone
  | missLookup key =>
    have hnone : (s.calls c).owned = none := by rw [hpc]; rfl
    cases a <;> simp only [step, hpc] at h <;> try cases h
    cases hhit : s.cache key with
    | some hit =>
      simp only [hhit, Option.some.injEq] at h
      exact h ▸ refuse_effect hnone
    | none =>
      simp only [hhit, Option.some.injEq] at h
      exact h ▸ goto_effect hnone rfl rfl rfl rfl
  | missClaim key =>
    have hnone : (s.calls c).owned = none := by rw [hpc]; rfl
    cases a <;> simp only [step, hpc] at h <;> cases h
    exact claim_effect hnone (fun _ => rfl) (fun _ => rfl) (fun _ => rfl) (fun _ => rfl)
      fun _ _ => refuse_effect hnone
  | missRecheck t =>
    cases a <;> simp only [step, hpc] at h <;> try cases h
    cases hhit : s.cache t.key with
    | some hit =>
      simp only [hhit, Option.some.injEq] at h
      exact h ▸ .move _ (by rw [hpc]; rfl) (by rw [hpc]; rfl) rfl (fun _ h => by cases h)
        fun _ _ h => by cases h
    | none =>
      simp only [hhit, Option.some.injEq] at h
      refine h ▸ .move _ (by rw [hpc]; rfl) (by rw [hpc]; rfl) rfl ?_ fun _ _ h => by cases h
      intro t' ht'
      cases ht'
      exact hhit
  | held t missed =>
    cases a with
    | look =>
      simp only [step, hpc, Option.some.injEq] at h
      refine h ▸ .move _ (by rw [hpc]; rfl) (by rw [hpc]; rfl) rfl ?_ fun _ _ h => by cases h
      intro t' ht'
      cases hmiss : s.cache t.key with
      | some v =>
        rw [hmiss] at ht'
        cases ht'
      | none =>
        rw [hmiss] at ht'
        cases ht'
        exact hmiss
    | begin_ =>
      cases missed <;> simp only [step, hpc] at h <;> cases h
      exact .starts t _ (by rw [hpc]; rfl) (.inl (by rw [hpc]; rfl)) rfl rfl rfl rfl
    | release =>
      simp only [step, hpc, Option.some.injEq] at h
      exact h ▸ .move _ (by rw [hpc]; rfl) (by rw [hpc]; rfl) rfl (fun _ h => by cases h)
        fun _ _ h => by cases h
    | call | next | finish =>
      simp only [step, hpc] at h
      cases h
  | heldCompute t =>
    cases a <;> simp only [step, hpc] at h <;> cases h
    rename_i r
    refine .ends t r _ (by rw [hpc]; rfl) (by rw [hpc]; rfl) ?_ ?_ ?_ ?_
    · cases r <;> rfl
    · cases r <;> rfl
    · cases r with
      | err e =>
        intro t' ht'
        cases ht'
        exact ⟨rfl, nofun⟩
      | ok | panicked =>
        intro t' ht'
        cases ht'
    · cases r <;> intro key r' hr' <;> cases hr'
  | drop t o =>
    cases a <;> simp only [step, hpc] at h <;> cases h
    exact .remove t o hpc
  | notify t o =>
    cases a <;> simp only [step, hpc] at h <;> cases h
    exact .flag t o hpc
  | finished =>
    cases a <;> simp only [step, hpc] at h <;> cases h

/-! ## The table -/

/-- A vacant entry is filled. -/
theorem Table.claim {key : K} (h : Table s) (howned : (s.calls c).owned = none)
    (hvacant : s.inflight key = none) (hticket : pc.ticket = some ⟨key, s.fresh⟩)
    (hin : s'.inflight = Function.update s.inflight key (some s.fresh)) (hdone : s'.done = s.done)
    (hfresh : s'.fresh = s.fresh + 1) (hcalls : s'.calls = Function.update s.calls c pc) :
    Table s' := by
  have hself : s'.calls c = pc := by rw [hcalls, Function.update_self]
  have hother : ∀ {c'}, c' ≠ c → s'.calls c' = s.calls c' := by
    intro c' hc
    rw [hcalls, Function.update_of_ne hc]
  have hnew : ∀ {t}, pc.owned = some t → t = ⟨key, s.fresh⟩ := by
    intro t ht
    rw [Pc.owned_of_ticket hticket, Option.some.injEq] at ht
    exact ht.symm
  refine ⟨fun k slot => ?_, fun c₁ c₂ t₁ t₂ h₁ h₂ hslot => ?_, fun c' t ht => ?_,
    fun slot hs => ?_⟩
  · rw [hin]
    by_cases hk : k = key
    · subst hk
      rw [Function.update_self, Option.some.injEq]
      constructor
      · rintro rfl
        exact ⟨c, by rw [hself, hticket]⟩
      · rintro ⟨c', hc'⟩
        by_cases hc : c' = c
        · rw [hc, hself, hticket, Option.some.injEq, Ticket.mk.injEq] at hc'
          exact hc'.2
        · rw [hother hc] at hc'
          rw [(h.entry k slot).mpr ⟨c', hc'⟩] at hvacant
          cases hvacant
    · rw [Function.update_of_ne hk, h.entry]
      refine exists_congr fun c' => ?_
      by_cases hc : c' = c
      · rw [hc, hself, hticket, Pc.ticket_of_owned_none howned]
        refine iff_of_false nofun fun heq => ?_
        rw [Option.some.injEq, Ticket.mk.injEq] at heq
        exact hk heq.1.symm
      · rw [hother hc]
  · by_cases hc₁ : c₁ = c <;> by_cases hc₂ : c₂ = c
    · rw [hc₁, hc₂]
    · rw [hc₁, hself] at h₁
      rw [hother hc₂] at h₂
      have hlt := (h.fresh c₂ t₂ h₂).1
      rw [hnew h₁] at hslot
      exact absurd hslot (Nat.ne_of_gt hlt)
    · rw [hother hc₁] at h₁
      rw [hc₂, hself] at h₂
      have hlt := (h.fresh c₁ t₁ h₁).1
      rw [hnew h₂] at hslot
      exact absurd hslot (Nat.ne_of_lt hlt)
    · rw [hother hc₁] at h₁
      rw [hother hc₂] at h₂
      exact h.slots c₁ c₂ t₁ t₂ h₁ h₂ hslot
  · rw [hfresh, hdone]
    by_cases hc : c' = c
    · rw [hc, hself] at ht
      rw [hnew ht]
      refine ⟨Nat.lt_succ_self _, ?_⟩
      cases hd : s.done s.fresh with
      | false => rfl
      | true => exact absurd (h.doneFresh _ hd) (Nat.lt_irrefl _)
    · rw [hother hc] at ht
      have ht := h.fresh c' t ht
      exact ⟨Nat.lt_succ_of_lt ht.1, ht.2⟩
  · rw [hdone] at hs
    rw [hfresh]
    exact Nat.lt_succ_of_lt (h.doneFresh slot hs)

/-- A ticket gives up its entry, not yet its slot. -/
theorem Table.remove {o : Outcome V E} (h : Table s) (hpc : s.calls c = .drop t o) :
    Table ({ s with inflight := Function.update s.inflight t.key none }.goto c (.notify t o)) := by
  have hheld : (s.calls c).ticket = some t := by rw [hpc]; rfl
  have howned : ∀ c', (Function.update s.calls c (.notify t o) c').owned = (s.calls c').owned :=
    read_update (by rw [hpc]; rfl)
  have hself : (Function.update s.calls c (.notify t o) c).ticket = none := by
    rw [Function.update_self]
    rfl
  refine ⟨fun k slot => ?_, fun c₁ c₂ t₁ t₂ h₁ h₂ => ?_, fun c' t' ht' => ?_, h.doneFresh⟩
  · show Function.update s.inflight t.key none k = some slot ↔
      ∃ c', (Function.update s.calls c (.notify t o) c').ticket = some ⟨k, slot⟩
    by_cases hk : k = t.key
    · rw [hk, Function.update_self]
      refine iff_of_false nofun ?_
      rintro ⟨c', hc'⟩
      by_cases hc : c' = c
      · rw [hc, hself] at hc'
        cases hc'
      · rw [Function.update_of_ne hc] at hc'
        exact hc (h.exclusive hc' hheld rfl)
    · rw [Function.update_of_ne hk, h.entry]
      refine exists_congr fun c' => ?_
      by_cases hc : c' = c
      · rw [hc, hself, hheld]
        refine iff_of_false (fun heq => hk ?_) nofun
        rw [Option.some.injEq] at heq
        rw [heq]
      · rw [Function.update_of_ne hc]
  · exact h.slots c₁ c₂ t₁ t₂ ((howned c₁).symm.trans h₁) ((howned c₂).symm.trans h₂)
  · exact h.fresh c' t' ((howned c').symm.trans ht')

omit [DecidableEq K] in
/-- The flag of a slot is set when its entry is gone. -/
theorem Table.flag {o : Outcome V E} (h : Table s) (hpc : s.calls c = .notify t o)
    (hin : s'.inflight = s.inflight) (hdone : s'.done = Function.update s.done t.slot true)
    (hfresh : s'.fresh = s.fresh)
    (hcalls : s'.calls = Function.update s.calls c (.finished t.key o)) : Table s' := by
  have howner : (s.calls c).owned = some t := by rw [hpc]; rfl
  have hticket : ∀ c', (s'.calls c').ticket = (s.calls c').ticket := by
    intro c'
    rw [hcalls]
    exact read_update (by rw [hpc]; rfl) c'
  have howned : ∀ {c' t'}, (s'.calls c').owned = some t' →
      c' ≠ c ∧ (s.calls c').owned = some t' := by
    intro c' t' ht'
    rw [hcalls] at ht'
    by_cases hc : c' = c
    · rw [hc, Function.update_self] at ht'
      cases ht'
    · rw [Function.update_of_ne hc] at ht'
      exact ⟨hc, ht'⟩
  refine ⟨fun k slot => ?_, fun c₁ c₂ t₁ t₂ h₁ h₂ => ?_, fun c' t' ht' => ?_, fun slot hs => ?_⟩
  · rw [hin]
    simp only [hticket]
    exact h.entry k slot
  · exact h.slots c₁ c₂ t₁ t₂ (howned h₁).2 (howned h₂).2
  · obtain ⟨hc, ht'⟩ := howned ht'
    have hslot : t'.slot ≠ t.slot := fun heq => hc (h.slots c' c t' t ht' howner heq)
    rw [hfresh, hdone, Function.update_of_ne hslot]
    exact h.fresh c' t' ht'
  · rw [hdone] at hs
    rw [hfresh]
    by_cases hslot : slot = t.slot
    · rw [hslot]
      exact (h.fresh c t howner).1
    · rw [Function.update_of_ne hslot] at hs
      exact h.doneFresh slot hs

theorem Table.effect (h : Table s) (he : Effect s c s') : Table s' := by
  have hkeep : ∀ {pc : Pc K V E}, pc.owned = (s.calls c).owned →
      pc.ticket = (s.calls c).ticket → ∀ {s'' : State C K V E}, s''.inflight = s.inflight →
      s''.done = s.done → s''.fresh = s.fresh → s''.calls = Function.update s.calls c pc →
      Table s'' := by
    intro pc howned hticket s'' hin hdone hfresh hcalls
    refine h.keep hin hdone hfresh ?_ ?_
    · intro c'
      rw [hcalls]
      exact read_update hticket c'
    · intro c'
      rw [hcalls]
      exact read_update howned c'
  have hidle : ∀ pc : Pc K V E, (s.calls c).owned = none → pc.owned = none →
      pc.owned = (s.calls c).owned ∧ pc.ticket = (s.calls c).ticket := fun _ hc hpc =>
    ⟨hpc.trans hc.symm, (Pc.ticket_of_owned_none hpc).trans (Pc.ticket_of_owned_none hc).symm⟩
  have hhold : ∀ {pc : Pc K V E} {t : Ticket K}, (s.calls c).ticket = some t →
      pc.ticket = some t → pc.owned = (s.calls c).owned ∧ pc.ticket = (s.calls c).ticket :=
    fun hc hpc => ⟨(Pc.owned_of_ticket hpc).trans (Pc.owned_of_ticket hc).symm,
      hpc.trans hc.symm⟩
  cases he with
  | move pc howned hticket => exact hkeep howned hticket rfl rfl rfl rfl
  | finish key o howned =>
    obtain ⟨h1, h2⟩ := hidle (.finished key o) howned rfl
    exact hkeep h1 h2 rfl rfl rfl rfl
  | waits key slot howned =>
    obtain ⟨h1, h2⟩ := hidle (.wait ⟨key, slot⟩) howned rfl
    exact hkeep h1 h2 rfl rfl rfl rfl
  | wakes t hpc =>
    obtain ⟨h1, h2⟩ := hidle (.lookup t.key) (by rw [hpc]; rfl) rfl
    exact hkeep h1 h2 rfl rfl rfl rfl
  | starts t pc hheld _ hticket =>
    obtain ⟨h1, h2⟩ := hhold hheld hticket
    exact hkeep h1 h2 rfl rfl rfl rfl
  | ends t r pc hheld _ hticket =>
    obtain ⟨h1, h2⟩ := hhold hheld hticket
    cases r <;> exact hkeep h1 h2 rfl rfl rfl rfl
  | claim key pc howned hvacant hticket => exact h.claim howned hvacant hticket rfl rfl rfl rfl
  | remove t o hpc => exact h.remove hpc
  | flag t o hpc => exact h.flag hpc rfl rfl rfl rfl

/-! ## The cache -/

omit [DecidableEq K] in
/-- A step that stores nothing. -/
theorem Cached.keep (h : Cached s) (hcache : s'.cache = s.cache)
    (hcalls : s'.calls = Function.update s.calls c pc)
    (hmissed : ∀ t, pc.missed = some t → s.cache t.key = none)
    (hresult : ∀ key v, pc.result = some (key, .ok v) → s.cache key = some v) : Cached s' := by
  refine ⟨fun c' t ht => ?_, fun c' key v hr => ?_⟩
  · rw [hcache]
    rw [hcalls] at ht
    by_cases hc : c' = c
    · rw [hc, Function.update_self] at ht
      exact hmissed t ht
    · rw [Function.update_of_ne hc] at ht
      exact h.missed c' t ht
  · rw [hcache]
    rw [hcalls] at hr
    by_cases hc : c' = c
    · rw [hc, Function.update_self] at hr
      exact hresult key v hr
    · rw [Function.update_of_ne hc] at hr
      exact h.stored c' key v hr

/-- The holder of a ticket that missed stores its value: no one else relies on the miss. -/
theorem Cached.store {s s' : State C K V E} {c : C} {t : Ticket K} {v : V} {pc : Pc K V E}
    (htable : Table s) (h : Cached s) (hmiss : (s.calls c).missed = some t)
    (hcache : s'.cache = Function.update s.cache t.key (some v))
    (hcalls : s'.calls = Function.update s.calls c pc) (hmissed : pc.missed = none)
    (hresult : ∀ key r, pc.result = some (key, r) → key = t.key ∧ r = .ok v) : Cached s' := by
  have hnone : s.cache t.key = none := h.missed c t hmiss
  refine ⟨fun c' t' ht' => ?_, fun c' key v' hr => ?_⟩
  · rw [hcalls] at ht'
    by_cases hc : c' = c
    · rw [hc, Function.update_self, hmissed] at ht'
      cases ht'
    · rw [Function.update_of_ne hc] at ht'
      have hkey : t'.key ≠ t.key := fun heq =>
        hc (htable.exclusive (Pc.ticket_of_missed ht') (Pc.ticket_of_missed hmiss) heq)
      rw [hcache, Function.update_of_ne hkey]
      exact h.missed c' t' ht'
  · rw [hcalls] at hr
    by_cases hc : c' = c
    · rw [hc, Function.update_self] at hr
      obtain ⟨rfl, hv⟩ := hresult key _ hr
      cases hv
      rw [hcache, Function.update_self]
    · rw [Function.update_of_ne hc] at hr
      have hold := h.stored c' key v' hr
      have hkey : key ≠ t.key := by
        rintro rfl
        rw [hnone] at hold
        cases hold
      rw [hcache, Function.update_of_ne hkey]
      exact hold

theorem Cached.effect (htable : Table s) (h : Cached s) (he : Effect s c s') : Cached s' := by
  cases he with
  | move pc _ _ _ hmissed hresult =>
    refine h.keep rfl rfl hmissed fun key v hr => ?_
    obtain ⟨w, hw, hcache⟩ := hresult key _ hr
    cases hw
    exact hcache
  | finish key o _ hresult =>
    refine h.keep rfl rfl (fun _ h => nomatch h) fun key' v hr => ?_
    cases o with
    | computed r =>
      cases hr
      obtain ⟨w, hw, hcache⟩ := hresult _ rfl
      cases hw
      exact hcache
    | refused | released => cases hr
  | claim key pc _ _ _ _ hmissed hresult =>
    exact h.keep rfl rfl (fun t ht => by rw [hmissed] at ht; cases ht)
      fun key v hr => by rw [hresult] at hr; cases hr
  | waits | wakes => exact h.keep rfl rfl (fun _ h => nomatch h) fun _ _ h => nomatch h
  | starts t pc _ hmiss _ _ hmissed hresult =>
    refine h.keep rfl rfl (fun t' ht' => ?_) fun key v hr => by rw [hresult] at hr; cases hr
    rw [hmissed, Option.some.injEq] at ht'
    subst ht'
    exact hmiss.elim (h.missed c t) id
  | ends t r pc _ hmiss _ _ hmissed hresult =>
    have hold : ∀ t', pc.missed = some t' → s.cache t'.key = none := fun t' ht' =>
      (hmissed t' ht').1 ▸ h.missed c t hmiss
    cases r with
    | ok v =>
      refine Cached.store htable h hmiss rfl rfl ?_ hresult
      cases hm : pc.missed with
      | none => rfl
      | some t' => exact absurd rfl ((hmissed t' hm).2 v)
    | err e =>
      exact h.keep rfl rfl hold fun key v hr => nomatch (hresult key _ hr).2
    | panicked =>
      exact h.keep rfl rfl hold fun key v hr => nomatch (hresult key _ hr).2
  | remove t o hpc | flag t o hpc =>
    refine h.keep rfl rfl (fun _ h => nomatch h) fun key v hr => h.stored c key v ?_
    rw [hpc]
    cases o <;> exact hr

/-- Nothing is evicted, and nothing is overwritten. -/
theorem Effect.cache_stable (h : Cached s) (he : Effect s c s') {key : K} {v : V}
    (hv : s.cache key = some v) : s'.cache key = some v := by
  cases he with
  | ends t r pc _ hmiss =>
    cases r with
    | ok w =>
      have hkey : key ≠ t.key := by
        rintro rfl
        rw [h.missed c t hmiss] at hv
        cases hv
      exact (Function.update_of_ne hkey _ _).trans hv
    | err | panicked => exact hv
  | move | finish | claim | waits | wakes | starts | remove | flag => exact hv

/-! ## The events -/

omit [DecidableEq K] in
/-- Events that are about no ticket's claim or drop. -/
theorem Logged.extend (es : List (Event C K V E)) (h : Logged s)
    (hevents : s'.events = es ++ s.events) (hcalls : s'.calls = Function.update s.calls c pc)
    (hfresh : s'.fresh = s.fresh) (hdone : s'.done = s.done)
    (hstable : ∀ key v, s.cache key = some v → s'.cache key = some v)
    (hlawful : EachPreceded Lawful (es ++ s.events))
    (hplain : ∀ c' t, .claimed c' t ∉ es ∧ .dropped c' t ∉ es)
    (hok : ∀ c' key v, .computed c' key (.ok v) ∈ es ∨ .ended c' key (.computed (.ok v)) ∈ es →
      s'.cache key = some v) (howned : pc.owned = (s.calls c).owned)
    (hfailed : ∀ key e, pc.result = some (key, .err e) →
      .computed c key (.err e) ∈ es ++ s.events) (hwaiting : ∀ t, pc.waiting = some t →
      .waits c t ∈ es ++ s.events ∧ ∃ holder, .claimed holder t ∈ s.events) : Logged s' := by
  have hold : ∀ {e}, e ∈ s.events → e ∈ s'.events := fun he => by
    rw [hevents]
    exact List.mem_append_right _ he
  have hclaimed : ∀ {c' t}, .claimed c' t ∈ s'.events → .claimed c' t ∈ s.events := by
    intro c' t he
    rw [hevents, List.mem_append] at he
    exact he.resolve_left (hplain c' t).1
  have hdropped : ∀ {c' t}, .dropped c' t ∈ s'.events → .dropped c' t ∈ s.events := by
    intro c' t he
    rw [hevents, List.mem_append] at he
    exact he.resolve_left (hplain c' t).2
  refine ⟨hevents ▸ hlawful, fun c' key v he => ?_, fun c' key v he => ?_, fun c' key e hr => ?_,
    fun c' t he => ?_, fun c' t he => hold (h.dropped c' t (hdropped he)), fun c' t ho => ?_,
    fun c' t hw => ?_⟩
  · rw [hevents, List.mem_append] at he
    exact he.elim (fun he => hok c' key v (.inl he)) fun he => hstable _ _ (h.computedOk c' key v he)
  · rw [hevents, List.mem_append] at he
    exact he.elim (fun he => hok c' key v (.inr he)) fun he => hstable _ _ (h.endedOk c' key v he)
  · rw [hcalls] at hr
    by_cases hc : c' = c
    · rw [hc, Function.update_self] at hr
      rw [hevents, hc]
      exact hfailed key e hr
    · rw [Function.update_of_ne hc] at hr
      exact hold (h.failed c' key e hr)
  · obtain ⟨hlt, hd⟩ := h.claimed c' t (hclaimed he)
    rw [hfresh, hdone]
    exact ⟨hlt, fun hs => hold (hd hs)⟩
  · rw [hcalls, read_update howned] at ho
    obtain ⟨hin, hnot⟩ := h.owned c' t ho
    exact ⟨hold hin, fun c'' he => hnot c'' (hdropped he)⟩
  · rw [hcalls] at hw
    by_cases hc : c' = c
    · rw [hc, Function.update_self] at hw
      obtain ⟨hin, holder, hh⟩ := hwaiting t hw
      rw [hc, hevents]
      exact ⟨hin, holder, List.mem_append_right _ hh⟩
    · rw [Function.update_of_ne hc] at hw
      obtain ⟨hin, holder, hh⟩ := h.waiting c' t hw
      exact ⟨hold hin, holder, hold hh⟩

omit [DecidableEq K] in
/-- A fresh slot is claimed. -/
theorem Logged.claim {s s' : State C K V E} {c : C} {key : K} {pc : Pc K V E} (htable : Table s)
    (h : Logged s) (hticket : pc.ticket = some ⟨key, s.fresh⟩) (hwait : pc.waiting = none)
    (hresult : pc.result = none) (hevents : s'.events = .claimed c ⟨key, s.fresh⟩ :: s.events)
    (hcalls : s'.calls = Function.update s.calls c pc) (hfresh : s'.fresh = s.fresh + 1)
    (hdone : s'.done = s.done) (hcache : s'.cache = s.cache) : Logged s' := by
  have hold : ∀ {e}, e ∈ s.events → e ∈ s'.events := fun he => by
    rw [hevents]
    exact List.mem_cons_of_mem _ he
  have hback : ∀ {e}, e ∈ s'.events → e ≠ .claimed c ⟨key, s.fresh⟩ → e ∈ s.events := by
    intro e he hne
    rw [hevents, List.mem_cons] at he
    exact he.resolve_left hne
  have hnodone : s.done s.fresh = false := by
    cases hd : s.done s.fresh with
    | false => rfl
    | true => exact absurd (htable.doneFresh _ hd) (Nat.lt_irrefl _)
  refine ⟨?_, fun c' key v he => ?_, fun c' key v he => ?_, fun c' key e hr => ?_,
    fun c' t he => ?_, fun c' t he => hold (h.dropped c' t (hback he nofun)), fun c' t ho => ?_,
    fun c' t hw => ?_⟩
  · rw [hevents]
    exact ⟨fun c' t' he => Nat.ne_of_lt (h.claimed c' t' he).1, h.lawful⟩
  · rw [hcache]
    exact h.computedOk c' key v (hback he nofun)
  · rw [hcache]
    exact h.endedOk c' key v (hback he nofun)
  · rw [hcalls] at hr
    by_cases hc : c' = c
    · rw [hc, Function.update_self, hresult] at hr
      cases hr
    · rw [Function.update_of_ne hc] at hr
      exact hold (h.failed c' key e hr)
  · rw [hfresh, hdone]
    rw [hevents, List.mem_cons] at he
    rcases he with heq | he
    · cases heq
      refine ⟨Nat.lt_succ_self _, fun hd => ?_⟩
      rw [hnodone] at hd
      cases hd
    · obtain ⟨hlt, hd⟩ := h.claimed c' t he
      exact ⟨Nat.lt_succ_of_lt hlt, fun hs => hold (hd hs)⟩
  · rw [hcalls] at ho
    by_cases hc : c' = c
    · rw [hc, Function.update_self, Pc.owned_of_ticket hticket, Option.some.injEq] at ho
      subst ho
      refine ⟨by rw [hevents, hc]; exact List.mem_cons_self, fun c'' he => ?_⟩
      have hlt := (h.claimed c'' _ (h.dropped c'' _ (hback he nofun))).1
      exact Nat.lt_irrefl _ hlt
    · rw [Function.update_of_ne hc] at ho
      obtain ⟨hin, hnot⟩ := h.owned c' t ho
      exact ⟨hold hin, fun c'' he => hnot c'' (hback he nofun)⟩
  · rw [hcalls] at hw
    by_cases hc : c' = c
    · rw [hc, Function.update_self, hwait] at hw
      cases hw
    · rw [Function.update_of_ne hc] at hw
      obtain ⟨hin, holder, hh⟩ := h.waiting c' t hw
      exact ⟨hold hin, holder, hold hh⟩

omit [DecidableEq K] in
/-- A ticket is dropped, and its call ends. -/
theorem Logged.flag {o : Outcome V E} (htable : Table s) (hcached : Cached s) (h : Logged s)
    (hpc : s.calls c = .notify t o)
    (hevents : s'.events = .ended c t.key o :: .dropped c t :: s.events)
    (hcalls : s'.calls = Function.update s.calls c (.finished t.key o))
    (hfresh : s'.fresh = s.fresh) (hdone : s'.done = Function.update s.done t.slot true)
    (hcache : s'.cache = s.cache) : Logged s' := by
  have howner : (s.calls c).owned = some t := by rw [hpc]; rfl
  obtain ⟨hclaimed, hundropped⟩ := h.owned c t howner
  have hold : ∀ {e}, e ∈ s.events → e ∈ s'.events := fun he => by
    rw [hevents]
    exact List.mem_cons_of_mem _ (List.mem_cons_of_mem _ he)
  have hback : ∀ {e}, e ∈ s'.events → e ≠ .ended c t.key o → e ≠ .dropped c t →
      e ∈ s.events := by
    intro e he hne hne'
    rw [hevents, List.mem_cons, List.mem_cons] at he
    exact (he.resolve_left hne).resolve_left hne'
  refine ⟨?_, fun c' key v he => ?_, fun c' key v he => ?_, fun c' key e hr => ?_,
    fun c' t' he => ?_, fun c' t' he => ?_, fun c' t' ho => ?_, fun c' t' hw => ?_⟩
  · rw [hevents]
    refine ⟨?_, ⟨hclaimed, hundropped⟩, h.lawful⟩
    rcases o with ⟨_ | e | _⟩ | _ | _ <;> try exact trivial
    exact List.mem_cons_of_mem _ (h.failed c t.key e (by rw [hpc]; rfl))
  · rw [hcache]
    exact h.computedOk c' key v (hback he nofun nofun)
  · rw [hcache]
    rw [hevents, List.mem_cons, List.mem_cons] at he
    rcases he with heq | heq | he
    · cases heq
      exact hcached.stored c t.key v (by rw [hpc]; rfl)
    · cases heq
    · exact h.endedOk c' key v he
  · rw [hcalls] at hr
    by_cases hc : c' = c
    · rw [hc, Function.update_self] at hr
      rw [hc]
      refine hold (h.failed c key e ?_)
      rw [hpc]
      cases o <;> exact hr
    · rw [Function.update_of_ne hc] at hr
      exact hold (h.failed c' key e hr)
  · have he := hback he nofun nofun
    obtain ⟨hlt, hd⟩ := h.claimed c' t' he
    rw [hfresh, hdone]
    refine ⟨hlt, fun hs => ?_⟩
    by_cases hslot : t'.slot = t.slot
    · obtain ⟨rfl, rfl⟩ := claimed_unique h.lawful he hclaimed hslot
      rw [hevents]
      exact List.mem_cons_of_mem _ List.mem_cons_self
    · rw [Function.update_of_ne hslot] at hs
      exact hold (hd hs)
  · rw [hevents, List.mem_cons, List.mem_cons] at he
    rcases he with heq | heq | he
    · cases heq
    · cases heq
      exact hold hclaimed
    · exact hold (h.dropped c' t' he)
  · rw [hcalls] at ho
    by_cases hc : c' = c
    · rw [hc, Function.update_self] at ho
      cases ho
    · rw [Function.update_of_ne hc] at ho
      obtain ⟨hin, hnot⟩ := h.owned c' t' ho
      refine ⟨hold hin, fun c'' he => ?_⟩
      rw [hevents, List.mem_cons, List.mem_cons] at he
      rcases he with heq | heq | he
      · cases heq
      · cases heq
        exact hc (htable.slots c' c t t ho howner rfl)
      · exact hnot c'' he
  · rw [hcalls] at hw
    by_cases hc : c' = c
    · rw [hc, Function.update_self] at hw
      cases hw
    · rw [Function.update_of_ne hc] at hw
      obtain ⟨hin, holder, hh⟩ := h.waiting c' t' hw
      exact ⟨hold hin, holder, hold hh⟩

theorem Logged.effect (htable : Table s) (hcached : Cached s) (h : Logged s) (he : Effect s c s') :
    Logged s' := by
  have hstable : ∀ key v, s.cache key = some v → s'.cache key = some v := fun _ _ =>
    he.cache_stable hcached
  have hplain : ∀ {e : Event C K V E}, (∀ c' t, e ≠ .claimed c' t ∧ e ≠ .dropped c' t) →
      ∀ c' t, .claimed c' t ∉ [e] ∧ .dropped c' t ∉ [e] := by
    intro e hne c' t
    exact ⟨fun hin => (hne c' t).1 (List.mem_singleton.mp hin).symm,
      fun hin => (hne c' t).2 (List.mem_singleton.mp hin).symm⟩
  have hsilent : ∀ e : Event C K V E, (∀ c' key v, e ≠ .computed c' key (.ok v) ∧
      e ≠ .ended c' key (.computed (.ok v))) → ∀ c' key v,
      .computed c' key (.ok v) ∈ [e] ∨ .ended c' key (.computed (.ok v)) ∈ [e] →
        s'.cache key = some v := by
    intro e hne c' key v hin
    rcases hin with hin | hin
    · exact absurd (List.mem_singleton.mp hin).symm (hne c' key v).1
    · exact absurd (List.mem_singleton.mp hin).symm (hne c' key v).2
  cases he with
  | move pc howned _ hwait _ hresult =>
    refine h.extend [] rfl rfl rfl rfl hstable h.lawful (fun _ _ => ⟨nofun, nofun⟩)
      (fun _ _ _ hin => hin.elim nofun nofun) howned ?_ fun t ht => ?_
    · intro key e hr
      obtain ⟨v, hv, -⟩ := hresult key _ hr
      cases hv
    · rw [hwait] at ht
      cases ht
  | finish key o howned hresult =>
    refine h.extend [.ended c key o] rfl rfl rfl rfl hstable ⟨?_, h.lawful⟩
      (hplain fun _ _ => ⟨nofun, nofun⟩) ?_ howned.symm ?_ nofun
    · rcases o with r | _ | _ <;> try exact trivial
      obtain ⟨v, rfl, -⟩ := hresult r rfl
      exact trivial
    · intro c' key' v hin
      rcases hin with hin | hin
      · cases List.mem_singleton.mp hin
      · cases List.mem_singleton.mp hin
        obtain ⟨w, hw, hcache⟩ := hresult _ rfl
        cases hw
        exact hcache
    · intro key' e hr
      cases o with
      | computed r =>
        cases hr
        obtain ⟨v, hv, -⟩ := hresult _ rfl
        cases hv
      | refused | released => cases hr
  | claim key pc howned _ hticket hwait _ hresult =>
    exact h.claim htable hticket hwait hresult rfl rfl rfl rfl rfl
  | waits key slot howned hentry =>
    obtain ⟨holder, hholder⟩ := (htable.entry key slot).mp hentry
    obtain ⟨hclaimed, hundropped⟩ := h.owned holder _ (Pc.owned_of_ticket hholder)
    refine h.extend [.waits c ⟨key, slot⟩] rfl rfl rfl rfl hstable
      ⟨⟨holder, hclaimed, hundropped⟩, h.lawful⟩ (hplain fun _ _ => ⟨nofun, nofun⟩)
      (hsilent _ fun _ _ _ => ⟨nofun, nofun⟩) howned.symm nofun ?_
    intro t ht
    cases ht
    exact ⟨List.mem_cons_self, holder, hclaimed⟩
  | wakes t hpc hdone =>
    obtain ⟨hwaits, holder, hclaimed⟩ := h.waiting c t (by rw [hpc]; rfl)
    have hdropped := (h.claimed holder t hclaimed).2 hdone
    exact h.extend [.wakes c t] rfl rfl rfl rfl hstable
      ⟨⟨hwaits, holder, hclaimed, hdropped⟩, h.lawful⟩ (hplain fun _ _ => ⟨nofun, nofun⟩)
      (hsilent _ fun _ _ _ => ⟨nofun, nofun⟩) (by rw [hpc]; rfl) nofun nofun
  | starts t pc hheld hmiss hticket hwait _ hresult =>
    have hnone : s.cache t.key = none := hmiss.elim (hcached.missed c t) id
    refine h.extend [.starts c t.key] rfl rfl rfl rfl hstable ⟨?_, h.lawful⟩
      (hplain fun _ _ => ⟨nofun, nofun⟩) (hsilent _ fun _ _ _ => ⟨nofun, nofun⟩)
      ((Pc.owned_of_ticket hticket).trans (Pc.owned_of_ticket hheld).symm) ?_ ?_
    · intro c' v hin
      rw [h.computedOk c' t.key v hin] at hnone
      cases hnone
    · intro key e hr
      rw [hresult] at hr
      cases hr
    · intro t' ht'
      rw [hwait] at ht'
      cases ht'
  | ends t r pc hheld _ hticket hwait _ hresult =>
    refine h.extend [.computed c t.key r] ?_ ?_ ?_ ?_ hstable ⟨?_, h.lawful⟩
      (hplain fun _ _ => ⟨nofun, nofun⟩) ?_
      ((Pc.owned_of_ticket hticket).trans (Pc.owned_of_ticket hheld).symm) ?_ ?_
    · cases r <;> rfl
    · cases r <;> rfl
    · cases r <;> rfl
    · cases r <;> rfl
    · exact trivial
    · intro c' key v hin
      rcases hin with hin | hin
      · cases List.mem_singleton.mp hin
        exact Function.update_self ..
      · cases List.mem_singleton.mp hin
    · intro key e hr
      obtain ⟨rfl, rfl⟩ := hresult key _ hr
      exact List.mem_cons_self
    · intro t' ht'
      rw [hwait] at ht'
      cases ht'
  | remove t o hpc =>
    refine h.extend [] rfl rfl rfl rfl hstable h.lawful (fun _ _ => ⟨nofun, nofun⟩)
      (fun _ _ _ hin => hin.elim nofun nofun) (by rw [hpc]; rfl) ?_ nofun
    intro key e hr
    refine h.failed c key e ?_
    rw [hpc]
    cases o <;> exact hr
  | flag t o hpc => exact h.flag htable hcached hpc rfl rfl rfl rfl rfl

/-! ## Runs -/

/-- The states of the calls over a cache, whatever their interleaving. -/
def Reachable (cache : K → Option V) (s : State C K V E) : Prop :=
  Run step (fun _ _ => True) (State.new cache) s

theorem Reachable.inv {cache : K → Option V} {s : State C K V E} (h : Reachable cache s) :
    Table s ∧ Cached s ∧ Logged s := by
  refine Run.invariant (I := fun s => Table s ∧ Cached s ∧ Logged s) h ?_
    ⟨Table.new cache, Cached.new cache, Logged.new cache⟩
  rintro s ⟨c, a⟩ s' ⟨htable, hcached, hlogged⟩ - hs
  have he := step_effect hs
  exact ⟨htable.effect he, hcached.effect htable he, hlogged.effect htable hcached he⟩

/-- What singleflight promises of a state and the run that led to it. -/
structure ComputesOnce (s : State C K V E) : Prop where
  /-- No two calls hold a ticket for one key. -/
  exclusive : ∀ c c' t t', (s.calls c).ticket = some t → (s.calls c').ticket = some t' →
    t.key = t'.key → c = c'
  /-- No computation for a key starts after one has succeeded. -/
  once : ∀ later c key earlier, s.events = later ++ .starts c key :: earlier →
    ∀ c' v, .computed c' key (.ok v) ∉ earlier
  /-- A run that returns `Ok` returns the stored value. -/
  returnsStored : ∀ c key v, .ended c key (.computed (.ok v)) ∈ s.events → s.cache key = some v
  /-- A waiter waits for the one call that holds the ticket. -/
  waitsForHolder : ∀ later c t earlier, s.events = later ++ .waits c t :: earlier →
    ∃ holder, .claimed holder t ∈ earlier ∧ (∀ c', .dropped c' t ∉ earlier) ∧
      ∀ c', .claimed c' t ∈ s.events → c' = holder
  /-- A waiter is released after that call has dropped its ticket. -/
  wakesAfterDrop : ∀ later c t earlier, s.events = later ++ .wakes c t :: earlier →
    .waits c t ∈ earlier ∧ ∃ holder, .claimed holder t ∈ earlier ∧ .dropped holder t ∈ earlier ∧
      ∀ c', .claimed c' t ∈ s.events → c' = holder
  /-- A run returns `Err` after its own computation has failed. -/
  returnsOwnError : ∀ later c key e earlier,
    s.events = later ++ .ended c key (.computed (.err e)) :: earlier →
    .computed c key (.err e) ∈ earlier

theorem singleflight_computesOnce (cache : K → Option V) (s : State C K V E)
    (h : Reachable cache s) : ComputesOnce s := by
  obtain ⟨htable, hcached, hlogged⟩ := h.inv
  have hlawful := eachPreceded_iff.mp hlogged.lawful
  have hunique : ∀ {later e earlier holder t}, s.events = later ++ e :: earlier →
      .claimed holder t ∈ earlier → ∀ c', .claimed c' t ∈ s.events → c' = holder := by
    intro later e earlier holder t hs hin c' hc'
    refine (claimed_unique hlogged.lawful hc' ?_ rfl).1
    rw [hs]
    exact List.mem_append_right _ (List.mem_cons_of_mem _ hin)
  refine ⟨fun c c' t t' => htable.exclusive, fun later c key earlier hs => hlawful later _ earlier hs,
    hlogged.endedOk, fun later c t earlier hs => ?_, fun later c t earlier hs => ?_,
    fun later c key e earlier hs => hlawful later _ earlier hs⟩
  · obtain ⟨holder, hin, hnot⟩ := hlawful later _ earlier hs
    exact ⟨holder, hin, hnot, hunique hs hin⟩
  · obtain ⟨hwaits, holder, hin, hdropped⟩ := hlawful later _ earlier hs
    exact ⟨hwaits, holder, hin, hdropped, hunique hs hin⟩

/-- Two runs of one key: the second one waits for the first one's value. -/
def twoRuns : List (ℕ × Action ℕ ℕ ℕ) :=
  [(0, .call (.run 7)), (1, .call (.run 7)), (0, .next), (1, .next), (0, .next), (1, .next),
    (0, .next), (0, .finish (.ok 42)), (0, .next), (0, .next), (1, .next), (1, .next)]

theorem singleflight_computesOnce_twoRuns :
    ∃ s : State ℕ ℕ ℕ ℕ, exec step (State.new fun _ => none) twoRuns = some s ∧
      .ended 1 7 (.computed (.ok 42)) ∈ s.events ∧ ComputesOnce s := by
  have hrun : ∃ s : State ℕ ℕ ℕ ℕ, exec step (State.new fun _ => none) twoRuns = some s ∧
      .ended 1 7 (.computed (.ok 42)) ∈ s.events := ⟨_, rfl, List.mem_cons_self⟩
  obtain ⟨s, hs, hended⟩ := hrun
  exact ⟨s, hs, hended, singleflight_computesOnce (fun _ => none) s
    (run_of_exec (fun _ _ _ => trivial) hs)⟩

/-! ## Progress -/

/-- A call that waits is attended by the owner of its ticket, until the flag is set. -/
def Attended (s : State C K V E) : Prop :=
  ∀ c t, (s.calls c).waiting = some t → s.done t.slot = true ∨ ∃ c', (s.calls c').owned = some t

omit [DecidableEq K] in
theorem Attended.keep (h : Attended s) (hdone : ∀ slot, s.done slot = true → s'.done slot = true)
    (hcalls : s'.calls = Function.update s.calls c pc)
    (howned : ∀ t, (s.calls c).owned = some t → pc.owned = some t ∨ s'.done t.slot = true)
    (hwait : ∀ t, pc.waiting = some t → ∃ c', (s.calls c').owned = some t) : Attended s' := by
  have hold : ∀ t c', (s.calls c').owned = some t →
      s'.done t.slot = true ∨ ∃ c', (s'.calls c').owned = some t := by
    intro t c' ht
    by_cases hc : c' = c
    · subst hc
      refine (howned t ht).symm.imp_right fun hpc => ⟨c', ?_⟩
      rw [hcalls, Function.update_self, hpc]
    · refine .inr ⟨c', ?_⟩
      rw [hcalls, Function.update_of_ne hc, ht]
  intro c' t ht
  rw [hcalls] at ht
  by_cases hc : c' = c
  · rw [hc, Function.update_self] at ht
    obtain ⟨holder, hholder⟩ := hwait t ht
    exact hold t holder hholder
  · rw [Function.update_of_ne hc] at ht
    rcases h c' t ht with hset | ⟨holder, hholder⟩
    · exact .inl (hdone _ hset)
    · exact hold t holder hholder

theorem Attended.effect (htable : Table s) (h : Attended s) (he : Effect s c s') :
    Attended s' := by
  cases he with
  | move pc howned _ hwait =>
    exact h.keep (fun _ => id) rfl (fun t ht => .inl (howned.trans ht)) (by simp [hwait])
  | finish key o howned =>
    exact h.keep (fun _ => id) rfl (by simp [howned]) nofun
  | claim key pc howned _ _ hwait =>
    exact h.keep (fun _ => id) rfl (by simp [howned]) (by simp [hwait])
  | waits key slot howned hentry =>
    refine h.keep (fun _ => id) rfl (by simp [howned]) fun t ht => ?_
    obtain rfl := Option.some.inj ht
    obtain ⟨holder, hholder⟩ := (htable.entry key slot).mp hentry
    exact ⟨holder, Pc.owned_of_ticket hholder⟩
  | wakes t hpc => exact h.keep (fun _ => id) rfl (by simp [hpc, Pc.owned, Pc.ticket]) nofun
  | starts t pc hheld _ hticket hwait =>
    exact h.keep (fun _ => id) rfl
      (by simp [Pc.owned_of_ticket hheld, Pc.owned_of_ticket hticket]) (by simp [hwait])
  | ends t r pc hheld _ hticket hwait =>
    refine h.keep ?_ (?_ : _ = Function.update s.calls c pc)
      (by simp [Pc.owned_of_ticket hheld, Pc.owned_of_ticket hticket]) (by simp [hwait])
    · cases r <;> exact fun _ => id
    · cases r <;> rfl
  | remove t o hpc =>
    exact h.keep (fun _ => id) rfl (fun t' ht => .inl (by rwa [hpc] at ht)) nofun
  | flag t o hpc =>
    refine h.keep (fun slot hset => ?_) (rfl : _ = Function.update s.calls c (.finished t.key o))
      (fun t' ht => ?_) nofun
    · by_cases hslot : slot = t.slot
      · exact hslot ▸ Function.update_self _ _ _
      · exact (Function.update_of_ne hslot _ _).trans hset
    · rw [hpc] at ht
      obtain rfl := Option.some.inj ht
      exact .inr (Function.update_self _ _ _)

/-- A call that has begun, has not ended and does not wait can move. -/
theorem step_enabled (s : State C K V E) (c : C) (hidle : s.calls c ≠ .idle)
    (hend : ∀ key o, s.calls c ≠ .finished key o) (hwait : (s.calls c).waiting = none) :
    ∃ a, (∀ op, a ≠ .call op) ∧ (step s (c, a)).isSome = true := by
  cases hpc : s.calls c with
  | idle => exact absurd hpc hidle
  | finished key o => exact absurd hpc (hend key o)
  | wait t =>
    rw [hpc] at hwait
    cases hwait
  | compute t | heldCompute t => exact ⟨.finish .panicked, nofun, by simp [step, hpc]⟩
  | held t missed => exact ⟨.release, nofun, by cases missed <;> simp [step, hpc]⟩
  | _ => exact ⟨.next, nofun, by simp only [step, hpc]; first | rfl | (split <;> rfl)⟩

/-- One call has moved, and has begun. -/
def Moved (s : State C K V E) (c : C) (s' : State C K V E) : Prop :=
  ∃ pc, pc ≠ .idle ∧ s'.calls = Function.update s.calls c pc

theorem claim_moved {key : K} {won : Ticket K → Pc K V E} {lost : ℕ → State C K V E}
    (hwon : ∀ t, won t ≠ .idle) (hlost : ∀ slot, Moved s c (lost slot)) :
    Moved s c (claim s c key won lost) := by
  unfold claim
  split
  · exact hlost _
  · exact ⟨won _, hwon _, rfl⟩

theorem endCompute_moved {key : K} {r : Computed V E} (hpc : pc ≠ .idle) :
    Moved s c (endCompute s c key r pc) :=
  ⟨pc, hpc, by cases r <;> rfl⟩

omit [DecidableEq K] in
theorem afterCompute_ne_idle (t : Ticket K) (r : Computed V E) : afterCompute t r ≠ .idle := by
  cases r <;> exact nofun

/-- A step moves the call it is about, and no other. -/
theorem step_moved (h : step s (c, a) = some s') : Moved s c s' := by
  unfold step at h
  dsimp only at h
  repeat' split at h
  all_goals cases h
  all_goals first
    | exact ⟨_, by simp, rfl⟩
    | exact claim_moved (by simp) fun _ => ⟨_, by simp, rfl⟩
    | exact endCompute_moved (afterCompute_ne_idle _ _)
    | exact endCompute_moved (by simp)

/-! ## Threads -/

section

variable {T : Type}

/-- A thread with one of its calls goes on. -/
def Threads.Moves [DecidableEq T] (s : Threads T C K V E) (thread : T) : Prop :=
  ∃ c ∈ s.stack thread, ∃ a, (threadStep s (thread, c, a)).isSome = true

/-- No thread is parked in a call while a ticket is its own to drop. -/
def Threads.NoHolderParks (s : Threads T C K V E) : Prop :=
  ∀ thread, ∀ holder ∈ s.stack thread, (s.state.calls holder).owned.isSome = true →
    ∀ c ∈ s.stack thread, (s.state.calls c).waiting = none

structure Threads.Inv (s : Threads T C K V E) : Prop where
  table : Table s.state
  attended : Attended s.state
  /-- The calls that have begun are the ones on the stacks. -/
  begun : ∀ c, s.state.calls c ≠ .idle ↔ ∃ thread, c ∈ s.stack thread

omit [DecidableEq C] in
/-- A stack's call can go on, or one inside it that has not returned can. -/
theorem mem_goingOn (returned : C → Bool) {stack : List C} (hc : c ∈ stack) :
    c ∈ goingOn returned stack ∨ ∃ c' ∈ goingOn returned stack, returned c' = false := by
  induction stack with
  | nil => cases hc
  | cons inner outer ih =>
    unfold goingOn
    cases hr : returned inner with
    | false => exact .inr ⟨inner, List.mem_cons_self, hr⟩
    | true =>
      rcases List.mem_cons.mp hc with rfl | hc
      · exact .inl List.mem_cons_self
      · refine (ih hc).imp (List.mem_cons_of_mem _) ?_
        rintro ⟨c', hc', hreturned⟩
        exact ⟨c', List.mem_cons_of_mem _ hc', hreturned⟩

omit [DecidableEq C] in
theorem mem_of_goingOn {returned : C → Bool} {stack : List C} (hc : c ∈ goingOn returned stack) :
    c ∈ stack := by
  induction stack with
  | nil => cases hc
  | cons inner outer ih =>
    unfold goingOn at hc
    split at hc
    · rcases List.mem_cons.mp hc with rfl | hc
      · exact List.mem_cons_self
      · exact List.mem_cons_of_mem _ (ih hc)
    · rw [List.mem_singleton.mp hc]
      exact List.mem_cons_self

variable [DecidableEq T]

/-- What a step of a thread does: one of a call, which is on its stack after it. -/
theorem threadStep_cases {s s' : Threads T C K V E} {thread : T}
    (h : threadStep s (thread, c, a) = some s') :
    step s.state (c, a) = some s'.state ∧
      ∀ c', (∃ thread, c' ∈ s'.stack thread) ↔ c' = c ∨ ∃ thread, c' ∈ s.stack thread := by
  cases a with
  | call op =>
    simp only [threadStep, Option.ite_none_right_eq_some, Option.map_eq_some_iff] at h
    obtain ⟨-, state, hstep, rfl⟩ := h
    refine ⟨hstep, fun c' => ?_⟩
    simp only [Function.update_apply]
    constructor
    · rintro ⟨thread', hc'⟩
      split_ifs at hc' with heq
      · exact (List.mem_cons.mp hc').imp_right fun hc' => ⟨thread, hc'⟩
      · exact .inr ⟨thread', hc'⟩
    · rintro (rfl | ⟨thread', hc'⟩)
      · exact ⟨thread, by simp⟩
      · refine ⟨thread', ?_⟩
        split_ifs with heq
        · exact List.mem_cons_of_mem _ (heq ▸ hc')
        · exact hc'
  | _ =>
    simp only [threadStep, Option.ite_none_right_eq_some, Option.map_eq_some_iff] at h
    obtain ⟨hgo, state, hstep, rfl⟩ := h
    exact ⟨hstep, fun c' => (or_iff_right_of_imp fun hc' => hc' ▸ ⟨thread, mem_of_goingOn hgo⟩).symm⟩

theorem Threads.Inv.step {s s' : Threads T C K V E} {l : T × C × Action K V E} (h : s.Inv)
    (hs : threadStep s l = some s') : s'.Inv := by
  obtain ⟨thread, c, a⟩ := l
  obtain ⟨hstep, hstack⟩ := threadStep_cases hs
  have heffect := step_effect hstep
  refine ⟨h.table.effect heffect, h.attended.effect h.table heffect, fun c' => ?_⟩
  obtain ⟨pc, hpc, hcalls⟩ := step_moved hstep
  rw [hstack, hcalls]
  by_cases hc : c' = c
  · simp [hc, hpc]
  · simp [hc, h.begun]

omit [DecidableEq C] [DecidableEq K] [DecidableEq T] in
/-- A thread with an unfinished call has one that can go on and has not ended. -/
theorem Threads.Inv.goingOn {s : Threads T C K V E} (h : s.Inv) {thread : T}
    (hc : c ∈ s.stack thread) (hend : ∀ key o, s.state.calls c ≠ .finished key o) :
    ∃ c' ∈ goingOn (fun c => (s.state.calls c).returned) (s.stack thread),
      s.state.calls c' ≠ .idle ∧ ∀ key o, s.state.calls c' ≠ .finished key o := by
  rcases mem_goingOn (fun c => (s.state.calls c).returned) hc with hgo | ⟨c', hgo, hr⟩
  · exact ⟨c, hgo, (h.begun c).mpr ⟨thread, hc⟩, hend⟩
  · refine ⟨c', hgo, (h.begun c').mpr ⟨thread, mem_of_goingOn hgo⟩, fun key o hpc => ?_⟩
    simp [hpc, Pc.returned] at hr

theorem Threads.moves_of_step {s : Threads T C K V E} {thread : T}
    (hc : c ∈ Singleflight.goingOn (fun c => (s.state.calls c).returned) (s.stack thread))
    (ha : ∀ op, a ≠ .call op) (hstep : (step s.state (c, a)).isSome = true) : s.Moves thread := by
  refine ⟨c, mem_of_goingOn hc, a, ?_⟩
  cases a with
  | call op => exact absurd rfl (ha op)
  | _ => simpa only [threadStep, if_pos hc, Option.isSome_map] using hstep

/-- The thread moves, or is parked on a ticket whose owner's thread moves. -/
def Threads.Progresses (s : Threads T C K V E) (thread : T) : Prop :=
  s.Moves thread ∨ ∃ t owner, (∃ c ∈ s.stack thread, s.state.calls c = .wait t) ∧
    (∃ c ∈ s.stack owner, (s.state.calls c).owned = some t) ∧ s.Moves owner

/-- Threads that park only without tickets do not deadlock. -/
theorem singleflight_progress (cache : K → Option V) (s : Threads T C K V E)
    (h : Run threadStep (fun _ _ => True) (Threads.new cache) s) (hhold : s.NoHolderParks)
    (c : C) (hbegun : s.state.calls c ≠ .idle)
    (hend : ∀ key o, s.state.calls c ≠ .finished key o) :
    ∃ thread, c ∈ s.stack thread ∧ s.Progresses thread := by
  have hinv : s.Inv := by
    refine Run.invariant h (fun s l s' hs _ hstep => hs.step hstep) ⟨Table.new cache, nofun, ?_⟩
    exact fun c => by simp [Threads.new, State.new]
  obtain ⟨thread, hc⟩ := (hinv.begun c).mp hbegun
  refine ⟨thread, hc, ?_⟩
  obtain ⟨c, hgo, hidle, hend⟩ := hinv.goingOn hc hend
  cases hwait : (s.state.calls c).waiting with
  | none =>
    obtain ⟨a, ha, hstep⟩ := step_enabled s.state c hidle hend hwait
    exact .inl (Threads.moves_of_step hgo ha hstep)
  | some t =>
    have hpc : s.state.calls c = .wait t := by
      cases h : s.state.calls c <;> simp_all [Pc.waiting]
    rcases hinv.attended c t hwait with hset | ⟨holder, ht⟩
    · exact .inl (Threads.moves_of_step (a := .next) hgo nofun (by simp [step, hpc, hset]))
    · -- The owner's thread holds a ticket, so none of its calls is parked.
      have hidle' : s.state.calls holder ≠ .idle := fun h => by simp [h, Pc.owned, Pc.ticket] at ht
      obtain ⟨owner, howner⟩ := (hinv.begun holder).mp hidle'
      obtain ⟨c', hgo', hidle', hend'⟩ := hinv.goingOn howner
        (fun key o h => by simp [h, Pc.owned, Pc.ticket] at ht)
      obtain ⟨a, ha, hstep⟩ := step_enabled s.state c' hidle' hend'
        (hhold owner holder howner (by rw [ht]; rfl) c' (mem_of_goingOn hgo'))
      exact .inr ⟨t, owner, ⟨c, mem_of_goingOn hgo, hpc⟩, ⟨holder, howner, ht⟩,
        Threads.moves_of_step hgo' ha hstep⟩

/-- Thread 1 parks on the key that thread 0 computes. -/
def parkedRun : List (ℕ × ℕ × Action ℕ ℕ ℕ) :=
  [(0, 0, .call (.run 7)), (1, 1, .call (.run 7)), (0, 0, .next), (1, 1, .next), (0, 0, .next),
    (1, 1, .next)]

theorem singleflight_progress_parked : ∃ s : Threads ℕ ℕ ℕ ℕ ℕ,
    exec threadStep (Threads.new fun _ => none) parkedRun = some s ∧
      s.state.calls 1 = .wait ⟨7, 0⟩ ∧ ∃ thread, 1 ∈ s.stack thread ∧ s.Progresses thread := by
  obtain ⟨s, hs, hpc, h0, h0', h1, hrest⟩ : ∃ s : Threads ℕ ℕ ℕ ℕ ℕ,
      exec threadStep (Threads.new fun _ => none) parkedRun = some s ∧
        s.state.calls 1 = .wait ⟨7, 0⟩ ∧ s.stack 0 = [0] ∧ s.state.calls 0 = .recheck ⟨7, 0⟩ ∧
        s.stack 1 = [1] ∧ ∀ n, s.stack (n + 2) = [] := ⟨_, rfl, rfl, rfl, rfl, rfl, fun _ => rfl⟩
  refine ⟨s, hs, hpc, singleflight_progress (fun _ => none) s
    (run_of_exec (fun _ _ _ => trivial) hs) ?_ 1 (by simp [hpc]) (by simp [hpc])⟩
  rintro (_ | _ | n)
  · simp [h0, h0', Pc.waiting]
  · simp [h1, hpc, Pc.owned, Pc.ticket]
  · simp [hrest]

/-- Two threads that claim a key each and then run the other's: both are parked for good. -/
example : ∃ s : Threads ℕ ℕ ℕ ℕ ℕ, exec threadStep (Threads.new fun _ => none)
      [(0, 0, .call (.tryClaim 7)), (0, 0, .next), (1, 1, .call (.tryClaim 8)), (1, 1, .next),
        (0, 2, .call (.run 8)), (0, 2, .next), (0, 2, .next),
        (1, 3, .call (.run 7)), (1, 3, .next), (1, 3, .next)] = some s ∧
    threadStep s (0, 2, .next) = none ∧ threadStep s (0, 0, .release) = none ∧
    threadStep s (1, 3, .next) = none ∧ threadStep s (1, 1, .release) = none :=
  ⟨_, rfl, rfl, rfl, rfl, rfl⟩

end

end Svod.Tensor.Singleflight
