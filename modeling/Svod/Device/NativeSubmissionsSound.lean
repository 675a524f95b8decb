/-
  Svod.Device.NativeSubmissionsSound

  The native submissions of a plan carry its synchronisation.

  The lowering appends commands and binds each as it goes, so a submission is
  `boundSubmission` of a list of commands with slots, and the passes over the
  plan (producers, latest entries, published entries) are read off as facts
  about positions.  Replay puts the points in place of the slots, and from there
  on the timelines of the queues do the rest: a wait that has passed is behind
  the store of its producer.
-/

import Svod.Device.HcqSound
import Svod.Device.NativeSubmissions
import Svod.Lib.Fallible

namespace Svod.Device.Native

open Hcq Svod.Lib

variable {lanes : List LaneSubmission} {queue : QueueKind} {cs : List BoundCommand}
  {c : BoundCommand} {slot : ℕ}

/-! ## Building a submission -/

def patchesOf (cs : List BoundCommand) : List CommandPatch :=
  cs.zipIdx.flatMap fun e => e.1.patches e.2

theorem patchesOf_concat (cs : List BoundCommand) (c : BoundCommand) :
    patchesOf (cs ++ [c]) = patchesOf cs ++ c.patches cs.length := by
  simp [patchesOf, List.zipIdx_append]

theorem command_of_mem_patches {k : ℕ} {p : CommandPatch} (hp : p ∈ c.patches k) :
    p.command = k := by
  cases c with
  | wait slot =>
    simp only [BoundCommand.patches, List.mem_cons, List.not_mem_nil, or_false] at hp
    rcases hp with rfl | rfl <;> rfl
  | memoryBarrier => cases hp
  | execute operation => cases hp
  | store slot scope =>
    simp only [BoundCommand.patches, List.mem_cons, List.not_mem_nil, or_false] at hp
    rcases hp with rfl | rfl <;> rfl

theorem command_lt_of_mem {p : CommandPatch} (hp : p ∈ patchesOf cs) : p.command < cs.length := by
  obtain ⟨e, he, hp⟩ := List.mem_flatMap.mp hp
  rw [command_of_mem_patches hp]
  simpa using List.snd_lt_of_mem_zipIdx he

theorem patches_sorted (c : BoundCommand) (k : ℕ) : (c.patches k).Pairwise patchLe := by
  cases c <;> simp [BoundCommand.patches, patchLe, CommandField.rank]

theorem patchesOf_sorted (cs : List BoundCommand) : (patchesOf cs).Pairwise patchLe := by
  induction cs using List.reverseRecOn with
  | nil => simp [patchesOf]
  | append_singleton cs c ih =>
    rw [patchesOf_concat, List.pairwise_append]
    refine ⟨ih, patches_sorted c _, fun p hp q hq => Or.inl ?_⟩
    rw [command_of_mem_patches hq]
    exact command_lt_of_mem hp

/-- Binding a field behind all patches appends its patch. -/
theorem bind_ok {s : Submission} {command : ℕ} {field : CommandField} {source : SystemField}
    (hlt : command < s.commands.length)
    (hfree : ∀ p ∈ s.patches, ¬ (p.command = command ∧ p.field = field))
    (hsorted : List.Pairwise patchLe (s.patches ++ [⟨command, field, source⟩])) :
    s.bind command field source =
      .ok { s with patches := s.patches ++ [⟨command, field, source⟩] } := by
  have hany : (s.patches.any fun p => decide (p.command = command) && decide (p.field = field)) =
      false := by
    rw [List.any_eq_false]
    intro p hp
    simpa using hfree p hp
  rw [Submission.bind, if_neg (Nat.not_le.mpr hlt), hany, if_neg Bool.false_ne_true,
    hsorted.insertionSort_eq]

theorem bindPoint_bound (store : Bool)
    (hpatches : c.patches cs.length =
      [⟨cs.length, if store then .storeDst else .waitAddress, .timelineSignal slot⟩,
        ⟨cs.length, if store then .storeValue else .waitValue, .timelineValue slot⟩]) :
    ((boundSubmission queue cs).push c.command).bindPoint cs.length slot store =
      .ok (boundSubmission queue (cs ++ [c])) := by
  have hall := patchesOf_sorted (cs ++ [c])
  rw [patchesOf_concat, hpatches] at hall
  have hlt : cs.length < ((boundSubmission queue cs).push c.command).commands.length := by
    simp [Submission.push, boundSubmission]
  have hfree : ∀ p ∈ patchesOf cs, ∀ field, ¬ (p.command = cs.length ∧ p.field = field) :=
    fun p hp field h => absurd (command_lt_of_mem hp) (by rw [h.1]; exact Nat.lt_irrefl _)
  have hprefix := hall.sublist (List.Sublist.append_left
    (List.sublist_append_left [(⟨cs.length, if store then .storeDst else .waitAddress,
      .timelineSignal slot⟩ : CommandPatch)] _) (patchesOf cs))
  have hfirst := bind_ok hlt (fun p hp => hfree p hp _) hprefix
  rw [Submission.bindPoint, hfirst]
  change Submission.bind _ cs.length _ _ = _
  rw [bind_ok]
  · have hconcat := patchesOf_concat cs c
    rw [hpatches] at hconcat
    simp only [boundSubmission, Submission.push, Except.ok.injEq, Submission.mk.injEq, true_and]
    refine ⟨by simp, ?_⟩
    rw [List.append_assoc]
    exact hconcat.symm
  · exact hlt
  · intro p hp
    rcases List.mem_append.mp hp with hp | hp
    · exact hfree p hp _
    · rw [List.mem_singleton] at hp
      subst hp
      cases store <;> simp
  · rw [List.append_assoc]
    exact hall

theorem pushWait_bound (slot : ℕ) : (boundSubmission queue cs).pushWait slot =
    .ok (boundSubmission queue (cs ++ [.wait slot])) := by
  have hlen : (boundSubmission queue cs).commands.length = cs.length := by simp [boundSubmission]
  rw [Submission.pushWait, hlen]
  exact bindPoint_bound (c := .wait slot) false rfl

theorem pushStore_bound (slot : ℕ) (scope : StoreScope) :
    (boundSubmission queue cs).pushStore slot scope =
      .ok (boundSubmission queue (cs ++ [.store slot scope])) := by
  have hlen : (boundSubmission queue cs).commands.length = cs.length := by simp [boundSubmission]
  rw [Submission.pushStore, hlen]
  exact bindPoint_bound (c := .store slot scope) true rfl

theorem push_bound (hpatches : c.patches cs.length = []) :
    (boundSubmission queue cs).push c.command = boundSubmission queue (cs ++ [c]) := by
  have hconcat := patchesOf_concat cs c
  rw [hpatches, List.append_nil] at hconcat
  simp only [Submission.push, boundSubmission, Submission.mk.injEq, true_and]
  exact ⟨by simp, hconcat.symm⟩

/-! ## Positions -/

section LastIndex

variable {p : LaneSubmission → Bool} {i : ℕ}

theorem lastIndex_concat (p : LaneSubmission → Bool) (lanes : List LaneSubmission)
    (x : LaneSubmission) :
    lastIndex p (lanes ++ [x]) = if p x then some lanes.length else lastIndex p lanes := by
  simp only [lastIndex, List.zipIdx_append, List.zipIdx_cons, List.zipIdx_nil, List.reverse_append,
    List.reverse_cons, List.reverse_nil, List.nil_append, List.singleton_append, List.find?_cons,
    Nat.zero_add]
  cases p x <;> rfl

theorem lastIndex_eq_some : lastIndex p lanes = some i ↔
    (∃ e, lanes[i]? = some e ∧ p e = true) ∧
      ∀ q e, i < q → lanes[q]? = some e → p e = false := by
  induction lanes using List.reverseRecOn with
  | nil => simp [lastIndex]
  | append_singleton lanes x ih =>
    rw [lastIndex_concat]
    by_cases hx : p x = true
    · rw [if_pos hx, Option.some_inj]
      constructor
      · rintro rfl
        refine ⟨⟨x, List.getElem?_concat_length, hx⟩, fun q e hq he => ?_⟩
        have := (List.getElem?_eq_some_iff.mp he).1
        rw [List.length_append, List.length_singleton] at this
        omega
      · rintro ⟨⟨e, he, -⟩, hlast⟩
        by_contra hne
        have hlt := (List.getElem?_eq_some_iff.mp he).1
        rw [List.length_append, List.length_singleton] at hlt
        have := hlast lanes.length x (by omega) List.getElem?_concat_length
        rw [hx] at this
        cases this
    · rw [if_neg hx, ih]
      -- the new entry does not satisfy `p`, so it is neither the last one nor after it
      have hold : ∀ {q : ℕ} {e : LaneSubmission}, (lanes ++ [x])[q]? = some e → p e = true →
          lanes[q]? = some e := fun {q e} he hp => by
        rcases Nat.lt_or_ge q lanes.length with hq | hq
        · rwa [List.getElem?_append_left hq] at he
        · rw [List.getElem?_append_right hq, List.getElem?_singleton] at he
          split at he
          · cases he
            exact absurd hp hx
          · cases he
      have hnew : ∀ {q : ℕ} {e : LaneSubmission}, lanes[q]? = some e →
          (lanes ++ [x])[q]? = some e := fun {q e} he => by
        rwa [List.getElem?_append_left (List.getElem?_eq_some_iff.mp he).1]
      constructor
      · rintro ⟨⟨e, he, hp⟩, hlast⟩
        refine ⟨⟨e, hnew he, hp⟩, fun q f hq hf => ?_⟩
        by_contra hne
        rw [Bool.not_eq_false] at hne
        exact absurd (hlast q f hq (hold hf hne)) (by rw [hne]; decide)
      · rintro ⟨⟨e, he, hp⟩, hlast⟩
        exact ⟨⟨e, hold he hp, hp⟩, fun q f hq hf => hlast q f hq (hnew hf)⟩

theorem exists_lastIndex {e : LaneSubmission} (he : e ∈ lanes) (hp : p e = true) :
    ∃ i, lastIndex p lanes = some i := by
  induction lanes using List.reverseRecOn with
  | nil => cases he
  | append_singleton lanes x ih =>
    rw [lastIndex_concat]
    by_cases hx : p x = true
    · exact ⟨lanes.length, if_pos hx⟩
    · rw [if_neg hx]
      rcases List.mem_append.mp he with he | he
      · exact ih he
      · rw [List.mem_singleton] at he
        subst he
        exact absurd hp hx

end LastIndex

theorem producer_iff {w : LaneWait} {p : ℕ} :
    lastIndex (publishes w) lanes = some p ↔ Produces lanes p w := by
  simp [lastIndex_eq_some, Produces, publishes]

theorem latest_iff {lane : DeviceQueue} {p : ℕ} :
    (lane, p) ∈ latest lanes ↔ IsLatest lanes p lane := by
  have hiff : lastIndex (fun submission => decide (submission.lane = lane)) lanes = some p ↔
      IsLatest lanes p lane := by
    simp [lastIndex_eq_some, IsLatest]
  rw [← hiff, latest, List.mem_filterMap]
  constructor
  · rintro ⟨lane', -, h⟩
    obtain ⟨q, hq, heq⟩ := Option.map_eq_some_iff.mp h
    cases heq
    exact hq
  · intro h
    obtain ⟨⟨e, he, hlane⟩, -⟩ := hiff.mp h
    refine ⟨lane, ?_, by rw [h]; rfl⟩
    rw [List.mem_dedup]
    exact List.mem_map.mpr ⟨e, List.mem_of_getElem? he, hlane⟩

theorem slotOf_of_lt {index : ℕ} (h : index + 1 < 2 ^ 32) : slotOf index = index + 1 := by
  rw [slotOf, Nat.mod_eq_of_lt (by omega : index < 2 ^ 32), Nat.mod_eq_of_lt h]

/-! ## The entries -/

/-- The entry that a wait is bound to. -/
def producer (lanes : List LaneSubmission) (w : LaneWait) : ℕ :=
  (lastIndex (publishes w) lanes).getD 0

/-- Every wait of the plan is published by some entry. -/
def Closed (lanes : List LaneSubmission) : Prop :=
  ∀ entry ∈ lanes, ∀ w ∈ entry.waits, ∃ e ∈ lanes, publishes w e = true

theorem Closed.producer (h : Closed lanes) {entry : LaneSubmission} (hentry : entry ∈ lanes)
    {w : LaneWait} (hw : w ∈ entry.waits) :
    producerOf lanes w = .ok (producer lanes w) ∧ Produces lanes (producer lanes w) w := by
  obtain ⟨e, he, hp⟩ := h entry hentry w hw
  obtain ⟨i, hi⟩ := exists_lastIndex he hp
  have hget : Native.producer lanes w = i := by rw [Native.producer, hi, Option.getD_some]
  rw [producerOf, hi, hget]
  exact ⟨rfl, producer_iff.mp hi⟩

theorem openSubmission_bound (queue : QueueKind) (first : Bool) :
    openSubmission queue first =
      .ok (boundSubmission queue (if first then [.memoryBarrier, .wait 0] else [])) := by
  cases first with
  | false => rfl
  | true =>
    have hpush : (boundSubmission queue []).push BoundCommand.memoryBarrier.command =
        boundSubmission queue ([] ++ [.memoryBarrier]) := push_bound rfl
    exact (congrArg (Submission.pushWait · 0) hpush).trans (pushWait_bound 0)

theorem producerWaits_bound {waits : List LaneWait}
    (h : ∀ w ∈ waits, producerOf lanes w = .ok (producer lanes w)) (cs : List BoundCommand) :
    waits.foldlM (pushProducerWait lanes) (boundSubmission queue cs) =
      .ok (boundSubmission queue
        (cs ++ waits.map fun w => .wait (slotOf (producer lanes w)))) := by
  induction waits generalizing cs with
  | nil => rw [List.map_nil, List.append_nil]; rfl
  | cons w waits ih =>
    have hstep : pushProducerWait lanes (boundSubmission queue cs) w =
        .ok (boundSubmission queue (cs ++ [.wait (slotOf (producer lanes w))])) := by
      rw [pushProducerWait, h w (by simp)]
      exact pushWait_bound _
    rw [List.foldlM_cons, hstep]
    refine (ih (fun w' hw' => h w' (List.mem_cons_of_mem _ hw')) _).trans ?_
    rw [List.map_cons, List.append_assoc]
    rfl

/-- The submission of an entry. -/
def nativeEntry (lanes : List LaneSubmission) (published : List ℕ) (first : Bool) (index : ℕ)
    (entry : LaneSubmission) : SemanticLinkedSubmission :=
  ⟨entry.lane, boundSubmission entry.lane.queue (entryCommands first
    (entry.waits.map fun w => slotOf (producer lanes w))
    ((entry.commands.map (·.operation)).headD 0) (slotOf index)
    (if published.contains index then .system else .queue))⟩

theorem entrySubmission_ok {published : List ℕ} {first : Bool} {index : ℕ} {entry : LaneSubmission}
    (h : ∀ w ∈ entry.waits, producerOf lanes w = .ok (producer lanes w)) :
    entrySubmission lanes published first index entry =
      .ok (nativeEntry lanes published first index entry) := by
  have hbarrier : ∀ cs, (if entry.waits.isEmpty then boundSubmission entry.lane.queue cs
      else (boundSubmission entry.lane.queue cs).push .memoryBarrier) =
      boundSubmission entry.lane.queue
        (cs ++ if entry.waits.isEmpty then [] else [.memoryBarrier]) := by
    intro cs
    cases entry.waits.isEmpty with
    | true => simp
    | false => exact push_bound (c := .memoryBarrier) rfl
  have hexecute : ∀ cs operation, (boundSubmission entry.lane.queue cs).push (.execute operation) =
      boundSubmission entry.lane.queue (cs ++ [.execute operation]) :=
    fun cs operation => push_bound (c := .execute operation) rfl
  rw [entrySubmission, openSubmission_bound]
  simp only [bind, Except.bind, producerWaits_bound h, hbarrier, hexecute, pushStore_bound]
  rw [newForLane, if_neg (by simp [boundSubmission]), nativeEntry, entryCommands]
  simp [List.map_map, Function.comp_def]

/-- The loop over the entries has built these submissions. -/
structure Built (lanes : List LaneSubmission) (published : List ℕ) (done : List LaneSubmission)
    (used : List DeviceQueue) (out : List SemanticLinkedSubmission) : Prop where
  run : done.zipIdx.foldlM (entryStep lanes published) ([], []) = .ok (used, out)
  used : ∀ lane, lane ∈ used ↔ lane ∈ done.map LaneSubmission.lane
  length : out.length = done.length
  entry : ∀ (i : ℕ) (e : LaneSubmission), done[i]? = some e → out[i]? = some (nativeEntry lanes
    published (decide (e.lane ∉ (done.take i).map LaneSubmission.lane)) i e)

theorem entries_built (published : List ℕ)
    (h : ∀ entry ∈ lanes, ∀ w ∈ entry.waits, producerOf lanes w = .ok (producer lanes w))
    (done : List LaneSubmission) (hdone : ∀ e ∈ done, e ∈ lanes) :
    ∃ used out, Built lanes published done used out := by
  induction done using List.reverseRecOn with
  | nil => exact ⟨[], [], { run := rfl, used := by simp, length := rfl, entry := by simp }⟩
  | append_singleton done x ih =>
    obtain ⟨used, out, hb⟩ := ih fun e he => hdone e (List.mem_append_left _ he)
    have hx : x ∈ lanes := hdone x (by simp)
    have hfirst : (!used.contains x.lane) = decide (x.lane ∉ done.map LaneSubmission.lane) := by
      rw [Bool.eq_iff_iff]
      simp [← hb.used x.lane]
    refine ⟨if (!used.contains x.lane) = true then x.lane :: used else used,
      out ++ [nativeEntry lanes published (!used.contains x.lane) done.length x],
      { run := ?_, used := fun lane => ?_, length := by simp [hb.length]
        entry := fun i e he => ?_ }⟩
    · rw [List.zipIdx_append, List.foldlM_append, hb.run, List.zipIdx_singleton, Nat.zero_add]
      simp only [bind, Except.bind, List.foldlM_cons, List.foldlM_nil, entryStep,
        entrySubmission_ok (h x hx)]
      rfl
    · have hmem := hb.used lane
      rw [List.map_append, List.mem_append, ← hmem]
      by_cases hused : x.lane ∈ used
      · simp only [List.contains_iff_mem.mpr hused, Bool.not_true, Bool.false_eq_true, if_false,
          List.map_cons, List.map_nil, List.mem_singleton]
        exact ⟨Or.inl, fun hor => hor.elim id fun heq => heq ▸ hused⟩
      · have hcontains : used.contains x.lane = false := by simpa using hused
        simp only [hcontains, Bool.not_false, if_true, List.mem_cons, List.map_cons, List.map_nil,
          List.not_mem_nil, or_false]
        exact or_comm
    · rcases Nat.lt_or_ge i done.length with hlt | hge
      · rw [List.getElem?_append_left hlt] at he
        rw [List.getElem?_append_left (by rw [hb.length]; exact hlt), hb.entry i e he,
          List.take_append_of_le_length hlt.le]
      · have hi : i = done.length := by
          have := (List.getElem?_eq_some_iff.mp he).1
          rw [List.length_append, List.length_singleton] at this
          omega
        subst hi
        rw [List.getElem?_concat_length] at he
        cases he
        rw [List.getElem?_append_right (by rw [hb.length]), hb.length, Nat.sub_self,
          List.getElem?_cons_zero, List.take_left, hfirst]

/-! ## The finalizer -/

/-- The slots that the finalizer waits for. -/
def finalSlots (lanes : List LaneSubmission) (finalLane : DeviceQueue) : List ℕ :=
  (((latest lanes).insertionSort latestLe).filter fun e => decide (e.1 ≠ finalLane)).map
    fun e => slotOf e.2

theorem latestWaits_bound (finalLane : DeviceQueue) (es : List (DeviceQueue × ℕ))
    (cs : List BoundCommand) :
    es.foldlM (pushLatestWait finalLane) (boundSubmission queue cs) =
      .ok (boundSubmission queue
        (cs ++ (es.filter fun e => decide (e.1 ≠ finalLane)).map fun e => .wait (slotOf e.2))) := by
  induction es generalizing cs with
  | nil => rw [List.filter_nil, List.map_nil, List.append_nil]; rfl
  | cons e es ih =>
    rw [List.foldlM_cons, pushLatestWait]
    by_cases he : e.1 ≠ finalLane
    · rw [if_pos he, pushWait_bound, List.filter_cons_of_pos (by simpa using he), List.map_cons]
      refine (ih _).trans ?_
      rw [List.append_assoc]
      rfl
    · rw [if_neg he, List.filter_cons_of_neg (by simpa using he)]
      exact ih cs

theorem finalizerSubmission_ok (used : List DeviceQueue) (finalLane : DeviceQueue) :
    finalizerSubmission lanes used finalLane =
      .ok ⟨finalLane, boundSubmission finalLane.queue (finalizerCommands (!used.contains finalLane)
        (finalSlots lanes finalLane) (slotOf lanes.length))⟩ := by
  rw [finalizerSubmission, openSubmission_bound]
  simp only [bind, Except.bind, latestWaits_bound, pushStore_bound]
  rw [newForLane, if_neg (by simp [boundSubmission]), finalizerCommands, finalSlots]
  simp [List.map_map, Function.comp_def]

/-! ## Published entries -/

theorem publishedEntries_ok
    (h : ∀ entry ∈ lanes, ∀ w ∈ entry.waits, producerOf lanes w = .ok (producer lanes w))
    (finalLane : DeviceQueue) : ∃ published, publishedEntries lanes finalLane = .ok published ∧
      ∀ i, i ∈ published ↔ (∃ entry ∈ lanes, ∃ w ∈ entry.waits, producer lanes w = i) ∨
        ∃ lane, lane ≠ finalLane ∧ IsLatest lanes i lane := by
  have hall : ∀ w ∈ lanes.flatMap LaneSubmission.waits,
      producerOf lanes w = .ok (producer lanes w) := fun w hw => by
    obtain ⟨entry, hentry, hw⟩ := List.mem_flatMap.mp hw
    exact h entry hentry w hw
  refine ⟨_, by rw [publishedEntries, mapM_ok hall]; rfl, fun i => ?_⟩
  rw [List.mem_append, List.mem_map]
  refine or_congr ?_ ?_
  · constructor
    · rintro ⟨w, hw, rfl⟩
      obtain ⟨entry, hentry, hw⟩ := List.mem_flatMap.mp hw
      exact ⟨entry, hentry, w, hw, rfl⟩
    · rintro ⟨entry, hentry, w, hw, rfl⟩
      exact ⟨w, List.mem_flatMap.mpr ⟨entry, hentry, hw⟩, rfl⟩
  · simp only [List.mem_map, List.mem_filter, decide_eq_true_eq]
    constructor
    · rintro ⟨⟨lane, p⟩, ⟨hmem, hne⟩, rfl⟩
      exact ⟨lane, hne, latest_iff.mp hmem⟩
    · rintro ⟨lane, hne, hlatest⟩
      exact ⟨(lane, i), ⟨latest_iff.mpr hlatest, hne⟩, rfl⟩

/-! ## Observed signals -/

theorem mem_patchesOf {p : CommandPatch} :
    p ∈ patchesOf cs ↔ ∃ (k : ℕ) (c : BoundCommand), cs[k]? = some c ∧ p ∈ c.patches k := by
  simp only [patchesOf, List.mem_flatMap, Prod.exists]
  constructor
  · rintro ⟨c, k, he, hp⟩
    exact ⟨k, c, List.mem_zipIdx_iff_getElem?.mp he, hp⟩
  · rintro ⟨k, c, hc, hp⟩
    exact ⟨c, k, List.mem_zipIdx_iff_getElem?.mpr hc, hp⟩

/-- A submission waits for a slot where a wait command of it is bound to the slot. -/
theorem waits_iff : (∃ k, ⟨k, .waitAddress, .timelineSignal slot⟩ ∈
    (boundSubmission queue cs).patches) ↔ .wait slot ∈ cs := by
  change (∃ k, _ ∈ patchesOf cs) ↔ _
  simp only [mem_patchesOf]
  constructor
  · rintro ⟨k, j, c, hc, hp⟩
    have hwait : c = .wait slot := by
      cases c <;> simp [BoundCommand.patches] at hp
      rw [hp.2]
    exact hwait ▸ List.mem_of_getElem? hc
  · intro h
    obtain ⟨k, hk⟩ := List.mem_iff_getElem?.mp h
    exact ⟨k, k, .wait slot, hk, by simp [BoundCommand.patches]⟩

/-! ## Replay -/

section Replay

open SignalQueues

variable {points : ℕ → TimelinePoint} {mem : ℕ → ℕ}

def BoundCommand.resolved (points : ℕ → TimelinePoint) : BoundCommand → Command
  | .wait slot => .wait (points slot).signalAddress (points slot).value
  | .memoryBarrier => .memoryBarrier
  | .execute operation => .execute operation
  | .store slot scope => .store (points slot).signalAddress (points slot).value scope

theorem patchCommand_ok (points : ℕ → TimelinePoint) (c : BoundCommand) (done : List Command)
    (rest : List Command) :
    (c.patches done.length).foldlM (patchStep (systemValues points)) (done ++ c.command :: rest) =
      .ok (done ++ c.resolved points :: rest) := by
  have hget : ∀ command, (done ++ command :: rest)[done.length]? = some command := by simp
  have hset : ∀ command command', (done ++ command :: rest).set done.length command' =
      done ++ command' :: rest := by simp
  cases c with
  | wait slot =>
    simp only [BoundCommand.patches, BoundCommand.command, List.foldlM_cons, List.foldlM_nil,
      patchStep, systemValues, hget, hset, patchCommandField, bind, Except.bind]
    rfl
  | memoryBarrier => rfl
  | execute operation => rfl
  | store slot scope =>
    simp only [BoundCommand.patches, BoundCommand.command, List.foldlM_cons, List.foldlM_nil,
      patchStep, systemValues, hget, hset, patchCommandField, bind, Except.bind]
    rfl

theorem patchCommands_ok (points : ℕ → TimelinePoint) (cs : List BoundCommand)
    (rest : List Command) :
    (patchesOf cs).foldlM (patchStep (systemValues points))
        (cs.map BoundCommand.command ++ rest) =
      .ok (cs.map (BoundCommand.resolved points) ++ rest) := by
  induction cs using List.reverseRecOn generalizing rest with
  | nil => rfl
  | append_singleton cs c ih =>
    rw [patchesOf_concat, List.foldlM_append, List.map_append, List.append_assoc,
      List.map_singleton, List.singleton_append, ih]
    have hlast := patchCommand_ok points c (cs.map (BoundCommand.resolved points)) rest
    rw [List.length_map] at hlast
    refine hlast.trans ?_
    rw [List.map_append, List.append_assoc]
    rfl

def BoundCommand.instr (points : ℕ → TimelinePoint) (c : BoundCommand) : Instr ℕ :=
  (c.resolved points).instr

theorem replay_ok (points : ℕ → TimelinePoint) (lane : DeviceQueue) (queue : QueueKind)
    (cs : List BoundCommand) :
    (SemanticLinkedSubmission.mk lane (boundSubmission queue cs)).replay points =
      .ok ⟨lane, cs.map (BoundCommand.instr points)⟩ := by
  have hpatch := patchCommands_ok points cs []
  rw [List.append_nil, List.append_nil] at hpatch
  have hp : (SemanticLinkedSubmission.mk lane (boundSubmission queue cs)).patch
      (systemValues points) = .ok (cs.map (BoundCommand.resolved points)) := hpatch
  rw [SemanticLinkedSubmission.replay, hp]
  simp only [bind, Except.bind, List.map_map]
  rfl

/-- The commands end with the store of slot `i + 1`, which is the only one. -/
def Signals (i : ℕ) (cs : List BoundCommand) : Prop :=
  ∃ init scope, cs = init ++ [.store (i + 1) scope] ∧ ∀ c ∈ init, ∀ s sc, c ≠ .store s sc

/-- The submissions, each on its queue, and what the last one waits for. -/
structure Synchronised (queues : List DeviceQueue) (subs : List SemanticLinkedSubmission) :
    Prop where
  length : queues.length = subs.length
  signals : ∀ i < subs.length, ∃ lane queue cs, queues[i]? = some lane ∧
    subs[i]? = some ⟨lane, boundSubmission queue cs⟩ ∧ Signals i cs
  covered : ∀ i lane, i + 1 < subs.length → queues[i]? = some lane →
    queues[subs.length - 1]? = some lane ∨
      ∃ p cs queue final, i ≤ p ∧ p < subs.length ∧ queues[p]? = some lane ∧
        subs[subs.length - 1]? = some ⟨final, boundSubmission queue cs⟩ ∧ .wait (p + 1) ∈ cs

variable {queues : List DeviceQueue} {subs : List SemanticLinkedSubmission}

/-- The batches that the submissions replay as. -/
def batchOf (points : ℕ → TimelinePoint) (s : SemanticLinkedSubmission) : Batch DeviceQueue ℕ :=
  match s.replay points with
  | .ok batch => batch
  | .error _ => ⟨s.lane, []⟩

theorem batchOf_bound (points : ℕ → TimelinePoint) (lane : DeviceQueue) (queue : QueueKind)
    (cs : List BoundCommand) : batchOf points ⟨lane, boundSubmission queue cs⟩ =
      ⟨lane, cs.map (BoundCommand.instr points)⟩ := by
  rw [batchOf, replay_ok]

theorem Synchronised.batch (h : Synchronised queues subs) (points : ℕ → TimelinePoint) {i : ℕ}
    (hi : i < subs.length) : ∃ lane cs, queues[i]? = some lane ∧
      (subs.map (batchOf points))[i]? = some ⟨lane, cs.map (BoundCommand.instr points)⟩ ∧
      Signals i cs := by
  obtain ⟨lane, queue, cs, hq, hs, hsig⟩ := h.signals i hi
  exact ⟨lane, cs, hq, by rw [List.getElem?_map, hs, Option.map_some, batchOf_bound], hsig⟩

/-- The only store of a batch is its last instruction, to the point of its slot. -/
theorem Synchronised.store (h : Synchronised queues subs) {b k : ℕ} {addr v : ℕ}
    (hat : At (subs.map (batchOf points)) b k (.store addr v)) :
    b < subs.length ∧ addr = (points (b + 1)).signalAddress ∧ v = (points (b + 1)).value ∧
      ∀ batch, (subs.map (batchOf points))[b]? = some batch → k + 1 = batch.instrs.length := by
  obtain ⟨batch, hb, hk⟩ := hat
  have hlt : b < subs.length := by
    have := (List.getElem?_eq_some_iff.mp hb).1
    rwa [List.length_map] at this
  obtain ⟨lane, cs, -, hbatch, init, scope, rfl, hinit⟩ := h.batch points hlt
  rw [hb] at hbatch
  cases hbatch
  rw [List.getElem?_map] at hk
  obtain ⟨c, hc, hinstr⟩ := Option.map_eq_some_iff.mp hk
  have hck := (List.getElem?_eq_some_iff.mp hc).1
  rw [List.length_append, List.length_singleton] at hck
  rcases Nat.lt_or_ge k init.length with hlt' | hge
  · -- an instruction before the last is no store
    rw [List.getElem?_append_left hlt'] at hc
    have hne := hinit c (List.mem_of_getElem? hc)
    cases c with
    | wait slot => cases hinstr
    | memoryBarrier => cases hinstr
    | execute operation => cases hinstr
    | store slot sc => exact absurd rfl (hne slot sc)
  · have hlast : k = init.length := by omega
    subst hlast
    rw [List.getElem?_concat_length] at hc
    cases hc
    cases hinstr
    refine ⟨hlt, rfl, rfl, fun batch' hb' => ?_⟩
    rw [hb] at hb'
    cases hb'
    simp

theorem Synchronised.timelines (h : Synchronised queues subs)
    (hp : PerLaneTimelines queues points mem) : Timelines (subs.map (batchOf points)) mem where
  ordered := by
    intro b k b' k' addr v v' hat hat' hpos
    obtain ⟨hb, rfl, rfl, hlast⟩ := h.store hat
    obtain ⟨hb', haddr, rfl, hlast'⟩ := h.store hat'
    obtain ⟨lane, cs, hq, hbatch, -⟩ := h.batch points hb
    obtain ⟨lane', cs', hq', hbatch', -⟩ := h.batch points hb'
    have hlt : b < b' := by
      rcases hpos with hlt | ⟨rfl, hlt⟩
      · exact hlt
      · have h₁ := hlast _ hbatch
        have h₂ := hlast' _ hbatch
        omega
    obtain ⟨rfl, hval⟩ := hp.ordered hlt hq hq' haddr
    refine ⟨hval, fun batch batch' h₁ h₂ => ?_⟩
    rw [hbatch] at h₁
    rw [hbatch'] at h₂
    cases h₁
    cases h₂
    rfl
  fresh := by
    intro b k addr v hat
    obtain ⟨hb, rfl, rfl, -⟩ := h.store hat
    exact hp.fresh b (by rw [h.length]; exact hb)

theorem Synchronised.completes (h : Synchronised queues subs) (hpos : 0 < subs.length) :
    FinalizerCompletes queues subs := by
  intro points mem hp
  refine ⟨subs.map (batchOf points), mapM_ok fun s hs => ?_, fun σ hσ hdone i hi => ?_⟩
  · obtain ⟨i, hi, rfl⟩ := List.getElem_of_mem hs
    obtain ⟨lane, queue, cs, -, hsub, -⟩ := h.signals i hi
    rw [List.getElem?_eq_getElem hi, Option.some_inj] at hsub
    rw [hsub, batchOf_bound, replay_ok]
  · have ht := h.timelines hp
    have hinv := reachable_inv ht hσ
    -- a batch that is done has begun, for it has at least its store
    have hbegun : ∀ {j}, j < subs.length → Done (subs.map (batchOf points)) σ j → 0 < σ.pc j := by
      intro j hj hd
      obtain ⟨lane, cs, -, hbatch, init, scope, rfl, -⟩ := h.batch points hj
      rw [hd _ hbatch]
      simp
    have hearlier : ∀ {a b lane}, a < b → b < subs.length → queues[a]? = some lane →
        queues[b]? = some lane → Done (subs.map (batchOf points)) σ b →
        Done (subs.map (batchOf points)) σ a := by
      intro a b lane hab hb hqa hqb hd
      obtain ⟨lane₁, cs₁, hq₁, hbatch₁, -⟩ := h.batch points (hab.trans hb)
      obtain ⟨lane₂, cs₂, hq₂, hbatch₂, -⟩ := h.batch points hb
      rw [hqa] at hq₁
      rw [hqb] at hq₂
      cases hq₁
      cases hq₂
      exact hinv.done_of_begun hbatch₁ hbatch₂ hab rfl (hbegun hb hd)
    by_cases hlast : i = subs.length - 1
    · rwa [hlast]
    · obtain ⟨lane, cs, hq, -, -⟩ := h.batch points hi
      rcases h.covered i lane (by omega) hq with hsame | ⟨p, cs, queue, final, hip, hps, hqp, hfin, hw⟩
      · exact hearlier (by omega) (by omega) hq hsame hdone
      · -- the finalizer has waited for the last entry of this queue
        have hpdone : Done (subs.map (batchOf points)) σ p := by
          obtain ⟨lane', cs', -, hbatch, init, scope, rfl, -⟩ := h.batch points hps
          obtain ⟨j, hj⟩ := List.mem_iff_getElem?.mp hw
          have hstore : At (subs.map (batchOf points)) p init.length
              (.store (points (p + 1)).signalAddress (points (p + 1)).value) :=
            ⟨_, hbatch, by rw [List.getElem?_map, List.getElem?_concat_length]; rfl⟩
          have hwait : At (subs.map (batchOf points)) (subs.length - 1) j
              (.wait (points (p + 1)).signalAddress (points (p + 1)).value) := by
            refine ⟨⟨final, cs.map (BoundCommand.instr points)⟩, ?_, ?_⟩
            · rw [List.getElem?_map, hfin, Option.map_some, batchOf_bound]
            · rw [List.getElem?_map, hj]
              rfl
          exact hinv.done_of_waited hbatch (by simp) hstore hwait hdone
        rcases Nat.lt_or_ge i p with hlt | hge
        · exact hearlier hlt hps hq hqp hpdone
        · rwa [Nat.le_antisymm hip hge]

end Replay

/-! ## Linked plans -/

theorem bindLoop_keys (timelineSignals : DeviceQueue → ℕ × ℕ) (lanes : List LaneSubmission)
    (s : (DeviceQueue → Option EpochTimeline) × List TimelineBinding) :
    (lanes.foldl (bindStep timelineSignals) s).2.map (fun b => (b.lane, b.logicalValue)) =
      s.2.map (fun b => (b.lane, b.logicalValue)) ++ lanes.map fun e => (e.lane, e.signalValue) := by
  induction lanes generalizing s with
  | nil => simp
  | cons e lanes ih => simp [ih, bindStep]

/-- A plan links only when every wait names a published value. -/
theorem closed_of_linked {timelineSignals : DeviceQueue → ℕ × ℕ} {plan : SemanticLinkedPlan}
    (h : fromLaneSubmissions lanes timelineSignals = .ok plan) :
    plan.lanes = lanes ∧ Closed lanes := by
  rw [fromLaneSubmissions] at h
  split at h
  · cases h
  · rename_i hnone
    cases h
    refine ⟨rfl, fun entry hentry w hw => ?_⟩
    rw [firstUnpublished, List.findSome?_eq_none_iff] at hnone
    have hbound := hnone entry hentry
    rw [Option.map_eq_none_iff, List.find?_eq_none] at hbound
    have hw := hbound w hw
    simp only [Bool.not_eq_true', Bool.not_eq_false, isBound, List.any_eq_true, Bool.and_eq_true,
      decide_eq_true_eq] at hw
    obtain ⟨b, hb, hlane, hvalue⟩ := hw
    have hkey := List.mem_map_of_mem (f := fun b => (b.lane, b.logicalValue)) hb
    rw [timelineBindings, bindLoop_keys, List.map_nil, List.nil_append, List.mem_map] at hkey
    obtain ⟨e, he, heq⟩ := hkey
    rw [Prod.mk.injEq] at heq
    exact ⟨e, he, by simp [publishes, heq, hlane, hvalue]⟩

theorem Produces.lt {w : LaneWait} {p : ℕ} (h : Produces lanes p w) : p < lanes.length := by
  obtain ⟨⟨e, he, -⟩, -⟩ := h
  exact (List.getElem?_eq_some_iff.mp he).1

theorem IsLatest.lt {lane : DeviceQueue} {p : ℕ} (h : IsLatest lanes p lane) :
    p < lanes.length := by
  obtain ⟨⟨e, he, -⟩, -⟩ := h
  exact (List.getElem?_eq_some_iff.mp he).1

/-- Behind every entry lies the last one of its lane. -/
theorem exists_isLatest {i : ℕ} {e : LaneSubmission} (he : lanes[i]? = some e) :
    ∃ p, i ≤ p ∧ IsLatest lanes p e.lane := by
  obtain ⟨p, hp⟩ := exists_lastIndex (p := fun s => decide (s.lane = e.lane))
    (List.mem_of_getElem? he) (by simp)
  have hlatest : IsLatest lanes p e.lane := by
    simpa [lastIndex_eq_some, IsLatest] using hp
  refine ⟨p, ?_, hlatest⟩
  by_contra hlt
  exact hlatest.2 i e (Nat.not_le.mp hlt) he rfl

/-! ## Assembly -/

section Assembly

variable {finalLane : DeviceQueue} {published : List ℕ} {used : List DeviceQueue}
  {out : List SemanticLinkedSubmission}

theorem mem_finalSlots (hlen : lanes.length + 1 < 2 ^ 32) :
    slot ∈ finalSlots lanes finalLane ↔
      ∃ p lane, slot = p + 1 ∧ lane ≠ finalLane ∧ IsLatest lanes p lane := by
  simp only [finalSlots, List.mem_map, List.mem_filter, List.mem_insertionSort, decide_eq_true_eq,
    Prod.exists]
  constructor
  · rintro ⟨lane, p, ⟨hmem, hne⟩, rfl⟩
    have hlatest := latest_iff.mp hmem
    have hlt := hlatest.lt
    exact ⟨p, lane, slotOf_of_lt (by omega), hne, hlatest⟩
  · rintro ⟨p, lane, rfl, hne, hlatest⟩
    have hlt := hlatest.lt
    exact ⟨lane, p, ⟨latest_iff.mpr hlatest, hne⟩, slotOf_of_lt (by omega)⟩

theorem wait_mem_entryCommands {first : Bool} {slots : List ℕ} {operation own : ℕ}
    {scope : StoreScope} (hslot : slot ≠ 0) :
    .wait slot ∈ entryCommands first slots operation own scope ↔ slot ∈ slots := by
  have hopen : BoundCommand.wait slot ∉
      (if first then [BoundCommand.memoryBarrier, .wait 0] else []) := by
    cases first <;> simp [hslot]
  have hbarrier : BoundCommand.wait slot ∉
      (if slots.isEmpty then [] else [BoundCommand.memoryBarrier]) := by
    cases slots.isEmpty <;> simp
  simp only [entryCommands, List.mem_append, hopen, hbarrier]
  simp

theorem wait_mem_finalizerCommands {first : Bool} {slots : List ℕ} {own : ℕ} (hslot : slot ≠ 0) :
    .wait slot ∈ finalizerCommands first slots own ↔ slot ∈ slots := by
  have hopen : BoundCommand.wait slot ∉
      (if first then [BoundCommand.memoryBarrier, .wait 0] else []) := by
    cases first <;> simp [hslot]
  simp only [finalizerCommands, List.mem_append, hopen]
  simp

theorem entryCommands_signals (first : Bool) (slots : List ℕ) (operation i : ℕ)
    (scope : StoreScope) : Signals i (entryCommands first slots operation (i + 1) scope) := by
  refine ⟨(if first then [.memoryBarrier, .wait 0] else []) ++ slots.map .wait ++
    (if slots.isEmpty then [] else [.memoryBarrier]) ++ [.execute operation], scope, ?_, ?_⟩
  · simp [entryCommands]
  · rintro c hc s sc rfl
    cases first <;> cases hs : slots.isEmpty <;> simp [hs] at hc

theorem finalizerCommands_signals (first : Bool) (slots : List ℕ) (i : ℕ) :
    Signals i (finalizerCommands first slots (i + 1)) := by
  refine ⟨(if first then [.memoryBarrier, .wait 0] else []) ++ slots.map .wait, .system, rfl, ?_⟩
  rintro c hc s sc rfl
  cases first <;> simp at hc

/-- What the passes over a plan have computed. -/
structure Lowered (lanes : List LaneSubmission) (finalLane : DeviceQueue) (published : List ℕ)
    (used : List DeviceQueue) (out : List SemanticLinkedSubmission) : Prop where
  producers : ∀ entry ∈ lanes, ∀ w ∈ entry.waits, Produces lanes (producer lanes w) w
  observed : ∀ i, i ∈ published ↔ (∃ entry ∈ lanes, ∃ w ∈ entry.waits, producer lanes w = i) ∨
    ∃ lane, lane ≠ finalLane ∧ IsLatest lanes i lane
  built : Built lanes published lanes used out
  one : ∀ entry ∈ lanes, entry.commands.length = 1
  short : lanes.length + 1 < 2 ^ 32

def finalizerOf (lanes : List LaneSubmission) (used : List DeviceQueue) (finalLane : DeviceQueue) :
    SemanticLinkedSubmission :=
  ⟨finalLane, boundSubmission finalLane.queue (finalizerCommands (!used.contains finalLane)
    (finalSlots lanes finalLane) (slotOf lanes.length))⟩

variable (h : Lowered lanes finalLane published used out)

include h

theorem Lowered.producerSlot {entry : LaneSubmission} (hentry : entry ∈ lanes) {w : LaneWait}
    (hw : w ∈ entry.waits) : slotOf (producer lanes w) = producer lanes w + 1 := by
  have hlt := (h.producers entry hentry w hw).lt
  have hshort := h.short
  exact slotOf_of_lt (by omega)

theorem Lowered.entrySlot {i : ℕ} (hi : i < lanes.length + 1) : slotOf i = i + 1 := by
  have hshort := h.short
  exact slotOf_of_lt (by omega)

theorem Lowered.observed_iff (i : ℕ) :
    Observed (out ++ [finalizerOf lanes used finalLane]) (i + 1) ↔ i ∈ published := by
  rw [h.observed, Observed]
  constructor
  · rintro ⟨s, hs, hwait⟩
    rcases List.mem_append.mp hs with hs | hs
    · left
      obtain ⟨j, hj⟩ := List.mem_iff_getElem?.mp hs
      have hlt := (List.getElem?_eq_some_iff.mp hj).1
      rw [h.built.length] at hlt
      have hentry := List.getElem?_eq_getElem hlt
      rw [h.built.entry j _ hentry, Option.some_inj] at hj
      subst hj
      rw [nativeEntry, waits_iff, wait_mem_entryCommands (Nat.succ_ne_zero i), List.mem_map] at hwait
      obtain ⟨w, hw, hslot⟩ := hwait
      rw [h.producerSlot (List.getElem_mem hlt) hw] at hslot
      exact ⟨_, List.getElem_mem hlt, w, hw, Nat.succ.inj hslot⟩
    · right
      rw [List.mem_singleton] at hs
      subst hs
      rw [finalizerOf, waits_iff, wait_mem_finalizerCommands (Nat.succ_ne_zero i),
        mem_finalSlots h.short] at hwait
      obtain ⟨p, lane, hp, hne, hlatest⟩ := hwait
      rw [Nat.succ.inj hp]
      exact ⟨lane, hne, hlatest⟩
  · rintro (⟨entry, hentry, w, hw, rfl⟩ | ⟨lane, hne, hlatest⟩)
    · obtain ⟨j, hj⟩ := List.mem_iff_getElem?.mp hentry
      refine ⟨_, List.mem_append_left _ (List.mem_of_getElem? (h.built.entry j entry hj)), ?_⟩
      rw [nativeEntry, waits_iff, wait_mem_entryCommands (Nat.succ_ne_zero _), List.mem_map]
      exact ⟨w, hw, h.producerSlot hentry hw⟩
    · refine ⟨_, List.mem_append_right _ (List.mem_singleton.mpr rfl), ?_⟩
      rw [finalizerOf, waits_iff, wait_mem_finalizerCommands (Nat.succ_ne_zero _),
        mem_finalSlots h.short]
      exact ⟨i, lane, rfl, hne, hlatest⟩

theorem Lowered.getElem_finalizer : (out ++ [finalizerOf lanes used finalLane])[lanes.length]? =
    some (finalizerOf lanes used finalLane) := by
  rw [← h.built.length, List.getElem?_concat_length]

theorem Lowered.getElem_entry {i : ℕ} {entry : LaneSubmission} (hentry : lanes[i]? = some entry) :
    (out ++ [finalizerOf lanes used finalLane])[i]? = some (nativeEntry lanes published
      (decide (entry.lane ∉ (lanes.take i).map LaneSubmission.lane)) i entry) := by
  have hlt := (List.getElem?_eq_some_iff.mp hentry).1
  rw [List.getElem?_append_left (by rw [h.built.length]; exact hlt)]
  exact h.built.entry i entry hentry

theorem Lowered.synchronised : Synchronised (queuesOf lanes finalLane)
    (out ++ [finalizerOf lanes used finalLane]) where
  length := by simp [queuesOf, h.built.length]
  signals := by
    intro i hi
    rw [List.length_append, List.length_singleton, h.built.length] at hi
    rcases Nat.lt_or_ge i lanes.length with hlt | hge
    · have hentry := List.getElem?_eq_getElem hlt
      refine ⟨lanes[i].lane, _, _, ?_, h.getElem_entry hentry, ?_⟩
      · rw [queuesOf, List.getElem?_append_left (by simpa using hlt), List.getElem?_map, hentry,
          Option.map_some]
      · rw [h.entrySlot hi]
        exact entryCommands_signals ..
    · have heq : i = lanes.length := by omega
      subst heq
      refine ⟨finalLane, _, _, ?_, h.getElem_finalizer, ?_⟩
      · rw [queuesOf, List.getElem?_append_right (by simp)]
        simp
      · rw [h.entrySlot hi]
        exact finalizerCommands_signals ..
  covered := by
    intro i lane hi hq
    rw [List.length_append, List.length_singleton, h.built.length] at hi ⊢
    have hlt : i < lanes.length := by omega
    have hentry := List.getElem?_eq_getElem hlt
    rw [queuesOf, List.getElem?_append_left (by simpa using hlt), List.getElem?_map, hentry,
      Option.map_some, Option.some_inj] at hq
    subst hq
    rw [Nat.add_sub_cancel]
    by_cases hfinal : lanes[i].lane = finalLane
    · left
      rw [queuesOf, List.getElem?_append_right (by simp)]
      simp [hfinal]
    · right
      obtain ⟨p, hip, hlatest⟩ := exists_isLatest hentry
      refine ⟨p, _, _, finalLane, hip, hlatest.lt.trans (Nat.lt_succ_self _), ?_,
        h.getElem_finalizer, ?_⟩
      · obtain ⟨⟨e, he, hlane⟩, -⟩ := hlatest
        rw [queuesOf, List.getElem?_append_left
          (by simpa using (List.getElem?_eq_some_iff.mp he).1), List.getElem?_map, he,
          Option.map_some, hlane]
      · rw [wait_mem_finalizerCommands (Nat.succ_ne_zero p), mem_finalSlots h.short]
        exact ⟨p, _, rfl, hfinal, hlatest⟩

theorem Lowered.meets : NativeMeets lanes finalLane (out ++ [finalizerOf lanes used finalLane])
    where
  count := by rw [List.length_append, List.length_singleton, h.built.length]
  entries := by
    intro i entry hentry
    have hmem := List.mem_of_getElem? hentry
    have hlt := (List.getElem?_eq_some_iff.mp hentry).1
    obtain ⟨⟨operation, leg⟩, hcommand⟩ := List.length_eq_one_iff.mp (h.one entry hmem)
    refine ⟨operation, leg, entry.waits.map fun w => slotOf (producer lanes w),
      if published.contains i then .system else .queue, hcommand, ?_, ?_, ?_⟩
    · rw [h.getElem_entry hentry, nativeEntry, hcommand, h.entrySlot (by omega)]
      rfl
    · rw [List.forall₂_map_right_iff, List.forall₂_same]
      exact fun w hw => ⟨_, h.producerSlot hmem hw, h.producers entry hmem w hw⟩
    · rw [h.observed_iff]
      by_cases hp : i ∈ published <;> simp [hp]
  finalizer := by
    refine ⟨finalSlots lanes finalLane, ?_, fun slot => mem_finalSlots h.short⟩
    have hfirst : (!used.contains finalLane) =
        decide (finalLane ∉ lanes.map LaneSubmission.lane) := by
      rw [Bool.eq_iff_iff]
      simp [← h.built.used finalLane]
    rw [h.getElem_finalizer, finalizerOf, hfirst, h.entrySlot (Nat.lt_succ_self _)]
  completes := h.synchronised.completes (by simp)

end Assembly

/-! ## The lowering of a plan -/

section Lowering

variable {timelineSignals : DeviceQueue → ℕ × ℕ} {plan : SemanticLinkedPlan}

/-- An unmerged plan of one device is lowered to its entries and the finalizer. -/
theorem nativeSubmissions_lowered (h : fromLaneSubmissions lanes timelineSignals = .ok plan)
    {first : LaneSubmission} {rest : List LaneSubmission} (hlanes : plan.lanes = first :: rest)
    (hone : ∀ entry ∈ plan.lanes, entry.commands.length = 1)
    (hdevice : ∀ entry ∈ plan.lanes, entry.lane.device = first.lane.device) :
    ∃ published used out,
      nativeSubmissions plan =
        .ok (out ++ [finalizerOf plan.lanes used (finalLaneOf first.lane.device)]) ∧
      Built plan.lanes published plan.lanes used out ∧
      (∀ entry ∈ plan.lanes, ∀ w ∈ entry.waits, Produces plan.lanes (producer plan.lanes w) w) ∧
      ∀ i, i ∈ published ↔
        (∃ entry ∈ plan.lanes, ∃ w ∈ entry.waits, producer plan.lanes w = i) ∨
          ∃ lane, lane ≠ finalLaneOf first.lane.device ∧ IsLatest plan.lanes i lane := by
  obtain ⟨heq, hclosed⟩ := closed_of_linked h
  rw [← heq] at hclosed
  have hproducer : ∀ entry ∈ plan.lanes, ∀ w ∈ entry.waits,
      producerOf plan.lanes w = .ok (producer plan.lanes w) :=
    fun entry hentry w hw => (hclosed.producer hentry hw).1
  obtain ⟨published, hpublished, hmem⟩ :=
    publishedEntries_ok hproducer (finalLaneOf first.lane.device)
  obtain ⟨used, out, hbuilt⟩ := entries_built published hproducer plan.lanes fun _ he => he
  refine ⟨published, used, out, ?_, hbuilt,
    fun entry hentry w hw => (hclosed.producer hentry hw).2, hmem⟩
  have hmerged : (plan.lanes.any fun lane => lane.commands.length != 1) = false := by
    simpa [List.any_eq_false] using hone
  have hseveral : (plan.lanes.any fun lane => lane.lane.device != first.lane.device) = false := by
    simpa [List.any_eq_false] using hdevice
  rw [hlanes] at hmerged hseveral hpublished hbuilt ⊢
  simp only [nativeSubmissions, hlanes, hmerged, hseveral, Bool.false_eq_true, if_false, hpublished,
    hbuilt.run, finalizerSubmission_ok, bind, Except.bind, finalizerOf]

/-- What becomes of a linked plan: nothing of the empty one, the merged and the spread ones are
    refused, and every other one is lowered with its synchronisation. -/
theorem nativeSubmissions_spec (h : fromLaneSubmissions lanes timelineSignals = .ok plan)
    (hshort : lanes.length + 1 < 2 ^ 32) :
    (plan.lanes = [] → nativeSubmissions plan = .ok []) ∧
    ∀ first rest, plan.lanes = first :: rest →
      ((∃ entry ∈ plan.lanes, entry.commands.length ≠ 1) →
        nativeSubmissions plan = .error .merged) ∧
      ((∀ entry ∈ plan.lanes, entry.commands.length = 1) →
        (∃ entry ∈ plan.lanes, entry.lane.device ≠ first.lane.device) →
          nativeSubmissions plan = .error .severalDevices) ∧
      ((∀ entry ∈ plan.lanes, entry.commands.length = 1) →
        (∀ entry ∈ plan.lanes, entry.lane.device = first.lane.device) →
          ∃ subs, nativeSubmissions plan = .ok subs ∧
            NativeMeets plan.lanes (finalLaneOf first.lane.device) subs) := by
  refine ⟨fun hnil => by rw [nativeSubmissions, hnil], fun first rest hlanes => ⟨?_, ?_, ?_⟩⟩
  · rintro ⟨entry, hentry, hcount⟩
    have hmerged : (plan.lanes.any fun lane => lane.commands.length != 1) = true :=
      List.any_eq_true.mpr ⟨entry, hentry, by simpa using hcount⟩
    rw [hlanes] at hmerged
    simp only [nativeSubmissions, hlanes, if_pos hmerged]
  · rintro hone ⟨entry, hentry, hne⟩
    have hmerged : ¬ (plan.lanes.any fun lane => lane.commands.length != 1) = true := by
      simpa using hone
    have hseveral : (plan.lanes.any fun lane => lane.lane.device != first.lane.device) = true :=
      List.any_eq_true.mpr ⟨entry, hentry, by simpa using hne⟩
    rw [hlanes] at hmerged hseveral
    simp only [nativeSubmissions, hlanes, if_neg hmerged, if_pos hseveral]
  · intro hone hdevice
    obtain ⟨published, used, out, hrun, hbuilt, hproducers, hobserved⟩ :=
      nativeSubmissions_lowered h hlanes hone hdevice
    have hlowered : Lowered plan.lanes (finalLaneOf first.lane.device) published used out :=
      { producers := hproducers, observed := hobserved, built := hbuilt, one := hone
        short := by rw [(closed_of_linked h).1]; exact hshort }
    exact ⟨_, hrun, hlowered.meets⟩

def computeLane : DeviceQueue := { device := .cpu, queue := .compute 0 }

def copyLane : DeviceQueue := { device := .cpu, queue := .copy 0 }

/-- A kernel, and a copy that waits for it. -/
theorem nativeSubmissions_spec_copyBehindKernel :
    ∃ subs, nativeSubmissions ⟨[⟨computeLane, [], [⟨0, none⟩], 1⟩,
        ⟨copyLane, [⟨computeLane, 1⟩], [⟨1, none⟩], 1⟩],
        [⟨computeLane, 1, ⟨64, 1⟩⟩, ⟨copyLane, 1, ⟨64, 1⟩⟩]⟩ = .ok subs ∧
      NativeMeets [⟨computeLane, [], [⟨0, none⟩], 1⟩,
        ⟨copyLane, [⟨computeLane, 1⟩], [⟨1, none⟩], 1⟩] computeLane subs :=
  ((nativeSubmissions_spec (show fromLaneSubmissions [⟨computeLane, [], [⟨0, none⟩], 1⟩,
    ⟨copyLane, [⟨computeLane, 1⟩], [⟨1, none⟩], 1⟩] (fun _ => (64, 128)) = .ok _ from rfl)
    (by decide)).2 _ _ rfl).2.2 (by decide) (by decide)

/-- Three linked plans: a merged entry is refused; a wait of the same lane makes the signal
    system-scoped although no other lane and no finalizer looks at it; and behind `2 ^ 32 - 1`
    entries the finalizer stores to slot 0, which stands for the device's state. -/
theorem nativeSubmissions_exceptions :
    (∃ plan, fromLaneSubmissions [⟨computeLane, [], [⟨0, none⟩, ⟨1, none⟩], 2⟩]
        (fun _ => (64, 128)) = .ok plan ∧ nativeSubmissions plan = .error .merged) ∧
    (∃ plan subs s, fromLaneSubmissions [⟨computeLane, [], [⟨0, none⟩], 1⟩,
        ⟨computeLane, [⟨computeLane, 1⟩], [⟨1, none⟩], 2⟩] (fun _ => (64, 128)) = .ok plan ∧
      nativeSubmissions plan = .ok subs ∧ subs[0]? = some s ∧
      s.submission.commands.getLast? = some (.store 0 0 .system) ∧
      (∀ t ∈ subs, t.lane = computeLane) ∧
      ∀ t ∈ subs.getLast?, ∀ p ∈ t.submission.patches, p.field ≠ .waitAddress) ∧
    ∃ plan subs s k, fromLaneSubmissions
        (List.replicate (2 ^ 32 - 1) ⟨computeLane, [], [⟨0, none⟩], 1⟩) (fun _ => (64, 128)) =
          .ok plan ∧
      nativeSubmissions plan = .ok subs ∧ subs.getLast? = some s ∧
      ⟨k, .storeDst, .timelineSignal 0⟩ ∈ s.submission.patches := by
  refine ⟨⟨_, rfl, rfl⟩, ⟨_, _, _, rfl, rfl, rfl, rfl, by decide, by decide⟩, ?_⟩
  obtain ⟨plan, hplan⟩ := @fromLaneSubmissions_ok
    (List.replicate (2 ^ 32 - 1) ⟨computeLane, [], [⟨0, none⟩], 1⟩)
    (fun t ht w hw => by rw [List.eq_of_mem_replicate ht] at hw; cases hw) (fun _ => (64, 128))
  have hlanes := (closed_of_linked hplan).1
  have hentry : ∀ entry ∈ plan.lanes, entry = ⟨computeLane, [], [⟨0, none⟩], 1⟩ := by
    rw [hlanes]
    exact fun entry he => List.eq_of_mem_replicate he
  have hlength : plan.lanes.length = 2 ^ 32 - 1 := by rw [hlanes, List.length_replicate]
  cases hcons : plan.lanes with
  | nil => rw [hcons] at hlength; simp at hlength
  | cons first rest =>
    have hfirst : first = ⟨computeLane, [], [⟨0, none⟩], 1⟩ := hentry first (by simp [hcons])
    obtain ⟨published, used, out, hrun, -, -, -⟩ := nativeSubmissions_lowered hplan hcons
      (fun entry he => by rw [hentry entry he]; rfl)
      (fun entry he => by rw [hentry entry he, hfirst])
    refine ⟨plan, _, _, (finalizerCommands (!used.contains (finalLaneOf first.lane.device))
      (finalSlots plan.lanes (finalLaneOf first.lane.device)) 0).length - 1, hplan, hrun,
      List.getLast?_concat, ?_⟩
    have hslot : slotOf plan.lanes.length = 0 := by rw [hlength]; rfl
    rw [finalizerOf, hslot]
    refine mem_patchesOf.mpr ⟨_, .store 0 .system, ?_, List.mem_cons_self ..⟩
    rw [finalizerCommands, List.length_append, List.length_singleton, Nat.add_sub_cancel,
      List.getElem?_concat_length]

end Lowering

end Svod.Device.Native
