/-
  Svod.Device.HwQueueSound

  The rings of an AMD queue lose no command.

  The three writing loops are one operation on a ring (`push_eq`), so the
  invariant speaks of the log of everything written: the ring holds the log from
  the device's read index on, and the chunks still to be written by the holder
  of the lock fit behind it.  The waits for headroom give the second part; on
  PM4 only if the ring was not full, because a full ring looks empty there.
-/

import Mathlib.Algebra.Order.BigOperators.Group.List
import Svod.Device.HwQueue

namespace Svod.Device.HwQueue

open Svod.Lib

variable {α : Type*} {q q' : Queue α} {kind : RingKind} {cap w : ℕ} {ring : ℕ → α}

/-! ## The writing loops -/

theorem writeDwords_eq (xs : List α) :
    writeDwords cap ring (w % cap) xs = Ring.put cap ring w xs := by
  induction xs generalizing ring w with
  | nil => rfl
  | cons x xs ih =>
    rw [writeDwords, Nat.mod_add_mod, ih, Ring.put_cons]

theorem writePackets_eq (xs : List α) : writePackets cap ring w xs = Ring.put cap ring w xs := by
  induction xs generalizing ring w with
  | nil => rfl
  | cons x xs ih =>
    have hslot : w * RingKind.unitBytes .aql % (cap * RingKind.unitBytes .aql) /
        RingKind.unitBytes .aql = w % cap := by
      rw [Nat.mul_mod_mul_right]
      exact Nat.mul_div_cancel _ (by decide)
    rw [writePackets, Ring.put_cons, ← ih]
    show writePackets cap (Function.update ring _ x) (w + 1) xs = _
    rw [hslot]

/-- A block that does not straddle the ring's end is written like any other units. -/
theorem writeBlock_eq (xs : List α) (h : w % cap + xs.length ≤ cap) :
    writeBlock ring (w % cap) xs = Ring.put cap ring w xs := by
  induction xs generalizing ring w with
  | nil => rfl
  | cons x xs ih =>
    rw [writeBlock, Ring.put_cons]
    cases xs with
    | nil => rfl
    | cons y ys =>
      rw [List.length_cons, List.length_cons] at h
      -- one more unit still fits, so the next place is in the same lap
      have hnext : (w + 1) % cap = w % cap + 1 := by
        rw [← Nat.mod_add_mod]
        exact Nat.mod_eq_of_lt (by omega)
      rw [← hnext]
      exact ih (by rw [hnext, List.length_cons]; omega)

variable [Zero α]

/-- The units a chunk takes at position `pos`. -/
def placed (kind : RingKind) (cap pos : ℕ) (chunk : List α) : List α :=
  match kind with
  | .pm4 | .aql => chunk
  | .sdma => padding cap pos chunk.length ++ chunk

theorem layout_cons (pos : ℕ) (chunk : List α) (chunks : List (List α)) :
    layout kind cap pos (chunk :: chunks) =
      placed kind cap pos chunk ++
        layout kind cap (pos + (placed kind cap pos chunk).length) chunks := by
  cases kind with
  | pm4 | aql => rfl
  | sdma =>
    show padding cap pos chunk.length ++ chunk ++ layout _ _ _ _ =
      padding cap pos chunk.length ++ chunk ++ layout _ _ _ _
    have hlen : (placed .sdma cap pos chunk).length =
        (padding cap pos chunk.length : List α).length + chunk.length := List.length_append
    rw [hlen, Nat.add_assoc]

theorem layout_append (pos : ℕ) (cs ds : List (List α)) :
    layout kind cap pos (cs ++ ds) =
      layout kind cap pos cs ++ layout kind cap (pos + (layout kind cap pos cs).length) ds := by
  induction cs generalizing pos with
  | nil => rfl
  | cons c cs ih =>
    rw [List.cons_append, layout_cons, layout_cons, ih, List.append_assoc, List.length_append,
      Nat.add_assoc]

theorem length_padding (bytes : ℕ) : (padding cap w bytes : List α).length =
    if cap < w % cap + bytes then cap - w % cap else 0 := by
  unfold padding
  dsimp only
  split
  · exact List.length_replicate
  · rfl

/-- Behind its padding a chunk does not straddle the ring's end. -/
theorem mod_add_padding_le {bytes : ℕ} (hcap : 0 < cap) (h : bytes ≤ cap) :
    (w + (padding cap w bytes : List α).length) % cap + bytes ≤ cap := by
  rw [length_padding]
  have hlt := Nat.mod_lt w hcap
  split
  · have hzero : (w + (cap - w % cap)) % cap = 0 := by
      rw [← Nat.mod_add_mod, Nat.add_sub_of_le hlt.le, Nat.mod_self]
    omega
  · rw [Nat.add_zero]
    omega

/-- A push writes the chunk, behind its padding, at the producer index. -/
theorem push_eq (hcap : 0 < q.capacity) (chunk : List α) (h : chunk.length ≤ q.capacity) :
    q.push chunk = { q with
      ring := Ring.put q.capacity q.ring q.writeIdx (placed q.kind q.capacity q.writeIdx chunk)
      writeIdx := q.writeIdx + (placed q.kind q.capacity q.writeIdx chunk).length
      commands := q.commands ++ [chunk] } := by
  unfold Queue.push placed
  cases hkind : q.kind with
  | pm4 => simp only [writeDwords_eq]
  | aql => simp only [writePackets_eq]
  | sdma =>
    have hpad : q.writeIdx % q.capacity +
        (padding q.capacity q.writeIdx chunk.length : List α).length ≤ q.capacity := by
      have hlt := Nat.mod_lt q.writeIdx hcap
      rw [length_padding]
      split <;> omega
    simp only
    rw [writeBlock_eq _ hpad, writeBlock_eq _ (mod_add_padding_le hcap h), Ring.put_append,
      List.length_append, Nat.add_assoc]

/-! ## Headroom -/

/-- Units the chunks take from position `pos` on. -/
def extent (kind : RingKind) (cap pos : ℕ) (chunks : List (List α)) : ℕ :=
  (layout kind cap pos chunks).length

theorem extent_cons (pos : ℕ) (chunk : List α) (chunks : List (List α)) :
    extent kind cap pos (chunk :: chunks) = (placed kind cap pos chunk).length +
      extent kind cap (pos + (placed kind cap pos chunk).length) chunks := by
  rw [extent, layout_cons, List.length_append]
  rfl

omit [Zero α] in
@[simp] theorem units_nil : units ([] : List (List α)) = 0 := rfl

omit [Zero α] in
@[simp] theorem units_cons (chunk : List α) (chunks : List (List α)) :
    units (chunk :: chunks) = chunk.length + units chunks := rfl

/-- PM4 and AQL chunks take what they are. -/
theorem extent_eq_units (hkind : kind ≠ .sdma) (pos : ℕ) (chunks : List (List α)) :
    extent kind cap pos chunks = units chunks := by
  induction chunks generalizing pos with
  | nil => rfl
  | cons c cs ih =>
    have hplaced : placed kind cap pos c = c := by
      cases kind with
      | pm4 | aql => rfl
      | sdma => exact absurd rfl hkind
    rw [extent_cons, hplaced, ih, units_cons]

theorem length_placed_sdma (chunk : List α) : (placed .sdma cap w chunk).length =
    (if cap < w % cap + chunk.length then cap - w % cap else 0) + chunk.length := by
  rw [← length_padding (α := α)]
  exact List.length_append

theorem sdmaAdvance_eq (chunk : List α) :
    sdmaAdvance cap w chunk.length = w + (placed .sdma cap w chunk).length := by
  rw [length_placed_sdma, sdmaAdvance]
  split <;> omega

/-- A linked copy takes exactly what its headroom was computed for. -/
theorem extent_eq_linkedSdmaPublishedBytes (chunks : List (List α)) :
    linkedSdmaPublishedBytes cap w (chunks.map List.length) = extent .sdma cap w chunks := by
  have hfold : (chunks.map List.length).foldl (sdmaAdvance cap) w =
      w + extent .sdma cap w chunks := by
    induction chunks generalizing w with
    | nil => rfl
    | cons c cs ih =>
      rw [List.map_cons, List.foldl_cons, sdmaAdvance_eq, ih, extent_cons, Nat.add_assoc]
  rw [linkedSdmaPublishedBytes, hfold, Nat.add_sub_cancel_left]

/-- Chunks of at most `n` bytes, less than the ring, meet its end once at most. -/
theorem extent_sdma_le {n : ℕ} (hcap : 0 < cap) (hn : n < cap) (chunks : List (List α))
    (hunits : units chunks ≤ n) :
    extent .sdma cap w chunks ≤ n + if cap < w % cap + n then cap - w % cap else 0 := by
  induction chunks generalizing w n with
  | nil => exact Nat.zero_le _
  | cons c cs ih =>
    rw [units_cons] at hunits
    rw [extent_cons, length_placed_sdma]
    have hlt := Nat.mod_lt w hcap
    have hrest := ih (w := w + ((if cap < w % cap + c.length then cap - w % cap else 0) +
      c.length)) (n := n - c.length) (by omega) (by omega)
    by_cases hpad : cap < w % cap + c.length
    · -- the chunk goes to the front, and what is left stays in that lap
      rw [if_pos hpad] at hrest ⊢
      have hmod : (w + (cap - w % cap + c.length)) % cap = c.length := by
        rw [← Nat.add_assoc, ← Nat.mod_add_mod, ← Nat.mod_add_mod w, Nat.add_sub_of_le hlt.le,
          Nat.mod_self, Nat.zero_add]
        exact Nat.mod_eq_of_lt (by omega)
      rw [hmod, if_neg (by omega)] at hrest
      rw [if_pos (by omega)]
      omega
    · rw [if_neg hpad, Nat.zero_add] at hrest ⊢
      rcases Nat.lt_or_ge (w % cap + c.length) cap with hfit | hend
      · have hmod : (w + c.length) % cap = w % cap + c.length := by
          rw [← Nat.mod_add_mod]
          exact Nat.mod_eq_of_lt hfit
        rw [hmod] at hrest
        split at hrest <;> split <;> omega
      · have hmod : (w + c.length) % cap = 0 := by
          rw [← Nat.mod_add_mod, show w % cap + c.length = cap by omega, Nat.mod_self]
        rw [hmod, if_neg (by omega)] at hrest
        split <;> omega

/-! ## The invariant -/

structure Inv (q : Queue α) : Prop where
  capacity_pos : 0 < q.capacity
  read_le : q.readIdx ≤ q.published
  published_le : q.published ≤ q.writeIdx
  room : q.writeIdx ≤ q.readIdx + q.capacity
  length : q.written.length = q.writeIdx
  /-- The ring holds the log of writes from the read index on. -/
  holds : Ring.Holds q.capacity q.ring q.written q.readIdx
  seen : q.seen = q.written.take q.readIdx
  settled : q.publication = none → q.published = q.writeIdx
  /-- What the holder of the lock has still to write fits. -/
  reserved : ∀ p, q.publication = some p →
    q.writeIdx + extent q.kind q.capacity q.writeIdx p.left ≤ q.readIdx + q.capacity ∧
      ∀ c ∈ p.left, c.length ≤ q.capacity
  /-- Before its doorbell a publication can be taken back. -/
  saved : ∀ p, q.publication = some p → p.committed = false →
    p.saved = q.published ∧ extent q.kind q.capacity 0 p.savedCommands = p.saved ∧
      ∃ more, q.commands = p.savedCommands ++ more

theorem inv_new (kind : RingKind) {cap : ℕ} (hcap : 0 < cap) (ring : ℕ → α) :
    Inv (Queue.new kind cap ring) where
  capacity_pos := hcap
  read_le := Nat.le_refl _
  published_le := Nat.le_refl _
  room := Nat.zero_le _
  length := rfl
  holds := Ring.holds_nil
  seen := rfl
  settled _ := rfl
  reserved p hp := by cases hp
  saved p hp := by cases hp

theorem Inv.safe (h : Inv q) : q.Safe where
  read_le := h.read_le
  published_le := h.published_le
  room := h.room
  unread i hlo hi := h.holds i hlo (by rw [h.length]; exact hi.trans_le h.published_le)
  seen := h.seen
  settled hnone := ⟨h.settled hnone, h.length⟩

/-- The read index recovered from a PM4 queue is the device's, unless the ring is full. -/
theorem Inv.absolutePm4ReadIdx_eq_iff (h : Inv q) (hkind : q.kind = .pm4) :
    absolutePm4ReadIdx q.writeIdx q.reportedRead q.capacity = q.readIdx ↔ q.NotFull := by
  have hreported : q.reportedRead = q.readIdx % q.capacity := by
    rw [Queue.reportedRead, hkind]
  rw [hreported]
  exact Ring.reconstruct_eq_iff h.capacity_pos (h.read_le.trans h.published_le) h.room

/-- A wait for headroom that sees the device's read index leaves the room it was asked for. -/
theorem Inv.accepts (h : Inv q) (hfull : q.kind = .pm4 → q.NotFull) {headroom : Headroom}
    {chunks : List (List α)} (hacc : q.accepts headroom chunks = true) :
    q.writeIdx + extent q.kind q.capacity q.writeIdx chunks ≤ q.readIdx + q.capacity ∧
      ∀ c ∈ chunks, c.length ≤ q.capacity := by
  have hread := h.read_le.trans h.published_le
  have hmem : ∀ c ∈ chunks, c.length ≤ units chunks := fun c hc =>
    List.single_le_sum (by simp) _ (List.mem_map_of_mem hc)
  cases hkind : q.kind with
  | pm4 =>
    cases headroom with
    | sequence => simp [Queue.accepts, hkind] at hacc
    | total n =>
      have habs := (h.absolutePm4ReadIdx_eq_iff hkind).mpr (hfull hkind)
      simp only [Queue.accepts, hkind, Bool.and_eq_true, decide_eq_true_eq, beq_iff_eq,
        pm4Shortfall, habs, Option.isNone_iff_eq_none, ite_eq_right_iff, reduceCtorEq,
        imp_false] at hacc
      obtain ⟨⟨⟨⟨-, hn⟩, -⟩, hlt⟩, hroom⟩ := hacc
      rw [extent_eq_units RingKind.noConfusion]
      refine ⟨by omega, fun c hc => ?_⟩
      have := hmem c hc
      omega
  | aql =>
    cases headroom with
    | sequence => simp [Queue.accepts, hkind] at hacc
    | total n =>
      have hrep : q.reportedRead = q.readIdx := by rw [Queue.reportedRead, hkind]
      simp only [Queue.accepts, hkind, Bool.and_eq_true, decide_eq_true_eq, beq_iff_eq,
        aqlShortfall, hrep, Option.isNone_iff_eq_none, ite_eq_right_iff, reduceCtorEq,
        imp_false] at hacc
      obtain ⟨⟨⟨⟨-, hn⟩, -⟩, hlt⟩, hroom⟩ := hacc
      rw [extent_eq_units RingKind.noConfusion]
      refine ⟨by omega, fun c hc => ?_⟩
      have := hmem c hc
      omega
  | sdma =>
    have hrep : q.reportedRead = q.readIdx := by rw [Queue.reportedRead, hkind]
    cases headroom with
    | total n =>
      simp only [Queue.accepts, hkind, Bool.and_eq_true, decide_eq_true_eq, sdmaShortfall, hrep,
        Option.isNone_iff_eq_none, ite_eq_right_iff, reduceCtorEq, imp_false,
        sdmaPublishedBytes] at hacc
      obtain ⟨⟨hunits, hlt⟩, hroom⟩ := hacc
      have hext := extent_sdma_le (w := q.writeIdx) h.capacity_pos hlt chunks hunits
      refine ⟨by omega, fun c hc => ?_⟩
      have := hmem c hc
      omega
    | sequence =>
      simp only [Queue.accepts, hkind, Bool.and_eq_true, decide_eq_true_eq, List.all_eq_true,
        sdmaShortfall, hrep, Option.isNone_iff_eq_none, ite_eq_right_iff, reduceCtorEq,
        imp_false, extent_eq_linkedSdmaPublishedBytes] at hacc
      obtain ⟨⟨hlen, -⟩, hroom⟩ := hacc
      exact ⟨by omega, fun c hc => (hlen c hc).2.le⟩

/-! ## Steps -/

/-- One chunk of the holder of the lock is written behind the log. -/
theorem Inv.push (h : Inv q) {p : Publication α} {chunk : List α} {left : List (List α)}
    (hp : q.publication = some p) (hleft : p.left = chunk :: left) :
    Inv { q.push chunk with publication := some { p with left := left } } := by
  obtain ⟨hroom, hlen⟩ := h.reserved p hp
  rw [hleft] at hroom hlen
  rw [extent_cons] at hroom
  rw [push_eq h.capacity_pos chunk (hlen chunk List.mem_cons_self)]
  let units := placed q.kind q.capacity q.writeIdx chunk
  have hwritten : layout q.kind q.capacity 0 (q.commands ++ [chunk]) = q.written ++ units := by
    rw [layout_append, layout_cons]
    show q.written ++ (placed q.kind q.capacity (0 + q.written.length) chunk ++ []) = _
    rw [Nat.zero_add, h.length, List.append_nil]
  have hread : q.readIdx ≤ q.written.length := by
    rw [h.length]
    exact h.read_le.trans h.published_le
  constructor
  · exact h.capacity_pos
  · exact h.read_le
  · exact h.published_le.trans (Nat.le_add_right _ _)
  · show q.writeIdx + units.length ≤ q.readIdx + q.capacity
    exact (Nat.add_le_add_left (Nat.le_add_right _ _) _).trans hroom
  · show (layout q.kind q.capacity 0 (q.commands ++ [chunk])).length = _
    rw [hwritten, List.length_append, h.length]
  · show Ring.Holds q.capacity (Ring.put q.capacity q.ring q.writeIdx units)
      (layout q.kind q.capacity 0 (q.commands ++ [chunk])) q.readIdx
    rw [hwritten, ← h.length]
    refine h.holds.put ?_
    rw [h.length]
    exact (Nat.add_le_add_left (Nat.le_add_right _ _) _).trans hroom
  · show q.seen = (layout q.kind q.capacity 0 (q.commands ++ [chunk])).take q.readIdx
    rw [hwritten, List.take_append_of_le_length hread]
    exact h.seen
  · intro hnone
    cases hnone
  · rintro _ ⟨⟩
    refine ⟨?_, fun c hc => hlen c (List.mem_cons_of_mem _ hc)⟩
    show q.writeIdx + units.length + _ ≤ _
    rw [Nat.add_assoc]
    exact hroom
  · rintro _ ⟨⟩ hcommitted
    obtain ⟨hsaved, hext, more, hmore⟩ := h.saved p hp hcommitted
    refine ⟨hsaved, hext, more ++ [chunk], ?_⟩
    show q.commands ++ [chunk] = _
    rw [hmore, List.append_assoc]

/-- A publication that is given up leaves the ring as the last doorbell left it. -/
theorem Inv.rollback (h : Inv q) {p : Publication α} (hp : q.publication = some p)
    (hcommitted : p.committed = false) :
    Inv { q with writeIdx := p.saved, commands := p.savedCommands, publication := none } := by
  obtain ⟨hsaved, hext, more, hmore⟩ := h.saved p hp hcommitted
  have hwritten : q.written =
      layout q.kind q.capacity 0 p.savedCommands ++
        layout q.kind q.capacity (0 + extent q.kind q.capacity 0 p.savedCommands) more := by
    rw [Queue.written, hmore, layout_append]
    rfl
  have hread : q.readIdx ≤ (layout q.kind q.capacity 0 p.savedCommands).length := by
    show q.readIdx ≤ extent q.kind q.capacity 0 p.savedCommands
    rw [hext, hsaved]
    exact h.read_le
  constructor
  · exact h.capacity_pos
  · exact h.read_le
  · exact hsaved.ge
  · show p.saved ≤ q.readIdx + q.capacity
    rw [hsaved]
    exact h.published_le.trans h.room
  · exact hext
  · have hholds := h.holds
    rw [hwritten] at hholds
    exact hholds.of_append
  · show q.seen = (layout q.kind q.capacity 0 p.savedCommands).take q.readIdx
    rw [h.seen, hwritten, List.take_append_of_le_length hread]
  · exact fun _ => hsaved.symm
  · intro p' hp'
    cases hp'
  · intro p' hp'
    cases hp'

theorem Inv.consume (h : Inv q) {n : ℕ} (hn : q.readIdx + n ≤ q.published) :
    Inv { q with
      seen := q.seen ++ (List.range n).map fun i => q.ring ((q.readIdx + i) % q.capacity)
      readIdx := q.readIdx + n } := by
  have hle : q.writeIdx ≤ q.readIdx + n + q.capacity := h.room.trans (by omega)
  constructor
  · exact h.capacity_pos
  · exact hn
  · exact h.published_le
  · exact hle
  · exact h.length
  · exact h.holds.mono (Nat.le_add_right _ _)
  · show q.seen ++ _ = q.written.take (q.readIdx + n)
    rw [h.seen]
    refine h.holds.read ?_
    rw [h.length]
    exact hn.trans h.published_le
  · exact h.settled
  · intro p hp
    obtain ⟨hroom, hlen⟩ := h.reserved p hp
    refine ⟨hroom.trans ?_, hlen⟩
    show q.readIdx + q.capacity ≤ q.readIdx + n + q.capacity
    omega
  · exact h.saved

theorem Inv.lock (h : Inv q) (hnone : q.publication = none) {chunks : List (List α)}
    (hroom : q.writeIdx + extent q.kind q.capacity q.writeIdx chunks ≤ q.readIdx + q.capacity)
    (hlen : ∀ c ∈ chunks, c.length ≤ q.capacity) : Inv (q.lock chunks) where
  capacity_pos := h.capacity_pos
  read_le := h.read_le
  published_le := h.published_le
  room := h.room
  length := h.length
  holds := h.holds
  seen := h.seen
  settled hn := by cases hn
  reserved := by
    rintro _ ⟨⟩
    exact ⟨hroom, hlen⟩
  saved := by
    rintro _ ⟨⟩ -
    exact ⟨(h.settled hnone).symm, h.length, [], (List.append_nil _).symm⟩

theorem Inv.doorbell (h : Inv q) {p : Publication α} (hp : q.publication = some p) :
    Inv { q with published := q.writeIdx, publication := some { p with committed := true } } where
  capacity_pos := h.capacity_pos
  read_le := h.read_le.trans h.published_le
  published_le := Nat.le_refl _
  room := h.room
  length := h.length
  holds := h.holds
  seen := h.seen
  settled hn := by cases hn
  reserved := by
    rintro _ ⟨⟩
    exact h.reserved p hp
  saved := by
    rintro _ ⟨⟩ hcommitted
    cases hcommitted

theorem Inv.release (h : Inv q) (heq : q.published = q.writeIdx) :
    Inv { q with publication := none } where
  capacity_pos := h.capacity_pos
  read_le := h.read_le
  published_le := h.published_le
  room := h.room
  length := h.length
  holds := h.holds
  seen := h.seen
  settled _ := heq
  reserved p hp := by cases hp
  saved p hp := by cases hp

theorem inv_step (h : Inv q) {l : Label α} (hok : WaitsNotFull q l)
    (hstep : step q l = some q') : Inv q' := by
  cases l with
  | reserve headroom chunks =>
    simp only [step] at hstep
    split at hstep
    · rename_i hnone
      split at hstep
      · rename_i hacc
        simp only [Option.some.injEq] at hstep
        obtain ⟨hroom, hlen⟩ := h.accepts hok hacc
        exact hstep ▸ h.lock hnone hroom hlen
      · cases hstep
    · cases hstep
  | push =>
    simp only [step] at hstep
    split at hstep
    · rename_i p hp
      split at hstep
      · rename_i chunk left hleft
        simp only [Option.some.injEq] at hstep
        exact hstep ▸ h.push hp hleft
      · cases hstep
    · cases hstep
  | doorbell =>
    simp only [step] at hstep
    split at hstep
    · rename_i p hp
      simp only [Option.some.injEq] at hstep
      exact hstep ▸ h.doorbell hp
    · cases hstep
  | rollback =>
    simp only [step] at hstep
    split at hstep
    · rename_i p hp
      split at hstep
      · cases hstep
      · rename_i hcommitted
        simp only [Option.some.injEq] at hstep
        exact hstep ▸ h.rollback hp (Bool.eq_false_iff.mpr hcommitted)
    · cases hstep
  | release =>
    simp only [step] at hstep
    split at hstep
    · split at hstep
      · rename_i hdone
        simp only [Option.some.injEq] at hstep
        exact hstep ▸ h.release hdone.2
      · cases hstep
    · cases hstep
  | consume n =>
    simp only [step] at hstep
    split at hstep
    · rename_i hn
      simp only [Option.some.injEq] at hstep
      exact hstep ▸ h.consume hn
    · cases hstep

/-! ## Runs -/

theorem inv_run (hcap : 0 < cap) (h : Run step WaitsNotFull (Queue.new kind cap ring) q) : Inv q :=
  h.invariant (fun _ _ _ hinv hok hs => inv_step hinv hok hs) (inv_new kind hcap ring)

/-- A publication that begins on a full PM4 ring writes over an unread command at once. -/
theorem unsafe_of_full (hkind : q.kind = .pm4) (hfull : ¬ q.NotFull) {headroom : Headroom}
    {chunks : List (List α)} (hstep : step q (.reserve headroom chunks) = some q') :
    ∃ q'', Run step WaitsNotFull q' q'' ∧ ¬ q''.Safe := by
  simp only [step] at hstep
  split at hstep
  · split at hstep
    · rename_i hacc
      simp only [Option.some.injEq] at hstep
      subst hstep
      cases headroom with
      | sequence => simp [Queue.accepts, hkind] at hacc
      | total n =>
        simp only [Queue.accepts, hkind, Bool.and_eq_true, decide_eq_true_eq, beq_iff_eq] at hacc
        obtain ⟨⟨⟨⟨hne, hn⟩, hpos⟩, -⟩, -⟩ := hacc
        cases chunks with
        | nil =>
          rw [units_nil] at hn
          omega
        | cons c cs =>
          have hc : 0 < c.length := by
            have hhead := List.all_eq_true.mp hne c List.mem_cons_self
            exact List.length_pos_iff.mpr (by simpa using hhead)
          refine ⟨_, Run.single (a := .push) trivial rfl, fun hsafe => ?_⟩
          have hroom := hsafe.room
          have hwrite : ((q.lock (c :: cs)).push c).writeIdx = q.writeIdx + c.length := by
            unfold Queue.push
            rw [show (q.lock (c :: cs)).kind = .pm4 from hkind]
            rfl
          have hread : ((q.lock (c :: cs)).push c).readIdx + ((q.lock (c :: cs)).push c).capacity =
              q.readIdx + q.capacity := by
            unfold Queue.push
            rw [show (q.lock (c :: cs)).kind = .pm4 from hkind]
            rfl
          have hroom' : q.writeIdx + c.length ≤ q.readIdx + q.capacity := by
            rw [← hwrite, ← hread]
            exact hroom
          unfold Queue.NotFull at hfull
          omega
    · cases hstep
  · cases hstep

/-- A publication that is given up before its doorbell restores the producer index. -/
theorem Inv.writeIdx_rollback (h : Inv q) (hstep : step q .rollback = some q') :
    q'.writeIdx = q.published ∧ q'.published = q.published := by
  simp only [step] at hstep
  split at hstep
  · rename_i p hp
    split at hstep
    · cases hstep
    · rename_i hcommitted
      simp only [Option.some.injEq] at hstep
      subst hstep
      exact ⟨(h.saved p hp (Bool.eq_false_iff.mpr hcommitted)).1, rfl⟩
  · cases hstep

/-- In every run in which no wait for headroom meets a full PM4 ring, no published command is
    written over before it is read, the device reads the published commands in order, its index
    is recovered, and a publication that is given up restores the producer index.  The condition
    is exact: a publication is safe to begin if and only if the ring is not a full PM4 ring. -/
theorem ring_safe (kind : RingKind) (cap : ℕ) (hcap : 0 < cap) (ring : ℕ → α) (q : Queue α)
    (h : Run step WaitsNotFull (Queue.new kind cap ring) q) :
    q.Safe ∧
      (q.kind = .pm4 →
        (absolutePm4ReadIdx q.writeIdx q.reportedRead q.capacity = q.readIdx ↔ q.NotFull)) ∧
      (∀ q', step q .rollback = some q' →
        q'.writeIdx = q.published ∧ q'.published = q.published) ∧
      ∀ headroom chunks q', step q (.reserve headroom chunks) = some q' →
        ((∀ q'', Run step WaitsNotFull q' q'' → q''.Safe) ↔ (q.kind = .pm4 → q.NotFull)) := by
  have hinv := inv_run hcap h
  refine ⟨hinv.safe, hinv.absolutePm4ReadIdx_eq_iff, fun q' => hinv.writeIdx_rollback, ?_⟩
  intro headroom chunks q' hstep
  refine ⟨fun hall hkind => ?_, fun hok q'' hrun => ?_⟩
  · by_contra hfull
    obtain ⟨q'', hrun, hunsafe⟩ := unsafe_of_full hkind hfull hstep
    exact hunsafe (hall q'' hrun)
  · have hstart : Run step WaitsNotFull (Queue.new kind cap ring) q' :=
      h.tail (a := .reserve headroom chunks) hok hstep
    exact (inv_run hcap (hstart.trans hrun)).safe

/-- Two dwords are published on a ring of four and one of them is read. -/
theorem ring_safe_twoDwords :
    ∃ q : Queue ℕ, q.writeIdx = 2 ∧ q.seen = [7] ∧ q.Safe := by
  let q₀ : Queue ℕ := Queue.new .pm4 4 fun _ => 0
  have hsome : (exec step (q₀.lock [[7, 8]]) [.push, .doorbell, .release, .consume 1]).isSome =
      true := by decide
  have hacc : q₀.accepts (.total 2) [[7, 8]] = true := by decide
  have hfirst : Run step WaitsNotFull q₀ (q₀.lock [[7, 8]]) :=
    Run.single (a := .reserve (.total 2) [[7, 8]]) (fun _ => by decide) (if_pos hacc)
  have hrest : Run step WaitsNotFull (q₀.lock [[7, 8]]) ((exec step (q₀.lock [[7, 8]])
      [.push, .doorbell, .release, .consume 1]).get hsome) :=
    run_of_exec (by simp [WaitsNotFull]) (Option.some_get hsome).symm
  exact ⟨_, rfl, rfl, (ring_safe .pm4 4 (by decide) (fun _ => 0) _ (hfirst.trans hrest)).1⟩

/-! ## A full ring looks empty -/

/-- Two publications fill a ring of four dwords, none of which is read, and a third begins. -/
def fullRing : List (Label ℕ) :=
  [.reserve (.total 2) [[1, 2]], .push, .doorbell, .release,
    .reserve (.total 2) [[3, 4]], .push, .doorbell, .release,
    .reserve (.total 1) [[5]], .push]

/-- The third publication is written over the first unread command. -/
theorem ring_safe_fullRing :
    ¬ ∀ q : Queue ℕ, Run step (fun _ _ => True) (Queue.new .pm4 4 fun _ => 0) q → q.Safe := by
  intro hall
  have hsome : (exec step (Queue.new .pm4 4 fun _ => 0) fullRing).isSome = true := by decide
  obtain ⟨q, hq⟩ := Option.isSome_iff_exists.mp hsome
  have hrun : Run step (fun _ _ => True) (Queue.new .pm4 4 fun _ => 0) q :=
    run_of_exec (fun _ _ _ => trivial) hq
  have hslots : (exec step (Queue.new .pm4 4 fun _ => 0) fullRing).map
      (fun q => (q.readIdx, q.published, q.written[0]?, q.ring (0 % q.capacity))) =
        some (0, 4, some 1, 5) := by decide +kernel
  simp only [hq, Option.map_some, Option.some.injEq, Prod.mk.injEq] at hslots
  obtain ⟨hread, hpublished, hwritten, hslot⟩ := hslots
  have hunread := (hall q hrun).unread 0 hread.le (by rw [hpublished]; decide)
  rw [hwritten, hslot] at hunread
  cases hunread

end Svod.Device.HwQueue
