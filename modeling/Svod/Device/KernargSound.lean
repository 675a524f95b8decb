/-
  Svod.Device.KernargSound

  Safety of the kernel-argument arena.

  Every live byte lies below the cursor: a reservation starts at or behind the
  cursor, so it meets no live byte, and it moves the cursor behind itself.  A
  wrap puts the cursor back, which keeps the invariant only if nothing is live.
-/

import Svod.Device.Kernarg

namespace Svod.Device.Kernarg

open Svod.Lib

variable {a a' : Arena} {s t : Slot} {i j tid offset size align : ℕ}

/-! ## Arithmetic of a reservation -/

theorem le_nextMultipleOf (n align : ℕ) : n ≤ nextMultipleOf n align := by
  unfold nextMultipleOf
  split <;> omega

theorem dvd_nextMultipleOf (n : ℕ) (h : 0 < align) : align ∣ nextMultipleOf n align := by
  unfold nextMultipleOf
  have hlt := Nat.mod_lt n h
  split
  · exact Nat.dvd_of_mod_eq_zero (by assumption)
  · refine ⟨n / align + 1, ?_⟩
    have hdiv := Nat.div_add_mod n align
    rw [Nat.mul_add]
    omega

/-- What the code has checked when a request fits behind the cursor. -/
theorem bump_eq_fits (h : a.bump size align = .fits offset) :
    a.cursor ≤ offset ∧ offset + size ≤ a.size ∧ align ∣ offset := by
  simp only [Arena.bump] at h
  split at h
  · cases h
  · split at h
    · cases h
    · rename_i hpos
      split at h
      · cases h
      · split at h
        · cases h
        · rename_i hfit
          simp only [Bump.fits.injEq] at h
          subst h
          exact ⟨le_nextMultipleOf _ _, Nat.le_of_not_lt hfit,
            dvd_nextMultipleOf _ (Nat.pos_of_ne_zero hpos)⟩

theorem le_of_bump_wraps (h : a.bump size align = .wraps) : size ≤ a.size := by
  simp only [Arena.bump] at h
  split at h
  · cases h
  · rename_i hle
    exact Nat.le_of_not_lt hle

theorem not_overlaps_of_stop_le (h : s.stop ≤ t.offset) : ¬ s.Overlaps t := by
  intro hov
  have hlt : t.offset < s.stop :=
    (le_max_right _ _).trans_lt (hov.trans_le (min_le_left _ _))
  exact absurd h (Nat.not_le.mpr hlt)

theorem not_overlaps_of_size_zero (h : s.size = 0) : ¬ s.Overlaps t := by
  intro hov
  have hlt : s.offset < s.stop :=
    (le_max_left _ _).trans_lt (hov.trans_le (min_le_left _ _))
  rw [Slot.stop, h] at hlt
  exact absurd hlt (Nat.lt_irrefl _)

theorem Slot.Overlaps.symm (h : s.Overlaps t) : t.Overlaps s := by
  unfold Slot.Overlaps at h ⊢
  rwa [max_comm, min_comm]

/-! ## The invariant -/

/-- The size of the request a thread wraps for. -/
def Phase.pending : Phase → Option ℕ
  | .unlocked size _ => some size
  | .draining size _ _ => some size
  | .idle | .holding _ => none

structure Inv (a : Arena) : Prop where
  safe : a.Safe
  cursor_le : a.cursor ≤ a.size
  /-- Live bytes lie below the cursor. -/
  below : ∀ i s, a.Live i s → s.size = 0 ∨ s.stop ≤ a.cursor
  /-- A slot that a thread writes is reserved, and no other thread writes it. -/
  reserved : ∀ t i, a.phase t = .holding i → i < a.slots.length ∧ a.status i = .reserved
  holder : ∀ t u i, a.phase t = .holding i → a.phase u = .holding i → t = u
  /-- `bump` has checked a request before it wraps for it. -/
  pending : ∀ t n, (a.phase t).pending = some n → n ≤ a.size

theorem inv_new (size : ℕ) : Inv (Arena.new size) where
  safe := {
    inside := by simp [Arena.new]
    aligned := by simp [Arena.new]
    disjoint := by simp [Arena.new, Arena.Live] }
  cursor_le := Nat.zero_le _
  below := by simp [Arena.new, Arena.Live]
  reserved := by simp [Arena.new]
  holder := by simp [Arena.new]
  pending := by simp [Arena.new, Phase.pending]

/-- A step that returns no range and revives no kernel keeps what the ranges promise. -/
theorem Inv.of_live (h : Inv a) (hsize : a'.size = a.size) (hcursor : a'.cursor = a.cursor)
    (hslots : a'.slots = a.slots) (hlive : ∀ i s, a'.Live i s → a.Live i s)
    (hreserved : ∀ t i, a'.phase t = .holding i → a.phase t = .holding i ∧
      a'.status i = .reserved)
    (hpending : ∀ t n, (a'.phase t).pending = some n → n ≤ a.size) : Inv a' where
  safe := {
    inside := by rw [hslots, hsize]; exact h.safe.inside
    aligned := by rw [hslots]; exact h.safe.aligned
    disjoint := fun i j s t hij hs ht =>
      h.safe.disjoint i j s t hij (hlive i s hs) (hlive j t ht) }
  cursor_le := by rw [hcursor, hsize]; exact h.cursor_le
  below i s hs := by rw [hcursor]; exact h.below i s (hlive i s hs)
  reserved t i ht := by
    obtain ⟨hold, hst⟩ := hreserved t i ht
    rw [hslots]
    exact ⟨(h.reserved t i hold).1, hst⟩
  holder t u i ht hu := h.holder t u i (hreserved t i ht).1 (hreserved u i hu).1
  pending := by rw [hsize]; exact hpending

/-- What the phases ask for after thread `tid` has taken up phase `p`. -/
theorem Inv.pending_update (h : Inv a) {p : Phase} (hp : ∀ n, p.pending = some n → n ≤ a.size)
    (t n : ℕ) (ht : (Function.update a.phase tid p t).pending = some n) : n ≤ a.size := by
  by_cases heq : t = tid
  · subst heq
    rw [Function.update_self] at ht
    exact hp n ht
  · rw [Function.update_of_ne heq] at ht
    exact h.pending t n ht

/-- A thread that takes up another phase than writing a slot changes no promise. -/
theorem Inv.setPhase (h : Inv a) {p : Phase} (hp : ∀ i, p ≠ .holding i)
    (hpend : ∀ n, p.pending = some n → n ≤ a.size) : Inv (a.setPhase tid p) := by
  refine h.of_live rfl rfl rfl (fun _ _ hlive => hlive) ?_ (h.pending_update hpend)
  intro t i ht
  by_cases heq : t = tid
  · subst heq
    rw [phase_setPhase, Function.update_self] at ht
    exact absurd ht (hp i)
  · rw [phase_setPhase, Function.update_of_ne heq] at ht
    exact ⟨ht, (h.reserved t i ht).2⟩

/-- The writer of slot `i` is done with it: its kernel runs, or never will. -/
theorem Inv.release (h : Inv a) (hold : a.phase tid = .holding i) (st : SlotStatus) :
    Inv ((a.setStatus i st).setPhase tid .idle) := by
  have hres := h.reserved tid i hold
  refine h.of_live rfl rfl rfl ?_ ?_ (h.pending_update fun n hn => by cases hn)
  · intro j s hlive
    refine ⟨hlive.1, ?_⟩
    by_cases heq : j = i
    · rw [heq, hres.2]
      exact SlotStatus.noConfusion
    · have hne := hlive.2
      rwa [status_setPhase, status_setStatus, Function.update_of_ne heq] at hne
  · intro u j hu
    by_cases heq : u = tid
    · subst heq
      rw [phase_setPhase, Function.update_self] at hu
      cases hu
    · rw [phase_setPhase, phase_setStatus, Function.update_of_ne heq] at hu
      have hne : j ≠ i := fun hji => heq (h.holder u tid i (hji ▸ hu) hold)
      refine ⟨hu, ?_⟩
      rw [status_setPhase, status_setStatus, Function.update_of_ne hne]
      exact (h.reserved u j hu).2

theorem Inv.retire (h : Inv a) (hd : a.status i = .dispatched) :
    Inv (a.setStatus i .retired) := by
  refine h.of_live rfl rfl rfl ?_ ?_ h.pending
  · intro j s hlive
    refine ⟨hlive.1, ?_⟩
    by_cases heq : j = i
    · rw [heq, hd]
      exact SlotStatus.noConfusion
    · have hne := hlive.2
      rwa [status_setStatus, Function.update_of_ne heq] at hne
  · intro u j hu
    have hres := (h.reserved u j hu).2
    have hne : j ≠ i := by
      intro hji
      rw [hji, hd] at hres
      cases hres
    refine ⟨hu, ?_⟩
    rw [status_setStatus, Function.update_of_ne hne]
    exact hres

/-! ## Reservations -/

theorem live_reserve (h : (a.reserve tid offset size align).Live i s) :
    i = a.slots.length ∧ s = { offset, size, align } ∨ a.Live i s := by
  obtain ⟨hslot, hstatus⟩ := h
  rcases Nat.lt_trichotomy i a.slots.length with hlt | heq | hgt
  · refine Or.inr ⟨?_, ?_⟩
    · rwa [slots_reserve, List.getElem?_append_left hlt] at hslot
    · rwa [status_reserve, Function.update_of_ne (Nat.ne_of_lt hlt)] at hstatus
  · refine Or.inl ⟨heq, ?_⟩
    rw [slots_reserve, heq, List.getElem?_concat_length, Option.some.injEq] at hslot
    exact hslot.symm
  · rw [slots_reserve, List.getElem?_eq_none (by rw [List.length_append]; exact hgt)]
      at hslot
    cases hslot

theorem live_reserve_self :
    (a.reserve tid offset size align).Live a.slots.length { offset, size, align } := by
  refine ⟨List.getElem?_concat_length, ?_⟩
  rw [status_reserve, Function.update_self]
  exact SlotStatus.noConfusion

theorem live_lt_length (h : a.Live i s) : i < a.slots.length :=
  (List.getElem?_eq_some_iff.mp h.1).1

theorem Arena.Live.reserve (h : a.Live i s) : (a.reserve tid offset size align).Live i s := by
  have hlt := live_lt_length h
  refine ⟨?_, ?_⟩
  · rw [slots_reserve, List.getElem?_append_left hlt]
    exact h.1
  · rw [status_reserve, Function.update_of_ne (Nat.ne_of_lt hlt)]
    exact h.2

/-- A reservation behind which nothing is live keeps the invariant. -/
theorem Inv.reserve (h : Inv a) (hidle : ∀ i, a.phase tid ≠ .holding i)
    (hinside : offset + size ≤ a.size) (hdvd : align ∣ offset)
    (hbehind : ∀ i s, a.Live i s → s.size = 0 ∨ s.stop ≤ offset) :
    Inv (a.reserve tid offset size align) := by
  have hfree : ∀ i s, a.Live i s → ¬ s.Overlaps { offset, size, align } := by
    intro i s hs
    rcases hbehind i s hs with hzero | hle
    · exact not_overlaps_of_size_zero hzero
    · exact not_overlaps_of_stop_le hle
  constructor
  · constructor
    · intro s hs
      rcases List.mem_append.mp hs with hs | hs
      · exact h.safe.inside s hs
      · rw [List.mem_singleton.mp hs]
        exact hinside
    · intro s hs
      rcases List.mem_append.mp hs with hs | hs
      · exact h.safe.aligned s hs
      · rw [List.mem_singleton.mp hs]
        exact hdvd
    · intro i j s t hij hs ht
      rcases live_reserve hs with ⟨hi, rfl⟩ | hs <;> rcases live_reserve ht with ⟨hj, rfl⟩ | ht
      · exact absurd (hi.trans hj.symm) hij
      · exact fun hov => hfree j t ht hov.symm
      · exact hfree i s hs
      · exact h.safe.disjoint i j s t hij hs ht
  · exact hinside
  · intro i s hs
    rcases live_reserve hs with ⟨-, rfl⟩ | hs
    · exact Or.inr (Nat.le_refl _)
    · exact (hbehind i s hs).imp_right fun hle => hle.trans (Nat.le_add_right _ _)
  · intro u i hu
    have hlen : (a.reserve tid offset size align).slots.length = a.slots.length + 1 :=
      List.length_append
    by_cases heq : u = tid
    · subst heq
      rw [phase_reserve, Function.update_self, Phase.holding.injEq] at hu
      subst hu
      rw [hlen, status_reserve, Function.update_self]
      exact ⟨Nat.lt_succ_self _, rfl⟩
    · rw [phase_reserve, Function.update_of_ne heq] at hu
      obtain ⟨hlt, hst⟩ := h.reserved u i hu
      refine ⟨by omega, ?_⟩
      rw [status_reserve, Function.update_of_ne (Nat.ne_of_lt hlt)]
      exact hst
  · intro u v i hu hv
    -- the new slot has a number that no thread held before
    have hnew : ∀ w, w ≠ tid → (a.reserve tid offset size align).phase w = .holding i →
        a.phase w = .holding i := by
      intro w hw hph
      rwa [phase_reserve, Function.update_of_ne hw] at hph
    have hself : (a.reserve tid offset size align).phase tid = .holding i → i = a.slots.length := by
      intro hph
      rw [phase_reserve, Function.update_self, Phase.holding.injEq] at hph
      exact hph.symm
    by_cases hut : u = tid <;> by_cases hvt : v = tid
    · rw [hut, hvt]
    · have hi := hself (hut ▸ hu)
      have hlt := (h.reserved v i (hnew v hvt hv)).1
      omega
    · have hi := hself (hvt ▸ hv)
      have hlt := (h.reserved u i (hnew u hut hu)).1
      omega
    · exact h.holder u v i (hnew u hut hu) (hnew v hvt hv)
  · exact h.pending_update fun n hn => by cases hn

/-! ## Steps -/

theorem step_wrap (h : step a (.wrap tid) = some a') :
    ∃ size align waited, a.phase tid = .draining size align waited ∧
      a' = a.reserve tid 0 size align := by
  simp only [step] at h
  split at h
  · rename_i size align waited hphase
    split at h
    · rw [Option.some.injEq] at h
      exact ⟨size, align, waited, hphase, h.symm⟩
    · cases h
  · cases h

theorem inv_step (h : Inv a) {l : Label} (hok : WrapsQuiet a l)
    (hstep : step a l = some a') : Inv a' := by
  cases l with
  | bump t size align =>
    simp only [step] at hstep
    split at hstep
    · rename_i hidle
      split at hstep
      · simp only [Option.some.injEq] at hstep
        exact hstep ▸ h
      · simp only [Option.some.injEq] at hstep
        exact hstep ▸ h
      · rename_i hwraps
        simp only [Option.some.injEq] at hstep
        refine hstep ▸ h.setPhase (fun _ => Phase.noConfusion) ?_
        rintro n ⟨⟩
        exact le_of_bump_wraps hwraps
      · rename_i offset hfits
        simp only [Option.some.injEq] at hstep
        obtain ⟨hcursor, hinside, hdvd⟩ := bump_eq_fits hfits
        refine hstep ▸ h.reserve (by simp [hidle]) hinside hdvd ?_
        exact fun i s hs => (h.below i s hs).imp_right fun hle => hle.trans hcursor
    · cases hstep
  | drain t =>
    simp only [step] at hstep
    split at hstep
    · rename_i size align hphase
      simp only [Option.some.injEq] at hstep
      refine hstep ▸ h.setPhase (fun _ => Phase.noConfusion) ?_
      rintro n ⟨⟩
      exact h.pending t size (by rw [hphase]; rfl)
    · cases hstep
  | drainFails t =>
    simp only [step] at hstep
    split at hstep
    · simp only [Option.some.injEq] at hstep
      exact hstep ▸ h.setPhase (fun _ => Phase.noConfusion) fun n hn => by cases hn
    · simp only [Option.some.injEq] at hstep
      exact hstep ▸ h.setPhase (fun _ => Phase.noConfusion) fun n hn => by cases hn
    · cases hstep
  | wrap t =>
    obtain ⟨size, align, waited, hphase, rfl⟩ := step_wrap hstep
    have hle := h.pending t size (by rw [hphase]; rfl)
    refine h.reserve (by simp [hphase]) ?_ (Nat.dvd_zero _) ?_
    · rw [Nat.zero_add]
      exact hle
    · exact fun i s hs => Or.inl (hok i s hs)
  | dispatch t | abandon t =>
    simp only [step] at hstep
    split at hstep
    · rename_i i hold
      simp only [Option.some.injEq] at hstep
      exact hstep ▸ h.release hold _
    · cases hstep
  | retire i =>
    simp only [step] at hstep
    split at hstep
    · rename_i hd
      simp only [Option.some.injEq] at hstep
      exact hstep ▸ h.retire hd
    · cases hstep

theorem size_step {l : Label} (h : step a l = some a') : a'.size = a.size := by
  cases l <;> simp only [step] at h <;> repeat' split at h
  all_goals (cases h <;> rfl)

/-! ## Runs -/

theorem inv_run (h : Run step WrapsQuiet (Arena.new size) a) : Inv a :=
  h.invariant (fun _ _ _ hinv hok hs => inv_step hinv hok hs) (inv_new size)

theorem size_run (h : Run step WrapsQuiet (Arena.new size) a) : a.size = size :=
  h.invariant (I := fun b => b.size = size) (fun _ _ _ hb _ hs => (size_step hs).trans hb) rfl

/-- The range from the cursor to `stop` can be had with one more request. -/
theorem bump_upto {stop : ℕ} (hlt : a.cursor < stop) (hstop : stop ≤ a.size)
    (hsize : a.size < Checked.wordSize) :
    a.bump (stop - a.cursor) 1 = .fits a.cursor := by
  have haligned : nextMultipleOf a.cursor 1 = a.cursor := by
    rw [nextMultipleOf, Nat.mod_one, if_pos rfl]
  rw [Arena.bump, haligned]
  rw [if_neg (by omega), if_neg Nat.one_ne_zero]
  show (if _ then _ else _) = _
  rw [if_neg (by omega), if_neg (by omega)]

/-- A wrap over a live byte hands it out at once, or the same thread's next request can. -/
theorem unsafe_of_live (h : Inv a) (hsize : a.size < Checked.wordSize)
    (hwrap : step a (.wrap tid) = some a') (hlive : a.Live i s) (hpos : s.size ≠ 0) :
    ∃ a'', Run step WrapsQuiet a' a'' ∧ ¬ a''.Safe := by
  obtain ⟨size, align, waited, hphase, rfl⟩ := step_wrap hwrap
  have hne : i ≠ a.slots.length := Nat.ne_of_lt (live_lt_length hlive)
  by_cases hcase : s.stop ≤ size
  · refine ⟨_, Run.refl, fun hsafe => ?_⟩
    refine hsafe.disjoint i a.slots.length s _ hne hlive.reserve live_reserve_self ?_
    show max s.offset 0 < min s.stop (0 + size)
    have hstop : s.stop = s.offset + s.size := rfl
    omega
  · -- the thread dispatches its own kernel and asks for the bytes up to the end of `s`
    let b := a.reserve tid 0 size align
    let c := (b.setStatus a.slots.length .dispatched).setPhase tid .idle
    have hcursor : c.cursor = size := Nat.zero_add size
    have hinside : s.stop ≤ a.size := h.safe.inside s (List.mem_of_getElem? hlive.1)
    have hdispatch : step b (.dispatch tid) = some c := by
      simp only [step, b, c, phase_reserve, Function.update_self]
    have hbump : step c (.bump tid (s.stop - size) 1) =
        some (c.reserve tid size (s.stop - size) 1) := by
      have hfits : c.bump (s.stop - size) 1 = .fits size := by
        have hupto : c.bump (s.stop - c.cursor) 1 = .fits c.cursor :=
          bump_upto (by omega) hinside hsize
        rwa [hcursor] at hupto
      have hidle : c.phase tid = .idle := Function.update_self _ _ _
      simp only [step, hidle, hfits]
    have hlive' : c.Live i s := by
      have hkept : (a.reserve tid 0 size align).Live i s := hlive.reserve
      obtain ⟨hslot, hstatus⟩ := hkept
      refine ⟨hslot, ?_⟩
      show Function.update b.status a.slots.length .dispatched i ≠ .retired
      rwa [Function.update_of_ne hne]
    have hok : ∀ x l, (∀ u, l ≠ .wrap u) → WrapsQuiet x l := by
      intro x l hl
      cases l with
      | wrap u => exact absurd rfl (hl u)
      | _ => exact trivial
    have hrun : Run step WrapsQuiet b (c.reserve tid size (s.stop - size) 1) :=
      (Run.single (hok _ _ fun _ => Label.noConfusion) hdispatch).tail
        (hok _ _ fun _ => Label.noConfusion) hbump
    refine ⟨_, hrun, fun hsafe => ?_⟩
    refine hsafe.disjoint i c.slots.length s _ ?_ hlive'.reserve live_reserve_self ?_
    · exact Nat.ne_of_lt (live_lt_length hlive')
    · show max s.offset size < min s.stop (size + (s.stop - size))
      have hstop : s.stop = s.offset + s.size := rfl
      omega

/-- In every run whose wraps find the arena quiet, `bump` hands out aligned ranges inside the
    arena that meet no live byte.  The condition is exact: after a wrap the ranges stay so for
    good if and only if it found the arena quiet. -/
theorem bump_safe (size : ℕ) (hsize : size < Checked.wordSize) (a : Arena)
    (h : Run step WrapsQuiet (Arena.new size) a) :
    a.Safe ∧ ∀ tid a', step a (.wrap tid) = some a' →
      ((∀ a'', Run step WrapsQuiet a' a'' → a''.Safe) ↔ a.Quiet) := by
  have hinv := inv_run h
  refine ⟨hinv.safe, fun tid a' hwrap => ⟨fun hall => ?_, fun hquiet a'' hrun => ?_⟩⟩
  · intro i s hlive
    by_contra hpos
    have hlt : a.size < Checked.wordSize := by rw [size_run h]; exact hsize
    obtain ⟨a'', hrun, hunsafe⟩ := unsafe_of_live hinv hlt hwrap hlive hpos
    exact hunsafe (hall a'' hrun)
  · have hok : WrapsQuiet a (.wrap tid) := hquiet
    have hstart : Run step WrapsQuiet (Arena.new size) a' := h.tail hok hwrap
    exact (inv_run (hstart.trans hrun)).safe

/-- One lane fills the arena, its kernel retires, and the next request wraps. -/
def wrapRun : List Label :=
  [.bump 0 arenaBytes 16, .dispatch 0, .retire 0, .bump 0 256 16, .drain 0]

/-- The wrap of this run finds the arena quiet, so both parts of the theorem apply to it. -/
theorem bump_safe_wrapRun :
    ∃ a a', exec step (Arena.new arenaBytes) wrapRun = some a ∧ step a (.wrap 0) = some a' ∧
      (a.Safe ∧ ∀ tid a', step a (.wrap tid) = some a' →
        ((∀ a'', Run step WrapsQuiet a' a'' → a''.Safe) ↔ a.Quiet)) := by
  let a₁ := (Arena.new arenaBytes).reserve 0 0 arenaBytes 16
  let a₂ := ((a₁.setStatus 0 .dispatched).setPhase 0 .idle).setStatus 0 .retired
  let a₃ := (a₂.setPhase 0 (.unlocked 256 16)).setPhase 0 (.draining 256 16 [])
  have hsteps : exec step (Arena.new arenaBytes) wrapRun = some a₃ := rfl
  refine ⟨a₃, a₃.reserve 0 0 256 16, hsteps, rfl, ?_⟩
  refine bump_safe arenaBytes (by decide) a₃ ?_
  exact run_of_exec (by simp [wrapRun, WrapsQuiet]) hsteps

/-! ## Two lanes wrap at once -/

/-- Lane 0 has filled the arena and its kernel has retired.  Both lanes then find no room, drain
    an idle device, and each takes the cursor back to zero. -/
def twoWraps : List Label :=
  [.bump 0 arenaBytes 16, .dispatch 0, .retire 0, .bump 0 256 16, .bump 1 256 16, .drain 0,
    .drain 1, .wrap 0, .wrap 1]

/-- Two lanes write the same slot. -/
theorem bump_overlaps_twoWraps :
    ¬ ∀ a, Run step (fun _ _ => True) (Arena.new arenaBytes) a → a.Safe := by
  intro hall
  have hsome : (exec step (Arena.new arenaBytes) twoWraps).isSome = true := by decide
  have hrun : Run step (fun _ _ => True) (Arena.new arenaBytes)
      ((exec step (Arena.new arenaBytes) twoWraps).get hsome) :=
    run_of_exec (fun _ _ _ => trivial) (Option.some_get hsome).symm
  have hfirst : ((exec step (Arena.new arenaBytes) twoWraps).get hsome).Live 1 ⟨0, 256, 16⟩ :=
    ⟨rfl, fun h => SlotStatus.noConfusion (show SlotStatus.reserved = .retired from h)⟩
  have hsecond : ((exec step (Arena.new arenaBytes) twoWraps).get hsome).Live 2 ⟨0, 256, 16⟩ :=
    ⟨rfl, fun h => SlotStatus.noConfusion (show SlotStatus.reserved = .retired from h)⟩
  exact (hall _ hrun).disjoint 1 2 _ _ (by decide) hfirst hsecond (by decide)

end Svod.Device.Kernarg
