/-
  Svod.Lib.Lanes

  In-order lanes that synchronise by published values.

  A program is a list of submissions.  Each one belongs to a lane; a lane runs
  its own submissions in list order, one after the other, and its commands one
  after the other.  A submission starts once every `(lane, value)` it waits for
  is published, and publishes its own `signal` after its last command.  Nothing
  else orders the lanes, so a run interleaves them in any way.

  `WellOrdered` lists what a program has to satisfy: the signals of a lane grow
  and a wait names the signal of an earlier submission.  Then every run keeps
  the commands in the order `Precedes`, no state is stuck before the end, and
  every run ends with each command begun and finished exactly once.
-/

import Mathlib.Algebra.Order.BigOperators.Group.Finset

namespace Svod.Lib.Lanes

open Relation

variable {L C : Type}
variable {b : ℕ} {c : C}

/-! ## Programs -/

/-- A batch of commands for one lane. -/
structure Submission (L C : Type) where
  lane : L
  waits : List (L × ℕ)
  commands : List C
  signal : ℕ

/-- What a program must satisfy for its runs to be safe and to end. -/
structure WellOrdered (subs : List (Submission L C)) : Prop where
  signals : subs.Pairwise fun s t => s.lane = t.lane → s.signal < t.signal
  waits : ∀ (b : ℕ) (t : Submission L C), subs[b]? = some t → ∀ w ∈ t.waits,
    ∃ (a : ℕ) (s : Submission L C), a < b ∧ subs[a]? = some s ∧ s.lane = w.1 ∧ s.signal = w.2
  nodup : (subs.flatMap Submission.commands).Nodup

/-- Submission `s` at position `a` is complete before `t` at position `b` starts: it stands
    earlier on the same lane, or `t` waits for its signal or a later one of its lane. -/
def Ordered (a b : ℕ) (s t : Submission L C) : Prop :=
  (a < b ∧ s.lane = t.lane) ∨ ∃ w ∈ t.waits, w.1 = s.lane ∧ s.signal ≤ w.2

/-- Command `c` is finished before `d` begins: an earlier command of the same submission, or one
    of a submission that comes first. -/
def Precedes (subs : List (Submission L C)) (c d : C) : Prop :=
  ∃ (a b : ℕ) (s t : Submission L C) (j k : ℕ),
    subs[a]? = some s ∧ subs[b]? = some t ∧ s.commands[j]? = some c ∧ t.commands[k]? = some d ∧
      ((a = b ∧ j < k) ∨ Ordered a b s t)

/-! ## Runs -/

inductive Event (C : Type) where
  | began (c : C)
  | finished (c : C)
  deriving DecidableEq, Repr

/-- `ready k`: `k` commands are finished and none is in flight; `busy k`: command `k` is. -/
inductive Phase where
  | waiting
  | ready (k : ℕ)
  | busy (k : ℕ)
  | done
  deriving DecidableEq, Repr

/-- How many of `len` commands have begun. -/
def Phase.begun (len : ℕ) : Phase → ℕ
  | .waiting => 0
  | .ready k => k
  | .busy k => k + 1
  | .done => len

/-- How many of `len` commands are finished. -/
def Phase.ended (len : ℕ) : Phase → ℕ
  | .waiting => 0
  | .ready k => k
  | .busy k => k
  | .done => len

/-- How many steps a submission of `len` commands has taken. -/
def Phase.steps (len : ℕ) : Phase → ℕ
  | .waiting => 0
  | .ready k => 2 * k + 1
  | .busy k => 2 * k + 2
  | .done => 2 * len + 2

/-- The phase of each submission by its position, the values published so far, and what the
    commands did, in order of time. -/
structure State (L C : Type) where
  phase : ℕ → Phase
  published : List (L × ℕ)
  trace : List (Event C)

def State.initial : State L C := { phase := fun _ => .waiting, published := [], trace := [] }

/-- Submission `b` moves to phase `p`. -/
def State.move (σ : State L C) (b : ℕ) (p : Phase) : ℕ → Phase :=
  Function.update σ.phase b p

inductive Step (subs : List (Submission L C)) : State L C → State L C → Prop where
  | start {σ : State L C} {b : ℕ} {t : Submission L C} (ht : subs[b]? = some t)
      (hp : σ.phase b = .waiting)
      (hlane : ∀ (a : ℕ) (s : Submission L C), a < b → subs[a]? = some s → s.lane = t.lane →
        σ.phase a = .done)
      (hwaits : ∀ w ∈ t.waits, w ∈ σ.published) :
      Step subs σ { σ with phase := σ.move b (.ready 0) }
  | begin {σ : State L C} {b k : ℕ} {t : Submission L C} {c : C} (ht : subs[b]? = some t)
      (hp : σ.phase b = .ready k) (hc : t.commands[k]? = some c) :
      Step subs σ { σ with phase := σ.move b (.busy k), trace := σ.trace ++ [.began c] }
  | finish {σ : State L C} {b k : ℕ} {t : Submission L C} {c : C} (ht : subs[b]? = some t)
      (hp : σ.phase b = .busy k) (hc : t.commands[k]? = some c) :
      Step subs σ { σ with phase := σ.move b (.ready (k + 1)), trace := σ.trace ++ [.finished c] }
  | publish {σ : State L C} {b : ℕ} {t : Submission L C} (ht : subs[b]? = some t)
      (hp : σ.phase b = .ready t.commands.length) :
      Step subs σ { σ with phase := σ.move b .done, published := (t.lane, t.signal) :: σ.published }

/-- The states of all runs. -/
def Reachable (subs : List (Submission L C)) (σ : State L C) : Prop :=
  ReflTransGen (Step subs) State.initial σ

def AllDone (subs : List (Submission L C)) (σ : State L C) : Prop :=
  ∀ b < subs.length, σ.phase b = .done

/-- Wherever `f` stands in the trace, `e` stands before it. -/
def Before (trace : List (Event C)) (e f : Event C) : Prop :=
  ∀ pre, pre ++ [f] <+: trace → e ∈ pre

theorem before_nil (e f : Event C) : Before [] e f := by
  intro pre h
  simp at h

variable {trace : List (Event C)}

theorem before_append {e f g : Event C} (h : Before trace e f) (hg : f = g → e ∈ trace) :
    Before (trace ++ [g]) e f := by
  intro pre hpre
  rw [List.prefix_concat_iff] at hpre
  cases hpre with
  | inl heq =>
    have ⟨hp, hf⟩ := List.append_inj' heq rfl
    rw [hp]
    exact hg (by simpa using hf)
  | inr hold => exact h pre hold

/-! ## The invariant -/

/-- Command `c` is among the first `count` commands of its submission. -/
def Ran (subs : List (Submission L C)) (phase : ℕ → Phase) (count : ℕ → Phase → ℕ) (c : C) : Prop :=
  ∃ (a : ℕ) (s : Submission L C) (k : ℕ),
    subs[a]? = some s ∧ s.commands[k]? = some c ∧ k < count s.commands.length (phase a)

theorem move_self (σ : State L C) (b : ℕ) (p : Phase) : σ.move b p b = p := by
  unfold State.move
  rw [Function.update_self]

theorem move_of_ne (σ : State L C) {a b : ℕ} (p : Phase) (h : a ≠ b) : σ.move b p a = σ.phase a := by
  unfold State.move
  rw [Function.update_of_ne h]

variable {subs : List (Submission L C)} {σ : State L C} {t : Submission L C} {p : Phase}

/-- A step of `b` that leaves the count of `b` alone changes no command. -/
theorem ran_move_eq {count : ℕ → Phase → ℕ} (ht : subs[b]? = some t)
    (heq : count t.commands.length p = count t.commands.length (σ.phase b)) (c : C) :
    Ran subs (σ.move b p) count c ↔ Ran subs σ.phase count c := by
  unfold Ran
  refine exists_congr fun a => exists_congr fun s => exists_congr fun k => ?_
  by_cases hab : a = b
  · subst hab
    rw [move_self, ht]
    constructor
    · rintro ⟨hs, hc, hk⟩
      cases hs
      exact ⟨rfl, hc, by omega⟩
    · rintro ⟨hs, hc, hk⟩
      cases hs
      exact ⟨rfl, hc, by omega⟩
  · rw [move_of_ne σ p hab]

/-- A step of `b` that raises the count of `b` by one adds the command at the old count. -/
theorem ran_move_succ {count : ℕ → Phase → ℕ} {d : C} (ht : subs[b]? = some t)
    (hd : t.commands[count t.commands.length (σ.phase b)]? = some d)
    (hsucc : count t.commands.length p = count t.commands.length (σ.phase b) + 1) (c : C) :
    Ran subs (σ.move b p) count c ↔ Ran subs σ.phase count c ∨ c = d := by
  constructor
  · rintro ⟨a, s, k, hs, hc, hk⟩
    by_cases hab : a = b
    · subst hab
      rw [ht] at hs
      cases hs
      rw [move_self, hsucc] at hk
      by_cases hlast : k = count t.commands.length (σ.phase a)
      · right
        rw [hlast, hd] at hc
        exact (Option.some.inj hc).symm
      · exact Or.inl ⟨a, t, k, ht, hc, by omega⟩
    · rw [move_of_ne σ p hab] at hk
      exact Or.inl ⟨a, s, k, hs, hc, hk⟩
  · rintro (⟨a, s, k, hs, hc, hk⟩ | rfl)
    · refine ⟨a, s, k, hs, hc, ?_⟩
      by_cases hab : a = b
      · subst hab
        rw [ht] at hs
        cases hs
        rw [move_self, hsucc]
        omega
      · rw [move_of_ne σ p hab]
        exact hk
    · refine ⟨b, t, _, ht, hd, ?_⟩
      rw [move_self, hsucc]
      omega

/-- A command stands at one place of the program. -/
theorem position_unique (hnodup : (subs.flatMap Submission.commands).Nodup) {a b j k : ℕ}
    {s t : Submission L C} (hs : subs[a]? = some s) (ht : subs[b]? = some t)
    (hj : s.commands[j]? = some c) (hk : t.commands[k]? = some c) : a = b ∧ j = k := by
  obtain ⟨hinner, houter⟩ := List.nodup_flatMap.mp hnodup
  have hcs : c ∈ s.commands := List.mem_of_getElem? hj
  have hct : c ∈ t.commands := List.mem_of_getElem? hk
  obtain ⟨ha, hs'⟩ := List.getElem?_eq_some_iff.mp hs
  obtain ⟨hb, ht'⟩ := List.getElem?_eq_some_iff.mp ht
  have hab : a = b := by
    rcases Nat.lt_trichotomy a b with hlt | heq | hgt
    · have hdis := List.pairwise_iff_getElem.mp houter a b ha hb hlt
      rw [hs', ht'] at hdis
      exact absurd hct (hdis hcs)
    · exact heq
    · have hdis := List.pairwise_iff_getElem.mp houter b a hb ha hgt
      rw [hs', ht'] at hdis
      exact absurd hcs (hdis hct)
  subst hab
  rw [hs] at ht
  cases ht
  have hjl := (List.getElem?_eq_some_iff.mp hj).1
  refine ⟨rfl, ?_⟩
  apply (List.getElem?_inj hjl (hinner s (List.mem_of_getElem? hs))).mp
  rw [hj, hk]

structure Inv (subs : List (Submission L C)) (σ : State L C) : Prop where
  published_of_done : ∀ (a : ℕ) (s : Submission L C), subs[a]? = some s → σ.phase a = .done →
    (s.lane, s.signal) ∈ σ.published
  done_of_published : ∀ w ∈ σ.published, ∃ (a : ℕ) (s : Submission L C),
    subs[a]? = some s ∧ s.lane = w.1 ∧ s.signal = w.2 ∧ σ.phase a = .done
  started : ∀ (b : ℕ) (t : Submission L C), subs[b]? = some t → σ.phase b ≠ .waiting →
    (∀ (a : ℕ) (s : Submission L C), a < b → subs[a]? = some s → s.lane = t.lane →
      σ.phase a = .done) ∧ ∀ w ∈ t.waits, w ∈ σ.published
  within : ∀ (b : ℕ) (t : Submission L C), subs[b]? = some t →
    (σ.phase b).begun t.commands.length ≤ t.commands.length
  began_iff : ∀ c, .began c ∈ σ.trace ↔ Ran subs σ.phase Phase.begun c
  finished_iff : ∀ c, .finished c ∈ σ.trace ↔ Ran subs σ.phase Phase.ended c
  nodup : σ.trace.Nodup

theorem initial_inv (subs : List (Submission L C)) : Inv subs State.initial where
  published_of_done := by
    intro a s _ hdone
    cases hdone
  done_of_published := by
    intro w hw
    cases hw
  started := by
    intro b t _ hp
    exact absurd rfl hp
  within := by
    intro b t _
    exact Nat.zero_le _
  began_iff := by
    intro c
    constructor
    · intro h
      cases h
    · rintro ⟨_, _, k, _, _, hk⟩
      exact absurd hk (Nat.not_lt_zero k)
  finished_iff := by
    intro c
    constructor
    · intro h
      cases h
    · rintro ⟨_, _, k, _, _, hk⟩
      exact absurd hk (Nat.not_lt_zero k)
  nodup := List.nodup_nil

theorem move_done {a b : ℕ} (hb : σ.phase b ≠ .done) (ha : σ.phase a = .done) :
    σ.move b p a = .done := by
  have hab : a ≠ b := by
    intro h
    rw [h] at ha
    exact hb ha
  rw [move_of_ne σ p hab]
  exact ha

/-- What a submission needed to start still holds after another step. -/
theorem started_move {published : List (L × ℕ)} (hi : Inv subs σ) (hb : σ.phase b ≠ .done)
    (hsub : ∀ w ∈ σ.published, w ∈ published) (hnew : ∀ t, subs[b]? = some t →
      (∀ (a : ℕ) (s : Submission L C), a < b → subs[a]? = some s → s.lane = t.lane →
        σ.phase a = .done) ∧ ∀ w ∈ t.waits, w ∈ σ.published) (b' : ℕ) (t' : Submission L C)
    (ht' : subs[b']? = some t') (hp' : σ.move b p b' ≠ .waiting) :
    (∀ (a : ℕ) (s : Submission L C), a < b' → subs[a]? = some s → s.lane = t'.lane →
      σ.move b p a = .done) ∧ ∀ w ∈ t'.waits, w ∈ published := by
  have hold : (∀ (a : ℕ) (s : Submission L C), a < b' → subs[a]? = some s → s.lane = t'.lane →
      σ.phase a = .done) ∧ ∀ w ∈ t'.waits, w ∈ σ.published := by
    by_cases h : b' = b
    · subst h
      exact hnew t' ht'
    · rw [move_of_ne σ p h] at hp'
      exact hi.started b' t' ht' hp'
  constructor
  · intro a s hlt hs hlane
    exact move_done hb (hold.1 a s hlt hs hlane)
  · intro w hw
    exact hsub w (hold.2 w hw)

theorem within_move (hi : Inv subs σ) (ht : subs[b]? = some t)
    (hp : p.begun t.commands.length ≤ t.commands.length) (b' : ℕ) (t' : Submission L C)
    (ht' : subs[b']? = some t') :
    (σ.move b p b').begun t'.commands.length ≤ t'.commands.length := by
  by_cases h : b' = b
  · subst h
    rw [ht] at ht'
    cases ht'
    rw [move_self]
    exact hp
  · rw [move_of_ne σ p h]
    exact hi.within b' t' ht'

/-- A move to a phase other than `done` finishes no submission. -/
theorem published_of_done_move (hi : Inv subs σ) (hp : p ≠ .done) (a : ℕ) (s : Submission L C)
    (hs : subs[a]? = some s) (hdone : σ.move b p a = .done) :
    (s.lane, s.signal) ∈ σ.published := by
  by_cases h : a = b
  · subst h
    rw [move_self] at hdone
    exact absurd hdone hp
  · rw [move_of_ne σ p h] at hdone
    exact hi.published_of_done a s hs hdone

theorem done_of_published_move (hi : Inv subs σ) (hb : σ.phase b ≠ .done) (w : L × ℕ)
    (hw : w ∈ σ.published) :
    ∃ (a : ℕ) (s : Submission L C),
      subs[a]? = some s ∧ s.lane = w.1 ∧ s.signal = w.2 ∧ σ.move b p a = .done := by
  obtain ⟨a, s, hs, hl, hv, hd⟩ := hi.done_of_published w hw
  exact ⟨a, s, hs, hl, hv, move_done hb hd⟩

/-- The command that is about to begin has not begun. -/
theorem not_began (hw : WellOrdered subs) (hi : Inv subs σ) {b k : ℕ} (ht : subs[b]? = some t)
    (hp : σ.phase b = .ready k) (hc : t.commands[k]? = some c) : .began c ∉ σ.trace := by
  intro hmem
  obtain ⟨a, s, j, hs, hj, hlt⟩ := (hi.began_iff c).mp hmem
  obtain ⟨hab, hjk⟩ := position_unique hw.nodup hs ht hj hc
  subst hab
  rw [hp] at hlt
  simp only [Phase.begun] at hlt
  omega

/-- The command in flight is not finished. -/
theorem not_finished (hw : WellOrdered subs) (hi : Inv subs σ) {b k : ℕ} (ht : subs[b]? = some t)
    (hp : σ.phase b = .busy k) (hc : t.commands[k]? = some c) : .finished c ∉ σ.trace := by
  intro hmem
  obtain ⟨a, s, j, hs, hj, hlt⟩ := (hi.finished_iff c).mp hmem
  obtain ⟨hab, hjk⟩ := position_unique hw.nodup hs ht hj hc
  subst hab
  rw [hp] at hlt
  simp only [Phase.ended] at hlt
  omega

theorem nodup_concat {e : Event C} (h : trace.Nodup) (he : e ∉ trace) : (trace ++ [e]).Nodup := by
  rw [List.nodup_append]
  refine ⟨h, List.nodup_singleton e, ?_⟩
  intro x hx y hy hxy
  rw [List.mem_singleton] at hy
  rw [hxy, hy] at hx
  exact he hx

theorem step_inv {σ σ' : State L C} (hw : WellOrdered subs) (hi : Inv subs σ)
    (hstep : Step subs σ σ') : Inv subs σ' := by
  cases hstep with
  | @start b t ht hp hlane hwaits =>
    have hb : σ.phase b ≠ .done := by
      rw [hp]
      simp
    exact {
      published_of_done := published_of_done_move hi (by simp)
      done_of_published := done_of_published_move hi hb
      started := by
        apply started_move hi hb (fun _ h => h)
        intro t' ht'
        rw [ht] at ht'
        cases ht'
        exact ⟨hlane, hwaits⟩
      within := within_move hi ht (Nat.zero_le _)
      began_iff := by
        intro c
        rw [ran_move_eq ht (by rw [hp]; rfl) c]
        exact hi.began_iff c
      finished_iff := by
        intro c
        rw [ran_move_eq ht (by rw [hp]; rfl) c]
        exact hi.finished_iff c
      nodup := hi.nodup }
  | @begin b k t d ht hp hd =>
    have hb : σ.phase b ≠ .done := by
      rw [hp]
      simp
    have hk : k < t.commands.length := (List.getElem?_eq_some_iff.mp hd).1
    exact {
      published_of_done := published_of_done_move hi (by simp)
      done_of_published := done_of_published_move hi hb
      started := by
        apply started_move hi hb (fun _ h => h)
        intro t' ht'
        apply hi.started b t' ht'
        rw [hp]
        simp
      within := within_move hi ht hk
      began_iff := by
        intro c
        rw [ran_move_succ (d := d) ht (by rw [hp]; exact hd) (by rw [hp]; rfl) c]
        rw [← hi.began_iff c]
        simp
      finished_iff := by
        intro c
        rw [ran_move_eq ht (by rw [hp]; rfl) c]
        rw [← hi.finished_iff c]
        simp
      nodup := nodup_concat hi.nodup (not_began hw hi ht hp hd) }
  | @finish b k t d ht hp hd =>
    have hb : σ.phase b ≠ .done := by
      rw [hp]
      simp
    have hk : k < t.commands.length := (List.getElem?_eq_some_iff.mp hd).1
    exact {
      published_of_done := published_of_done_move hi (by simp)
      done_of_published := done_of_published_move hi hb
      started := by
        apply started_move hi hb (fun _ h => h)
        intro t' ht'
        apply hi.started b t' ht'
        rw [hp]
        simp
      within := within_move hi ht hk
      began_iff := by
        intro c
        rw [ran_move_eq ht (by rw [hp]; rfl) c]
        rw [← hi.began_iff c]
        simp
      finished_iff := by
        intro c
        rw [ran_move_succ (d := d) ht (by rw [hp]; exact hd) (by rw [hp]; rfl) c]
        rw [← hi.finished_iff c]
        simp
      nodup := nodup_concat hi.nodup (not_finished hw hi ht hp hd) }
  | @publish b t ht hp =>
    have hb : σ.phase b ≠ .done := by
      rw [hp]
      simp
    exact {
      published_of_done := by
        intro a s hs hdone
        by_cases h : a = b
        · subst h
          rw [ht] at hs
          cases hs
          exact List.mem_cons_self
        · have hold : σ.phase a = .done := by
            rw [← move_of_ne σ .done h]
            exact hdone
          exact List.mem_cons_of_mem _ (hi.published_of_done a s hs hold)
      done_of_published := by
        intro w hmem
        cases List.mem_cons.mp hmem with
        | inl heq =>
          subst heq
          exact ⟨b, t, ht, rfl, rfl, move_self σ b _⟩
        | inr hold => exact done_of_published_move hi hb w hold
      started := by
        apply started_move hi hb (fun _ h => List.mem_cons_of_mem _ h)
        intro t' ht'
        apply hi.started b t' ht'
        rw [hp]
        simp
      within := within_move hi ht (Nat.le_refl _)
      began_iff := by
        intro c
        rw [ran_move_eq ht (by rw [hp]; rfl) c]
        exact hi.began_iff c
      finished_iff := by
        intro c
        rw [ran_move_eq ht (by rw [hp]; rfl) c]
        exact hi.finished_iff c
      nodup := hi.nodup }

theorem reachable_inv (hw : WellOrdered subs) (h : Reachable subs σ) : Inv subs σ := by
  induction h with
  | refl => exact initial_inv subs
  | tail _ hstep ih => exact step_inv hw ih hstep

/-! ## Order -/

/-- On a lane the signals grow with the position. -/
theorem signal_le_position (hw : WellOrdered subs) {a b : ℕ} {s t : Submission L C}
    (hs : subs[a]? = some s) (ht : subs[b]? = some t) (hlane : s.lane = t.lane)
    (hle : s.signal ≤ t.signal) : a ≤ b := by
  by_contra hlt
  obtain ⟨ha, hs'⟩ := List.getElem?_eq_some_iff.mp hs
  obtain ⟨hb, ht'⟩ := List.getElem?_eq_some_iff.mp ht
  have hsig := List.pairwise_iff_getElem.mp hw.signals b a hb ha (by omega)
  rw [hs', ht'] at hsig
  have := hsig hlane.symm
  omega

/-- Once `t` has started, a submission ordered before it is done. -/
theorem done_of_ordered (hw : WellOrdered subs) (hi : Inv subs σ) {a b : ℕ} {s t : Submission L C}
    (hs : subs[a]? = some s) (ht : subs[b]? = some t) (hstarted : σ.phase b ≠ .waiting)
    (hord : Ordered a b s t) : σ.phase a = .done := by
  have ⟨hlanes, hwaits⟩ := hi.started b t ht hstarted
  cases hord with
  | inl hsame => exact hlanes a s hsame.1 hs hsame.2
  | inr hwait =>
    -- the wait is published by some `r` of the same lane, at or after `s`
    obtain ⟨w, hmem, hwl, hle⟩ := hwait
    obtain ⟨r, sr, hr, hrl, hrv, hdone⟩ := hi.done_of_published w (hwaits w hmem)
    have hlane : s.lane = sr.lane := by rw [hrl, hwl]
    have hpos : a ≤ r := signal_le_position hw hs hr hlane (by omega)
    by_cases heq : a = r
    · rw [heq]
      exact hdone
    · have hrs : σ.phase r ≠ .waiting := by
        rw [hdone]
        simp
      exact (hi.started r sr hr hrs).1 a s (by omega) hs hlane

/-- When command `k` of `b` is about to begin, the commands that precede it are finished. -/
theorem finished_of_precedes (hw : WellOrdered subs) (hi : Inv subs σ) {b k : ℕ} {c d : C}
    (ht : subs[b]? = some t) (hp : σ.phase b = .ready k) (hd : t.commands[k]? = some d)
    (hprec : Precedes subs c d) : .finished c ∈ σ.trace := by
  obtain ⟨a, b', s, t', j, k', hs, ht', hj, hk', hcase⟩ := hprec
  obtain ⟨hb, hk⟩ := position_unique hw.nodup ht' ht hk' hd
  subst hb hk
  rw [ht'] at ht
  cases ht
  rw [hi.finished_iff c]
  refine ⟨a, s, j, hs, hj, ?_⟩
  cases hcase with
  | inl hsame =>
    rw [hsame.1, hp]
    exact hsame.2
  | inr hord =>
    have hstarted : σ.phase b' ≠ .waiting := by
      rw [hp]
      simp
    rw [done_of_ordered hw hi hs ht' hstarted hord]
    exact (List.getElem?_eq_some_iff.mp hj).1

/-- In every run a command begins only after the commands that precede it have finished. -/
theorem reachable_before (hw : WellOrdered subs) (h : Reachable subs σ) {c d : C}
    (hprec : Precedes subs c d) : Before σ.trace (.finished c) (.began d) := by
  induction h with
  | refl => exact before_nil _ _
  | @tail σ₁ σ₂ hreach hstep ih =>
    have hi := reachable_inv hw hreach
    cases hstep with
    | start ht hp hlane hwaits => exact ih
    | @begin b k t e ht hp he =>
      apply before_append ih
      intro hde
      cases hde
      exact finished_of_precedes hw hi ht hp he hprec
    | finish ht hp he =>
      apply before_append ih
      intro hde
      cases hde
    | publish ht hp => exact ih

/-! ## Progress -/

/-- While some submission is not done, one of them can take a step. -/
theorem progress (hw : WellOrdered subs) (h : Reachable subs σ) (hnot : ¬ AllDone subs σ) :
    ∃ σ', Step subs σ σ' := by
  have hi := reachable_inv hw h
  have hex : ∃ b, b < subs.length ∧ σ.phase b ≠ .done := by
    unfold AllDone at hnot
    push Not at hnot
    exact hnot
  classical
  -- the first one that is not done: everything it can wait for is done
  let b := Nat.find hex
  have ⟨hb, hphase⟩ : b < subs.length ∧ σ.phase b ≠ .done := Nat.find_spec hex
  have hfirst : ∀ (a : ℕ) (s : Submission L C), a < b → subs[a]? = some s → σ.phase a = .done := by
    intro a s hlt hs
    by_contra hne
    exact Nat.find_min hex hlt ⟨(List.getElem?_eq_some_iff.mp hs).1, hne⟩
  have ht : subs[b]? = some subs[b] := List.getElem?_eq_getElem hb
  generalize subs[b] = t at ht
  have hwithin := hi.within b t ht
  cases hp : σ.phase b with
  | waiting =>
    refine ⟨_, Step.start ht hp (fun a s hlt hs _ => hfirst a s hlt hs) ?_⟩
    intro w hmem
    obtain ⟨a, s, hlt, hs, hl, hv⟩ := hw.waits b t ht w hmem
    have hpub := hi.published_of_done a s hs (hfirst a s hlt hs)
    rw [hl, hv] at hpub
    exact hpub
  | ready k =>
    rw [hp] at hwithin
    simp only [Phase.begun] at hwithin
    by_cases hk : k = t.commands.length
    · rw [hk] at hp
      exact ⟨_, Step.publish ht hp⟩
    · have hlt : k < t.commands.length := by omega
      exact ⟨_, Step.begin ht hp (List.getElem?_eq_getElem hlt)⟩
  | busy k =>
    rw [hp] at hwithin
    have hlt : k < t.commands.length := hwithin
    exact ⟨_, Step.finish ht hp (List.getElem?_eq_getElem hlt)⟩
  | done => exact absurd hp hphase

/-- The steps taken so far, over all submissions. -/
def stepsTaken (subs : List (Submission L C)) (σ : State L C) : ℕ :=
  ∑ b : Fin subs.length, (σ.phase b).steps subs[b].commands.length

/-- The steps of a complete run. -/
def stepsTotal (subs : List (Submission L C)) : ℕ :=
  ∑ b : Fin subs.length, (2 * subs[b].commands.length + 2)

theorem stepsTaken_le (hi : Inv subs σ) : stepsTaken subs σ ≤ stepsTotal subs := by
  unfold stepsTaken stepsTotal
  apply Finset.sum_le_sum
  intro b _
  have hwithin := hi.within b subs[b] (List.getElem?_eq_getElem b.isLt)
  cases hp : σ.phase b with
  | waiting => exact Nat.zero_le _
  | ready k | busy k =>
    rw [hp] at hwithin
    simp only [Phase.begun] at hwithin
    simp only [Phase.steps]
    omega
  | done => exact Nat.le_refl _

/-- A move that adds one step to `b` adds one step in all. -/
theorem stepsTaken_move {σ σ' : State L C} (ht : subs[b]? = some t) (hσ' : σ'.phase = σ.move b p)
    (hsteps : p.steps t.commands.length = (σ.phase b).steps t.commands.length + 1) :
    stepsTaken subs σ' = stepsTaken subs σ + 1 := by
  obtain ⟨hb, hbt⟩ := List.getElem?_eq_some_iff.mp ht
  unfold stepsTaken
  rw [← Finset.add_sum_erase _ _ (Finset.mem_univ (⟨b, hb⟩ : Fin subs.length))]
  rw [← Finset.add_sum_erase _ (fun b : Fin subs.length => (σ.phase b).steps subs[b].commands.length)
    (Finset.mem_univ (⟨b, hb⟩ : Fin subs.length))]
  have hrest : ∑ x ∈ Finset.univ.erase (⟨b, hb⟩ : Fin subs.length),
        (σ'.phase x).steps subs[x].commands.length
      = ∑ x ∈ Finset.univ.erase (⟨b, hb⟩ : Fin subs.length),
        (σ.phase x).steps subs[x].commands.length := by
    apply Finset.sum_congr rfl
    intro x hx
    have hne : (x : ℕ) ≠ b := by
      intro h
      exact (Finset.ne_of_mem_erase hx) (Fin.ext h)
    rw [hσ', move_of_ne σ p hne]
  rw [hrest]
  have hself : (σ'.phase b).steps subs[b].commands.length
      = (σ.phase b).steps subs[b].commands.length + 1 := by
    rw [hσ', move_self, hbt]
    exact hsteps
  show (σ'.phase b).steps subs[b].commands.length + _
    = (σ.phase b).steps subs[b].commands.length + _ + 1
  rw [hself]
  omega

theorem step_stepsTaken {σ σ' : State L C} (h : Step subs σ σ') :
    stepsTaken subs σ' = stepsTaken subs σ + 1 := by
  cases h with
  | start ht hp hlane hwaits =>
    apply stepsTaken_move ht rfl
    rw [hp]
    rfl
  | begin ht hp hc =>
    apply stepsTaken_move ht rfl
    rw [hp]
    rfl
  | finish ht hp hc =>
    apply stepsTaken_move ht rfl
    rw [hp]
    simp only [Phase.steps]
    omega
  | publish ht hp =>
    apply stepsTaken_move ht rfl
    rw [hp]
    rfl

/-- Every run can be continued to its end, whatever it did so far. -/
theorem reaches_end (hw : WellOrdered subs) (n : ℕ) :
    ∀ σ : State L C, Reachable subs σ → stepsTotal subs - stepsTaken subs σ ≤ n →
      ∃ σ', ReflTransGen (Step subs) σ σ' ∧ AllDone subs σ' := by
  induction n with
  | zero =>
    intro σ h hle
    by_cases hdone : AllDone subs σ
    · exact ⟨σ, ReflTransGen.refl, hdone⟩
    · obtain ⟨σ', hstep⟩ := progress hw h hdone
      have hbound := stepsTaken_le (reachable_inv hw (h.tail hstep))
      have := step_stepsTaken hstep
      omega
  | succ n ih =>
    intro σ h hle
    by_cases hdone : AllDone subs σ
    · exact ⟨σ, ReflTransGen.refl, hdone⟩
    · obtain ⟨σ', hstep⟩ := progress hw h hdone
      have hone := step_stepsTaken hstep
      obtain ⟨σe, hrun, hend⟩ := ih σ' (h.tail hstep) (by omega)
      exact ⟨σe, ReflTransGen.head hstep hrun, hend⟩

/-! ## Each command once -/

/-- The commands a trace begins, in order. -/
def begunCommands (trace : List (Event C)) : List C :=
  trace.filterMap fun
    | .began c => some c
    | .finished _ => none

/-- The commands a trace finishes, in order. -/
def finishedCommands (trace : List (Event C)) : List C :=
  trace.filterMap fun
    | .began _ => none
    | .finished c => some c

theorem mem_begunCommands : c ∈ begunCommands trace ↔ .began c ∈ trace := by
  unfold begunCommands
  rw [List.mem_filterMap]
  constructor
  · rintro ⟨e, he, heq⟩
    cases e with
    | began d =>
      cases heq
      exact he
    | finished d => cases heq
  · intro h
    exact ⟨_, h, rfl⟩

theorem mem_finishedCommands : c ∈ finishedCommands trace ↔ .finished c ∈ trace := by
  unfold finishedCommands
  rw [List.mem_filterMap]
  constructor
  · rintro ⟨e, he, heq⟩
    cases e with
    | began d => cases heq
    | finished d =>
      cases heq
      exact he
  · intro h
    exact ⟨_, h, rfl⟩

theorem begunCommands_nodup (h : trace.Nodup) : (begunCommands trace).Nodup := by
  apply h.filterMap
  intro e e' c he he'
  cases e <;> cases e' <;> simp_all

theorem finishedCommands_nodup (h : trace.Nodup) : (finishedCommands trace).Nodup := by
  apply h.filterMap
  intro e e' c he he'
  cases e <;> cases e' <;> simp_all

/-- At the end a count that covers whole submissions covers every command. -/
theorem ran_allDone {count : ℕ → Phase → ℕ} (hcount : ∀ len, count len .done = len)
    (hdone : AllDone subs σ) (c : C) :
    Ran subs σ.phase count c ↔ c ∈ subs.flatMap Submission.commands := by
  rw [List.mem_flatMap]
  constructor
  · rintro ⟨a, s, k, hs, hc, _⟩
    exact ⟨s, List.mem_of_getElem? hs, List.mem_of_getElem? hc⟩
  · rintro ⟨s, hs, hc⟩
    obtain ⟨a, ha⟩ := List.mem_iff_getElem?.mp hs
    obtain ⟨k, hk⟩ := List.mem_iff_getElem?.mp hc
    refine ⟨a, s, k, ha, hk, ?_⟩
    rw [hdone a (List.getElem?_eq_some_iff.mp ha).1, hcount]
    exact (List.getElem?_eq_some_iff.mp hk).1

/-- A complete run begins every command exactly once. -/
theorem begunCommands_perm (hw : WellOrdered subs) (h : Reachable subs σ) (hdone : AllDone subs σ) :
    (begunCommands σ.trace).Perm (subs.flatMap Submission.commands) := by
  have hi := reachable_inv hw h
  rw [List.perm_ext_iff_of_nodup (begunCommands_nodup hi.nodup) hw.nodup]
  intro c
  rw [mem_begunCommands, hi.began_iff c]
  exact ran_allDone (fun _ => rfl) hdone c

/-- A complete run finishes every command exactly once. -/
theorem finishedCommands_perm (hw : WellOrdered subs) (h : Reachable subs σ)
    (hdone : AllDone subs σ) :
    (finishedCommands σ.trace).Perm (subs.flatMap Submission.commands) := by
  have hi := reachable_inv hw h
  rw [List.perm_ext_iff_of_nodup (finishedCommands_nodup hi.nodup) hw.nodup]
  intro c
  rw [mem_finishedCommands, hi.finished_iff c]
  exact ran_allDone (fun _ => rfl) hdone c

end Svod.Lib.Lanes
