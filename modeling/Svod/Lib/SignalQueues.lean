/-
  Svod.Lib.SignalQueues

  In-order queues that synchronise through words of memory.

  A program is a list of batches of instructions, each for one queue.  A queue
  executes its batches in list order and the instructions of a batch in order.
  A `wait` blocks until a word has reached a value, a `store` overwrites a word,
  and nothing else orders the queues.

  Where the words are timelines (`Timelines`: the stores to one word come from
  one queue, with growing values, all above what the word holds at first) a wait
  for a stored value passes only behind the store.
-/

import Mathlib.Algebra.Order.Ring.Nat

namespace Svod.Lib.SignalQueues

open Relation

variable {Q A : Type}

/-! ## Runs -/

inductive Instr (A : Type) where
  | wait (addr : A) (value : ℕ)
  | store (addr : A) (value : ℕ)
  | work
deriving DecidableEq, Repr

/-- The instruction can execute. -/
def Instr.passes (mem : A → ℕ) : Instr A → Prop
  | .wait addr value => value ≤ mem addr
  | .store _ _ => True
  | .work => True

/-- The memory after the instruction. -/
def Instr.effect [DecidableEq A] (mem : A → ℕ) : Instr A → A → ℕ
  | .store addr value => Function.update mem addr value
  | .wait _ _ => mem
  | .work => mem

structure Batch (Q A : Type) where
  queue : Q
  instrs : List (Instr A)

/-- How many instructions of each batch have executed, and the memory. -/
structure State (A : Type) where
  pc : ℕ → ℕ
  mem : A → ℕ

def State.initial (mem : A → ℕ) : State A := { pc := fun _ => 0, mem }

inductive Step [DecidableEq A] (batches : List (Batch Q A)) : State A → State A → Prop where
  | exec {σ : State A} {b : ℕ} {batch : Batch Q A} {instr : Instr A}
      (hb : batches[b]? = some batch) (hinstr : batch.instrs[σ.pc b]? = some instr)
      (hqueue : ∀ (a : ℕ) (earlier : Batch Q A), a < b → batches[a]? = some earlier →
        earlier.queue = batch.queue → σ.pc a = earlier.instrs.length)
      (hpass : instr.passes σ.mem) :
      Step batches σ { pc := Function.update σ.pc b (σ.pc b + 1), mem := instr.effect σ.mem }

/-- The states of all runs from a memory. -/
def Reachable [DecidableEq A] (batches : List (Batch Q A)) (mem : A → ℕ) (σ : State A) : Prop :=
  ReflTransGen (Step batches) (State.initial mem) σ

/-- Every instruction of batch `b` has executed. -/
def Done (batches : List (Batch Q A)) (σ : State A) (b : ℕ) : Prop :=
  ∀ batch, batches[b]? = some batch → σ.pc b = batch.instrs.length

/-- Instruction `k` of batch `b`. -/
def At (batches : List (Batch Q A)) (b k : ℕ) (instr : Instr A) : Prop :=
  ∃ batch, batches[b]? = some batch ∧ batch.instrs[k]? = some instr

/-! ## Timelines -/

structure Timelines (batches : List (Batch Q A)) (mem : A → ℕ) : Prop where
  ordered : ∀ {b k b' k' : ℕ} {addr : A} {v v' : ℕ}, At batches b k (.store addr v) →
    At batches b' k' (.store addr v') → b < b' ∨ b = b' ∧ k < k' →
    v < v' ∧ ∀ batch batch', batches[b]? = some batch → batches[b']? = some batch' →
      batch.queue = batch'.queue
  fresh : ∀ {b k : ℕ} {addr : A} {v : ℕ}, At batches b k (.store addr v) → mem addr < v

structure Inv (batches : List (Batch Q A)) (mem : A → ℕ) (σ : State A) : Prop where
  bounded : ∀ (b : ℕ) (batch : Batch Q A), batches[b]? = some batch →
    σ.pc b ≤ batch.instrs.length
  /-- A batch that has begun finds the earlier ones of its queue done. -/
  inOrder : ∀ (b : ℕ) (batch : Batch Q A), batches[b]? = some batch → 0 < σ.pc b →
    ∀ (a : ℕ) (earlier : Batch Q A), a < b → batches[a]? = some earlier →
      earlier.queue = batch.queue → σ.pc a = earlier.instrs.length
  /-- A word holds what it held at first, or what an executed store put there. -/
  written : ∀ addr, σ.mem addr = mem addr ∨
    ∃ b k, At batches b k (.store addr (σ.mem addr)) ∧ k < σ.pc b
  /-- A wait that has passed is behind the store of its value. -/
  waited : ∀ {b k b' k' : ℕ} {addr : A} {v : ℕ}, At batches b k (.wait addr v) → k < σ.pc b →
    At batches b' k' (.store addr v) → k' < σ.pc b'

variable {batches : List (Batch Q A)} {mem : A → ℕ} {σ σ' : State A}

theorem At.lt {b k : ℕ} {instr : Instr A} {batch : Batch Q A} (h : At batches b k instr)
    (hb : batches[b]? = some batch) : k < batch.instrs.length := by
  obtain ⟨batch', hb', hk⟩ := h
  rw [hb] at hb'
  cases hb'
  exact (List.getElem?_eq_some_iff.mp hk).1

theorem At.unique {b k : ℕ} {i j : Instr A} (h : At batches b k i) (h' : At batches b k j) :
    i = j := by
  obtain ⟨batch, hb, hk⟩ := h
  obtain ⟨batch', hb', hk'⟩ := h'
  rw [hb] at hb'
  cases hb'
  rw [hk] at hk'
  exact Option.some_inj.mp hk'

/-- A word that has reached a stored value has been through the store. -/
theorem Inv.stored (hi : Inv batches mem σ) (ht : Timelines batches mem) {b k : ℕ} {addr : A}
    {v : ℕ} (hstore : At batches b k (.store addr v)) (hle : v ≤ σ.mem addr) : k < σ.pc b := by
  rcases hi.written addr with hold | ⟨b', k', hstore', hdone⟩
  · have := ht.fresh hstore
    omega
  · -- the store that wrote the word is this one or a later one of the same queue
    by_cases hafter : b' < b ∨ b' = b ∧ k' < k
    · have := (ht.ordered hstore' hstore hafter).1
      omega
    · rcases Nat.lt_trichotomy b b' with hlt | rfl | hgt
      · obtain ⟨batch, hb, hk⟩ := hstore
        obtain ⟨batch', hb', hk'⟩ := hstore'
        have hq := (ht.ordered ⟨batch, hb, hk⟩ ⟨batch', hb', hk'⟩ (Or.inl hlt)).2 batch batch' hb hb'
        rw [hi.inOrder b' batch' hb' (by omega) b batch hlt hb hq]
        exact (List.getElem?_eq_some_iff.mp hk).1
      · omega
      · omega

theorem initial_inv (mem : A → ℕ) : Inv batches mem (State.initial mem) where
  bounded _ _ _ := Nat.zero_le _
  inOrder _ _ _ hpos := absurd hpos (Nat.lt_irrefl 0)
  written _ := Or.inl rfl
  waited _ hk := absurd hk (Nat.not_lt_zero _)

theorem step_inv [DecidableEq A] (ht : Timelines batches mem) (hi : Inv batches mem σ)
    (hstep : Step batches σ σ') : Inv batches mem σ' := by
  obtain ⟨hb, hinstr, hqueue, hpass⟩ := hstep
  rename_i b batch instr
  have hat : At batches b (σ.pc b) instr := ⟨batch, hb, hinstr⟩
  have hmono : ∀ a, σ.pc a ≤ Function.update σ.pc b (σ.pc b + 1) a := by
    intro a
    by_cases ha : a = b
    · rw [ha, Function.update_self]
      omega
    · rw [Function.update_of_ne ha]
  -- a batch that is done has no instruction left, so it is not the one that steps
  have hkeep : ∀ (a : ℕ) (earlier : Batch Q A), batches[a]? = some earlier →
      σ.pc a = earlier.instrs.length →
      Function.update σ.pc b (σ.pc b + 1) a = earlier.instrs.length := by
    intro a earlier ha hdone
    have hne : a ≠ b := by
      rintro rfl
      have := hat.lt ha
      omega
    rw [Function.update_of_ne hne, hdone]
  constructor
  · intro b₁ batch₁ hb₁
    by_cases heq : b₁ = b
    · subst heq
      have := hat.lt hb₁
      simp only [Function.update_self]
      omega
    · simp only [Function.update_of_ne heq]
      exact hi.bounded b₁ batch₁ hb₁
  · intro b₁ batch₁ hb₁ hpos a earlier hlt ha hq
    refine hkeep a earlier ha ?_
    by_cases heq : b₁ = b
    · subst heq
      rw [hb] at hb₁
      cases hb₁
      exact hqueue a earlier hlt ha hq
    · simp only [Function.update_of_ne heq] at hpos
      exact hi.inOrder b₁ batch₁ hb₁ hpos a earlier hlt ha hq
  · intro addr
    have hold : ∀ {m : ℕ}, (m = mem addr ∨ ∃ b' k, At batches b' k (.store addr m) ∧ k < σ.pc b') →
        (m = mem addr ∨ ∃ b' k, At batches b' k (.store addr m) ∧
          k < Function.update σ.pc b (σ.pc b + 1) b') := by
      rintro m (h | ⟨b', k, hstore, hk⟩)
      · exact Or.inl h
      · exact Or.inr ⟨b', k, hstore, hk.trans_le (hmono b')⟩
    cases instr with
    | wait addr' v => exact hold (hi.written addr)
    | work => exact hold (hi.written addr)
    | store addr' v =>
      by_cases heq : addr = addr'
      · subst heq
        refine Or.inr ⟨b, σ.pc b, ?_, ?_⟩
        · simp only [Instr.effect, Function.update_self]
          exact hat
        · simp
      · simp only [Instr.effect, Function.update_of_ne heq]
        exact hold (hi.written addr)
  · intro b₁ k b' k' addr v hwait hk hstore
    refine Nat.lt_of_lt_of_le ?_ (hmono b')
    by_cases hnew : b₁ = b ∧ k = σ.pc b
    · obtain ⟨rfl, rfl⟩ := hnew
      cases hat.unique hwait
      exact hi.stored ht hstore hpass
    · refine hi.waited hwait ?_ hstore
      by_cases heq : b₁ = b
      · subst heq
        simp only [Function.update_self] at hk
        have hne : k ≠ σ.pc b₁ := fun h => hnew ⟨rfl, h⟩
        omega
      · simpa only [Function.update_of_ne heq] using hk

theorem reachable_inv [DecidableEq A] (ht : Timelines batches mem) (h : Reachable batches mem σ) :
    Inv batches mem σ := by
  induction h with
  | refl => exact initial_inv mem
  | tail _ hstep ih => exact step_inv ht ih hstep

/-! ## What a finished batch has seen -/

/-- The earlier batches of a queue are done before a later one begins. -/
theorem Inv.done_of_begun (hi : Inv batches mem σ) {a b : ℕ} {earlier batch : Batch Q A}
    (ha : batches[a]? = some earlier) (hb : batches[b]? = some batch) (hlt : a < b)
    (hq : earlier.queue = batch.queue) (hpos : 0 < σ.pc b) : Done batches σ a := by
  intro e he
  rw [ha] at he
  cases he
  exact hi.inOrder b batch hb hpos a earlier hlt ha hq

/-- A batch whose last instruction is a store is done once a batch that waits for the value is. -/
theorem Inv.done_of_waited (hi : Inv batches mem σ) {a b k j : ℕ} {addr : A} {v : ℕ}
    {earlier : Batch Q A} (ha : batches[a]? = some earlier) (hlast : k + 1 = earlier.instrs.length)
    (hstore : At batches a k (.store addr v)) (hwait : At batches b j (.wait addr v))
    (hdone : Done batches σ b) : Done batches σ a := by
  intro e he
  rw [ha] at he
  cases he
  obtain ⟨batch, hb, hj⟩ := hwait
  have hlt := (List.getElem?_eq_some_iff.mp hj).1
  have hpast := hi.waited ⟨batch, hb, hj⟩ (by rw [hdone batch hb]; exact hlt) hstore
  have hle := hi.bounded a earlier ha
  omega

end Svod.Lib.SignalQueues
