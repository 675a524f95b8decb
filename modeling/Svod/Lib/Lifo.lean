/-
  Svod.Lib.Lifo

  A stack read as brackets.

  A sequence of events pushes itself or pops the stack.  What the stack holds
  after a sequence is determined by bracket matching: an event is on top exactly
  when it is a push and everything after it is balanced.
-/

import Mathlib.Data.List.Induction
import Mathlib.Data.List.Nodup

namespace Svod.Lib.Lifo

variable {β : Type} (pushes : β → Bool)

/-- One event: a push puts itself on top, a pop drops the top, if there is one. -/
def stackStep (st : List β) (e : β) : List β :=
  if pushes e then e :: st else st.tail

/-- The stack after a sequence of events, from the empty stack. -/
def stack (ops : List β) : List β := ops.foldl (stackStep pushes) []

/-- Every push of the sequence is popped in it, and every pop pops one of its pushes. -/
inductive Balanced : List β → Prop where
  | nil : Balanced []
  | wrap {m m' : List β} {p q : β} (outer : Balanced m) (push : pushes p = true)
      (inner : Balanced m') (pop : pushes q = false) : Balanced (m ++ p :: (m' ++ [q]))

variable {pushes}

@[simp] theorem stack_nil : stack pushes [] = [] := rfl

theorem stack_concat (ops : List β) (e : β) :
    stack pushes (ops ++ [e]) = stackStep pushes (stack pushes ops) e := by
  simp [stack]

theorem stack_concat_push {ops : List β} {e : β} (h : pushes e = true) :
    stack pushes (ops ++ [e]) = e :: stack pushes ops := by
  rw [stack_concat, stackStep, if_pos h]

theorem stack_concat_pop {ops : List β} {e : β} (h : pushes e = false) :
    stack pushes (ops ++ [e]) = (stack pushes ops).tail := by
  rw [stack_concat, stackStep, h, if_neg Bool.false_ne_true]

/-- A balanced continuation leaves the stack as it was. -/
theorem Balanced.stack_append {mid : List β} (h : Balanced pushes mid) (ops : List β) :
    stack pushes (ops ++ mid) = stack pushes ops := by
  induction h generalizing ops with
  | nil => rw [List.append_nil]
  | @wrap m m' p q _ hp _ hq ihm ihm' =>
    have hassoc : ops ++ (m ++ p :: (m' ++ [q])) = (((ops ++ m) ++ [p]) ++ m') ++ [q] := by simp
    rw [hassoc, stack_concat_pop hq, ihm', stack_concat_push hp, List.tail_cons, ihm]

/-- What is on the stack was pushed, in this order. -/
theorem stack_sublist (ops : List β) :
    (stack pushes ops).Sublist (ops.reverse.filter pushes) := by
  induction ops using List.reverseRecOn with
  | nil => exact List.Sublist.refl _
  | append_singleton ops e ih =>
    rw [List.reverse_append, List.reverse_singleton, List.singleton_append]
    cases he : pushes e with
    | true =>
      rw [stack_concat_push he, List.filter_cons_of_pos he]
      exact ih.cons_cons e
    | false =>
      rw [stack_concat_pop he, List.filter_cons_of_neg (by simp [he])]
      exact (List.tail_sublist _).trans ih

theorem mem_of_mem_stack {ops : List β} {e : β} (h : e ∈ stack pushes ops) :
    e ∈ ops ∧ pushes e = true := by
  have := (stack_sublist ops).subset h
  simpa [List.mem_filter] using this

theorem stack_nodup {ops : List β} (h : ops.Nodup) : (stack pushes ops).Nodup :=
  (stack_sublist ops).nodup ((List.nodup_reverse.mpr h).filter _)

/-- The top of the stack and what lies under it: the top is a push followed by a balanced
    sequence, and below it is the stack that push found. -/
theorem stack_eq_cons {ops rest : List β} {e : β} (h : stack pushes ops = e :: rest) :
    ∃ pre mid, ops = pre ++ e :: mid ∧ pushes e = true ∧ Balanced pushes mid ∧
      stack pushes pre = rest := by
  -- by induction on the length: a pop exposes the entry under the top of a shorter sequence
  induction hn : ops.length using Nat.strongRecOn generalizing ops e rest with
  | _ n ih =>
    cases ops using List.reverseRecOn with
    | nil => simp at h
    | append_singleton ops x =>
      rw [List.length_append, List.length_singleton] at hn
      cases hx : pushes x with
      | true =>
        rw [stack_concat_push hx, List.cons.injEq] at h
        obtain ⟨rfl, hrest⟩ := h
        exact ⟨ops, [], rfl, hx, .nil, hrest⟩
      | false =>
        rw [stack_concat_pop hx] at h
        obtain ⟨y, hy⟩ : ∃ y, stack pushes ops = y :: e :: rest := by
          cases hst : stack pushes ops with
          | nil => simp [hst] at h
          | cons y l => exact ⟨y, by rw [hst, List.tail_cons] at h; rw [h]⟩
        obtain ⟨pre₁, mid₁, rfl, hpy, hbal₁, hst₁⟩ := ih ops.length (by omega) hy rfl
        obtain ⟨pre₂, mid₂, rfl, hpe, hbal₂, hst₂⟩ :=
          ih pre₁.length (by simp at hn; omega) hst₁ rfl
        exact ⟨pre₂, mid₂ ++ y :: (mid₁ ++ [x]), by simp, hpe, .wrap hbal₂ hpy hbal₁ hx, hst₂⟩

/-- The matching rule: `e` is on top exactly when what follows it is balanced. -/
theorem top_iff {ops : List β} {e : β} : (stack pushes ops).head? = some e ↔
    ∃ pre mid, ops = pre ++ e :: mid ∧ pushes e = true ∧ Balanced pushes mid := by
  constructor
  · intro h
    obtain ⟨rest, hst⟩ := List.head?_eq_some_iff.mp h
    obtain ⟨pre, mid, hops, hpush, hbal, -⟩ := stack_eq_cons hst
    exact ⟨pre, mid, hops, hpush, hbal⟩
  · rintro ⟨pre, mid, rfl, hpush, hbal⟩
    have hassoc : pre ++ e :: mid = (pre ++ [e]) ++ mid := by simp
    rw [hassoc, hbal.stack_append, stack_concat_push hpush, List.head?_cons]

end Svod.Lib.Lifo
