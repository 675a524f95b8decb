/-
  Svod.Lib.Fallible

  Computations that may fail: what a result says about the steps behind it.
-/

import Mathlib.Data.List.Basic

namespace Svod.Lib

universe u

variable {α β : Type u} {ε : Type*}

/-- A result comes from a result of the first step. -/
theorem bind_eq_some {x : Option α} {f : α → Option β} {b : β} :
    (x >>= f) = some b ↔ ∃ a, x = some a ∧ f a = some b := Option.bind_eq_some_iff

theorem bind_ok {x : Except ε α} {a : α} (h : x = .ok a) (f : α → Except ε β) :
    (x >>= f) = f a := by rw [h]; rfl

theorem bind_error {x : Except ε α} {e : ε} (h : x = .error e) (f : α → Except ε β) :
    (x >>= f) = .error e := by rw [h]; rfl

/-- An error comes from the first step, or from what follows its result. -/
theorem bind_eq_error {x : Except ε α} {f : α → Except ε β} {e : ε} (h : x >>= f = .error e) :
    x = .error e ∨ ∃ v, x = .ok v ∧ f v = .error e := by
  cases x with
  | error e' => exact Or.inl (by cases h; rfl)
  | ok v => exact Or.inr ⟨v, rfl, h⟩

/-! ## Traversals -/

theorem mapM_eq_map {f : α → Option β} {g : α → β} (hf : ∀ a b, f a = some b → b = g a)
    {l : List α} {bs : List β} (h : l.mapM f = some bs) : bs = l.map g := by
  induction l generalizing bs with
  | nil =>
    cases h
    rfl
  | cons a rest ih =>
    simp only [List.mapM_cons, Option.pure_def, bind_eq_some, Option.some.injEq] at h
    obtain ⟨b, hb, bs', hbs', rfl⟩ := h
    rw [hf a b hb, ih hbs', List.map_cons]

theorem mapM_eq_none {f : α → Option β} {xs : List α} (hne : xs ≠ [])
    (h : ∀ a ∈ xs, f a = none) : xs.mapM f = none := by
  cases xs with
  | nil => exact absurd rfl hne
  | cons a as => simp only [List.mapM_cons, h a (List.mem_cons_self ..)]; rfl

theorem mapM_congr_mem {f g : α → Option β} {xs : List α} (h : ∀ a ∈ xs, f a = g a) :
    xs.mapM f = xs.mapM g := by
  induction xs with
  | nil => rfl
  | cons a as ih =>
    simp only [List.mapM_cons, h a (List.mem_cons_self ..),
      ih fun b hb => h b (List.mem_cons_of_mem _ hb)]

/-- A list of accepted elements is accepted. -/
theorem mapM_ok {f : α → Except ε β} {g : α → β} {xs : List α} (h : ∀ x ∈ xs, f x = .ok (g x)) :
    xs.mapM f = .ok (xs.map g) := by
  induction xs with
  | nil => rfl
  | cons x xs ih =>
    rw [List.mapM_cons, bind_ok (h x (by simp)), bind_ok (ih fun y hy => h y (by simp [hy]))]
    rfl

/-- What each step of a loop keeps, the loop keeps. -/
theorem foldlM_keeps {f : β → α → Except ε β} {P : β → Prop} {l : List α}
    (hstep : ∀ acc x acc', x ∈ l → P acc → f acc x = .ok acc' → P acc') {acc acc' : β}
    (h : P acc) (hfold : l.foldlM f acc = .ok acc') : P acc' := by
  induction l generalizing acc with
  | nil =>
    cases hfold
    exact h
  | cons x l ih =>
    rw [List.foldlM_cons] at hfold
    cases hx : f acc x with
    | error err =>
      rw [hx] at hfold
      cases hfold
    | ok next =>
      rw [hx] at hfold
      exact ih (fun a y a' hy => hstep a y a' (List.mem_cons_of_mem x hy))
        (hstep acc x next List.mem_cons_self h hx) hfold

end Svod.Lib
