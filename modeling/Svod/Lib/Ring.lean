/-
  Svod.Lib.Ring

  A ring of `cap` slots that holds the recent part of an unbounded log.

  Position `i` of the log lives in slot `i % cap`.  `Holds cap mem log lo` says
  that the ring `mem` holds the log from position `lo` on; writing behind the
  log keeps that as long as the writer stays within `cap` of `lo`.  A reader
  position known only modulo `cap` can be told from the writer's position
  exactly when the ring is not full (`reconstruct_eq_iff`).
-/

import Mathlib.Algebra.Order.Ring.Nat
import Mathlib.Data.Int.ModEq
import Mathlib.Data.List.Basic

namespace Svod.Lib.Ring

variable {α : Type*} {cap lo lo' : ℕ} {mem : ℕ → α} {log xs : List α}

/-- Two positions less than `cap` apart have different slots. -/
theorem mod_ne_mod {a b : ℕ} (hlt : a < b) (hgap : b < a + cap) : a % cap ≠ b % cap := by
  intro heq
  have hdvd : cap ∣ b - a := (Nat.modEq_iff_dvd' hlt.le).mp heq
  have hle : cap ≤ b - a := Nat.le_of_dvd (by omega) hdvd
  omega

/-- The units of `xs` written one by one from position `w` on. -/
def put (cap : ℕ) : (ℕ → α) → ℕ → List α → (ℕ → α)
  | mem, _, [] => mem
  | mem, w, x :: xs => put cap (Function.update mem (w % cap) x) (w + 1) xs

@[simp] theorem put_nil (w : ℕ) : put cap mem w [] = mem := rfl

theorem put_cons (w : ℕ) (x : α) :
    put cap mem w (x :: xs) = put cap (Function.update mem (w % cap) x) (w + 1) xs := rfl

theorem put_append (w : ℕ) (ys : List α) :
    put cap mem w (xs ++ ys) = put cap (put cap mem w xs) (w + xs.length) ys := by
  induction xs generalizing mem w with
  | nil => rfl
  | cons x xs ih =>
    rw [List.cons_append, put_cons, ih, put_cons, List.length_cons]
    congr 1
    omega

/-- The ring holds the log from position `lo` on. -/
def Holds (cap : ℕ) (mem : ℕ → α) (log : List α) (lo : ℕ) : Prop :=
  ∀ i, lo ≤ i → i < log.length → log[i]? = some (mem (i % cap))

theorem holds_nil : Holds cap mem [] lo := by
  intro i _ hi
  exact absurd hi (Nat.not_lt_zero i)

theorem Holds.mono (h : Holds cap mem log lo) (hle : lo ≤ lo') : Holds cap mem log lo' :=
  fun i hlo hi => h i (hle.trans hlo) hi

/-- Giving up the end of the log changes nothing for what is left of it. -/
theorem Holds.of_append {ys : List α} (h : Holds cap mem (log ++ ys) lo) :
    Holds cap mem log lo := by
  intro i hlo hi
  have happ := h i hlo (by rw [List.length_append]; omega)
  rwa [List.getElem?_append_left hi] at happ

theorem Holds.concat (h : Holds cap mem log lo) (hroom : log.length < lo + cap) (x : α) :
    Holds cap (Function.update mem (log.length % cap) x) (log ++ [x]) lo := by
  intro i hlo hi
  rw [List.length_append, List.length_singleton] at hi
  rcases Nat.lt_or_ge i log.length with hlt | hge
  · have hne : i % cap ≠ log.length % cap := mod_ne_mod hlt (by omega)
    rw [List.getElem?_append_left hlt, Function.update_of_ne hne]
    exact h i hlo hlt
  · have heq : i = log.length := by omega
    rw [heq, List.getElem?_concat_length, Function.update_self]

/-- A writer that stays within `cap` of `lo` writes over nothing that is still held. -/
theorem Holds.put (h : Holds cap mem log lo) (hroom : log.length + xs.length ≤ lo + cap) :
    Holds cap (put cap mem log.length xs) (log ++ xs) lo := by
  induction xs generalizing mem log with
  | nil =>
    rw [put_nil, List.append_nil]
    exact h
  | cons x xs ih =>
    rw [List.length_cons] at hroom
    have hcons := ih (h.concat (by omega) x) (by rw [List.length_append]; simp; omega)
    rw [List.length_append, List.length_singleton, List.append_assoc] at hcons
    rw [put_cons]
    exact hcons

/-- What a reader at `lo` finds in the next `n` slots. -/
theorem Holds.read {n : ℕ} (h : Holds cap mem log lo) (hn : lo + n ≤ log.length) :
    log.take lo ++ (List.range n).map (fun i => mem ((lo + i) % cap)) = log.take (lo + n) := by
  rw [List.take_add]
  congr 1
  apply List.ext_getElem?
  intro i
  rw [List.getElem?_map]
  rcases Nat.lt_or_ge i n with hlt | hge
  · rw [List.getElem?_range hlt, List.getElem?_take_of_lt hlt, List.getElem?_drop,
      h (lo + i) (Nat.le_add_right _ _) (by omega), Option.map_some]
  · rw [List.getElem?_eq_none (by rw [List.length_range]; exact hge), Option.map_none,
      List.getElem?_take_eq_none hge]

/-! ## Positions known modulo the ring -/

/-- The position of a reader that reports `r` modulo `cap`, from the writer's position `w`. -/
def reconstruct (w r cap : ℕ) : ℕ :=
  let read := w / cap * cap + r % cap
  if w < read then read - cap else read

/-- The reconstruction is right unless the ring is full, when it finds it empty. -/
theorem reconstruct_eq_iff {w r : ℕ} (hcap : 0 < cap) (hle : r ≤ w) (hfit : w ≤ r + cap) :
    reconstruct w (r % cap) cap = r ↔ w < r + cap := by
  unfold reconstruct
  rw [Nat.mod_mod]
  have hw := Nat.div_add_mod w cap
  have hr := Nat.div_add_mod r cap
  have hwlt := Nat.mod_lt w hcap
  have hrlt := Nat.mod_lt r hcap
  have hdiv : r / cap ≤ w / cap := Nat.div_le_div_right hle
  rw [Nat.mul_comm] at hw hr
  -- the reader is in the writer's lap or in the one before
  have hlap : w / cap ≤ r / cap + 1 := by
    have hstep := Nat.div_le_div_right (c := cap) hfit
    rwa [Nat.add_div_right r hcap] at hstep
  rcases Nat.lt_or_ge (r / cap) (w / cap) with hlt | hge
  · have heq : w / cap = r / cap + 1 := by omega
    have hmul : w / cap * cap = r / cap * cap + cap := by rw [heq, Nat.add_mul, Nat.one_mul]
    show (if w < w / cap * cap + r % cap then _ else _) = r ↔ _
    split <;> omega
  · have heq : w / cap = r / cap := by omega
    show (if w < w / cap * cap + r % cap then _ else _) = r ↔ _
    rw [heq] at hw ⊢
    split <;> omega

end Svod.Lib.Ring
