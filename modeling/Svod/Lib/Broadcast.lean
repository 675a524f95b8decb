/-
  Svod.Lib.Broadcast

  Broadcasting of shapes.

  A shape lists its dimensions from the innermost one outwards, so shapes of
  different rank line up at their heads.  Two dimensions join when they are equal
  or one of them is `1`.  The join of shapes, with failure, is a commutative
  monoid: the shape of an elementwise product does not depend on the order of its
  factors.
-/

import Mathlib.Algebra.Group.Defs
import Mathlib.Data.Option.NAry
import Mathlib.Tactic.SplitIfs

namespace Svod.Lib

/-- The common dimension. -/
def joinDim (l r : ℕ) : Option ℕ :=
  if l = r then some l else if l = 1 then some r else if r = 1 then some l else none

theorem joinDim_comm (a b : ℕ) : joinDim a b = joinDim b a := by
  unfold joinDim
  split_ifs <;> simp_all

theorem joinDim_one_left (r : ℕ) : joinDim 1 r = some r := by
  unfold joinDim
  split_ifs with h <;> simp_all

theorem joinDim_one_right (l : ℕ) : joinDim l 1 = some l := by
  rw [joinDim_comm, joinDim_one_left]

theorem joinDim_self (l : ℕ) : joinDim l l = some l := if_pos rfl

/-- Two dimensions other than `1` join only when they are equal. -/
theorem joinDim_of_ne {l r : ℕ} (h : l ≠ r) (hl : l ≠ 1) (hr : r ≠ 1) : joinDim l r = none := by
  unfold joinDim
  rw [if_neg h, if_neg hl, if_neg hr]

theorem joinDim_assoc (a b c : ℕ) :
    (joinDim a b).bind (joinDim · c) = (joinDim b c).bind (joinDim a ·) := by
  by_cases ha : a = 1
  · subst ha
    cases h : joinDim b c <;> simp [joinDim_one_left, h]
  by_cases hb : b = 1
  · subst hb
    simp [joinDim_one_left, joinDim_one_right]
  by_cases hc : c = 1
  · subst hc
    cases h : joinDim a b <;> simp [joinDim_one_right, h]
  -- none of the three is `1`
  by_cases hab : a = b
  · subst hab
    by_cases hac : a = c
    · subst hac
      simp [joinDim_self]
    · simp [joinDim_self, joinDim_of_ne hac ha hc]
  · by_cases hbc : b = c
    · subst hbc
      simp [joinDim_self, joinDim_of_ne hab ha hb]
    · simp [joinDim_of_ne hab ha hb, joinDim_of_ne hbc hb hc]

/-- The common shape, none when two dimensions do not join. -/
def broadcast : List ℕ → List ℕ → Option (List ℕ)
  | [], b => some b
  | x :: a, [] => some (x :: a)
  | x :: a, y :: b => Option.map₂ List.cons (joinDim x y) (broadcast a b)

@[simp] theorem broadcast_nil_left (b : List ℕ) : broadcast [] b = some b := rfl

@[simp] theorem broadcast_nil_right (a : List ℕ) : broadcast a [] = some a := by
  cases a <;> rfl

@[simp] theorem broadcast_cons (x y : ℕ) (a b : List ℕ) : broadcast (x :: a) (y :: b) =
    Option.map₂ List.cons (joinDim x y) (broadcast a b) := rfl

theorem broadcast_comm (a b : List ℕ) : broadcast a b = broadcast b a := by
  induction a generalizing b with
  | nil => simp
  | cons x a ih =>
    cases b with
    | nil => rfl
    | cons y b => rw [broadcast_cons, broadcast_cons, ih, joinDim_comm]

theorem broadcast_self (a : List ℕ) : broadcast a a = some a := by
  induction a with
  | nil => rfl
  | cons x a ih => rw [broadcast_cons, joinDim_self, ih]; rfl

theorem map₂_cons_bind (o : Option ℕ) (p : Option (List ℕ)) (z : ℕ) (c : List ℕ) :
    (Option.map₂ List.cons o p).bind (broadcast · (z :: c)) =
      Option.map₂ List.cons (o.bind (joinDim · z)) (p.bind (broadcast · c)) := by
  cases o <;> cases p <;> simp

theorem bind_map₂_cons (x : ℕ) (a : List ℕ) (o : Option ℕ) (p : Option (List ℕ)) :
    (Option.map₂ List.cons o p).bind (broadcast (x :: a) ·) =
      Option.map₂ List.cons (o.bind (joinDim x ·)) (p.bind (broadcast a ·)) := by
  cases o <;> cases p <;> simp

theorem broadcast_assoc (a b c : List ℕ) :
    (broadcast a b).bind (broadcast · c) = (broadcast b c).bind (broadcast a ·) := by
  induction a generalizing b c with
  | nil => simp
  | cons x a ih =>
    cases b with
    | nil => simp
    | cons y b =>
      cases c with
      | nil => simp
      | cons z c =>
        rw [broadcast_cons, broadcast_cons, map₂_cons_bind, bind_map₂_cons, joinDim_assoc, ih]

/-- The shape of an expression, none when it has none. -/
def Extent := Option (List ℕ)

namespace Extent

instance : CommMonoid Extent where
  mul a b := Option.bind a fun s => Option.bind b fun s' => broadcast s s'
  one := some []
  mul_comm a b := by
    show (Option.bind a fun s => Option.bind b fun s' => broadcast s s') =
      Option.bind b fun s' => Option.bind a fun s => broadcast s' s
    cases a <;> cases b <;> simp [broadcast_comm]
  mul_assoc a b c := by
    show (Option.bind (Option.bind a fun s => Option.bind b fun s' => broadcast s s') fun s =>
        Option.bind c fun s' => broadcast s s') =
      Option.bind a fun s => Option.bind (Option.bind b fun s => Option.bind c fun s' =>
        broadcast s s') fun s' => broadcast s s'
    cases a with
    | none => rfl
    | some a =>
      cases b with
      | none => rfl
      | some b =>
        cases c with
        | none => simp
        | some c => exact broadcast_assoc a b c
  one_mul a := by
    show (Option.bind a fun s' => broadcast [] s') = a
    cases a <;> rfl
  mul_one a := by
    show (Option.bind a fun s => broadcast s []) = a
    cases a <;> simp

theorem mul_eq_some {a b : Extent} {s : List ℕ} :
    a * b = some s ↔ ∃ s₁ s₂, a = some s₁ ∧ b = some s₂ ∧ broadcast s₁ s₂ = some s := by
  show (Option.bind a fun s => Option.bind b fun s' => broadcast s s') = some s ↔ _
  constructor
  · intro h
    obtain ⟨s₁, ha, hab⟩ := Option.bind_eq_some_iff.mp h
    obtain ⟨s₂, hb, hs⟩ := Option.bind_eq_some_iff.mp hab
    exact ⟨s₁, s₂, ha, hb, hs⟩
  · rintro ⟨s₁, s₂, rfl, rfl, h⟩
    exact h

end Extent

/-! ## Leading axes -/

theorem broadcast_length {a b r : List ℕ} (h : broadcast a b = some r) :
    r.length = max a.length b.length := by
  induction a generalizing b r with
  | nil =>
    cases h
    simp
  | cons x a ih =>
    cases b with
    | nil =>
      cases h
      simp
    | cons y b =>
      rw [broadcast_cons, Option.map₂_eq_some_iff] at h
      obtain ⟨d, t, -, ht, rfl⟩ := h
      rw [List.length_cons, List.length_cons, List.length_cons, ih ht]
      omega

/-- Beyond the rank of `b`, the dimensions are those of `a`. -/
theorem broadcast_drop {a b r : List ℕ} {m : ℕ} (h : broadcast a b = some r)
    (hb : b.length ≤ m) : r.drop m = a.drop m := by
  induction a generalizing b r m with
  | nil =>
    cases h
    rw [List.drop_of_length_le hb, List.drop_nil]
  | cons x a ih =>
    cases b with
    | nil =>
      cases h
      rfl
    | cons y b =>
      rw [broadcast_cons, Option.map₂_eq_some_iff] at h
      obtain ⟨d, t, -, ht, rfl⟩ := h
      cases m with
      | zero => simp at hb
      | succ m => exact ih ht (by simpa using hb)

/-- Without the dimensions beyond the rank of `b`. -/
theorem broadcast_take {a b r : List ℕ} {m : ℕ} (h : broadcast a b = some r)
    (hb : b.length ≤ m) : broadcast (a.take m) b = some (r.take m) := by
  induction a generalizing b r m with
  | nil =>
    cases h
    simp [List.take_of_length_le hb]
  | cons x a ih =>
    cases b with
    | nil =>
      cases h
      simp
    | cons y b =>
      rw [broadcast_cons, Option.map₂_eq_some_iff] at h
      obtain ⟨d, t, hd, ht, rfl⟩ := h
      cases m with
      | zero => simp at hb
      | succ m =>
        have hrec := ih ht (m := m) (by simpa using hb)
        rw [List.take_succ_cons, List.take_succ_cons, broadcast_cons, hrec,
          Option.mem_def.mp hd]
        rfl

end Svod.Lib
