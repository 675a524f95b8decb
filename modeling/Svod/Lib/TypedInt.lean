/-
  Svod.Lib.TypedInt

  The values of an integer type as a ring.

  Arithmetic wraps around, so the values form a commutative ring, the quotient of
  the integers by the size of the type; the order is that of the integers.
-/

import Mathlib.Algebra.Ring.MinimalAxioms
import Mathlib.Tactic.Ring
import Svod.Lib.MachineInt

namespace Svod.Lib

namespace IntType

variable {t : IntType}

/-- The reduction changes a number by a multiple of the size of the type. -/
theorem dvd_sub_wrap (x : ℤ) : (2 ^ t.bits : ℤ) ∣ x - t.wrap x := by
  unfold wrap
  split
  · exact dvd_sub_wrapSigned t.bits x
  · exact Int.dvd_self_sub_emod

theorem wrap_congr {x y : ℤ} (h : (2 ^ t.bits : ℤ) ∣ x - y) : t.wrap x = t.wrap y := by
  unfold wrap
  split
  · exact wrapSigned_congr h
  · exact Int.emod_eq_emod_iff_emod_sub_eq_zero.mpr (Int.emod_eq_zero_of_dvd h)

/-! ### The ends of a type -/

theorem max_eq (t : IntType) : t.max = t.min + (2 ^ t.bits - 1) := by
  have hpow : (2 : ℤ) ^ t.bits = 2 * 2 ^ (t.bits - 1) := by
    rw [← pow_succ', Nat.sub_add_cancel t.pos]
  unfold max min
  split <;> omega

theorem min_eq_of_signed (hs : t.signed = true) : t.min = -t.max - 1 := by
  unfold max min
  rw [if_pos hs, if_pos hs]
  omega

theorem min_lt_max (t : IntType) : t.min < t.max := by
  have hpow : (2 : ℤ) ^ 1 ≤ 2 ^ t.bits := pow_le_pow_right₀ (by decide) t.pos
  have hmax := t.max_eq
  omega

/-- Below the least value comes the greatest. -/
theorem wrap_min_sub_one (t : IntType) : t.wrap (t.min - 1) = t.max := by
  have hmax := t.max_eq
  rw [wrap_congr (y := t.max) ⟨-1, by omega⟩]
  exact wrap_of_contains ⟨t.min_lt_max.le, le_rfl⟩

/-- Above the greatest value comes the least. -/
theorem wrap_max_add_one (t : IntType) : t.wrap (t.max + 1) = t.min := by
  have hmax := t.max_eq
  rw [wrap_congr (y := t.min) ⟨1, by omega⟩]
  exact wrap_of_contains ⟨le_rfl, t.min_lt_max.le⟩

/-- The least value of a signed type is its own negation. -/
theorem wrap_neg_min (hs : t.signed = true) : t.wrap (-t.min) = t.min := by
  have hmin := min_eq_of_signed hs
  rw [show -t.min = t.max + 1 by omega, wrap_max_add_one]

theorem wrap_neg_of_ne (hs : t.signed = true) {x : ℤ} (hx : t.Contains x) (hne : x ≠ t.min) :
    t.wrap (-x) = -x := by
  have hmin := min_eq_of_signed hs
  have hlo := hx.1
  have hhi := hx.2
  exact wrap_of_contains ⟨by omega, by omega⟩

/-! ### A bound moved by one, or across a negation -/

variable {x c : ℤ}

theorem wrap_sub_one_lt_iff (hx : t.Contains x) (hc : t.Contains c) :
    (t.wrap (c - 1) < x ↔ ¬ x < c) ↔ c ≠ t.min := by
  have hxlo := hx.1
  have hxhi := hx.2
  have hclo := hc.1
  have hchi := hc.2
  by_cases hc0 : c = t.min
  · -- the moved bound is above every value
    rw [hc0, wrap_min_sub_one]
    omega
  · rw [wrap_of_contains ⟨by omega, by omega⟩]
    omega

theorem lt_wrap_add_one_iff (hx : t.Contains x) (hc : t.Contains c) :
    (x < t.wrap (c + 1) ↔ ¬ c < x) ↔ c ≠ t.max := by
  have hxlo := hx.1
  have hxhi := hx.2
  have hclo := hc.1
  have hchi := hc.2
  by_cases hc0 : c = t.max
  · rw [hc0, wrap_max_add_one]
    omega
  · rw [wrap_of_contains ⟨by omega, by omega⟩]
    omega

/-- Both sides of a comparison change sign, except where one of them alone has no negation. -/
theorem wrap_neg_lt_iff (hs : t.signed = true) (hx : t.Contains x) (hc : t.Contains c) :
    (t.wrap (-c) < x ↔ t.wrap (-x) < c) ↔ (x = t.min ↔ c = t.min) := by
  have hmin := min_eq_of_signed hs
  have hxlo := hx.1
  have hclo := hc.1
  have hchi := hc.2
  have hxhi := hx.2
  by_cases hx0 : x = t.min <;> by_cases hc0 : c = t.min
  · rw [hx0, hc0]
    exact iff_of_true Iff.rfl Iff.rfl
  · rw [hx0, wrap_neg_min hs, wrap_neg_of_ne hs hc hc0]
    omega
  · rw [hc0, wrap_neg_min hs, wrap_neg_of_ne hs hx hx0]
    omega
  · rw [wrap_neg_of_ne hs hx hx0, wrap_neg_of_ne hs hc hc0]
    omega

end IntType

/-- A value of the integer type. -/
@[ext] structure TypedInt (t : IntType) where
  val : ℤ
  contains : t.Contains val
deriving DecidableEq

namespace TypedInt

variable {t : IntType}

/-- The number, wrapped around. -/
def ofInt (x : ℤ) : TypedInt t := ⟨t.wrap x, t.wrap_contains x⟩

@[simp] theorem ofInt_val (a : TypedInt t) : ofInt a.val = a :=
  TypedInt.ext (IntType.wrap_of_contains a.contains)

theorem val_ofInt (x : ℤ) : (ofInt x : TypedInt t).val = t.wrap x := rfl

theorem ofInt_congr {x y : ℤ} (h : (2 ^ t.bits : ℤ) ∣ x - y) :
    (ofInt x : TypedInt t) = ofInt y :=
  TypedInt.ext (IntType.wrap_congr h)

theorem ofInt_surjective : Function.Surjective (ofInt : ℤ → TypedInt t) :=
  fun a => ⟨a.val, a.ofInt_val⟩

/-! ## Arithmetic -/

instance : Zero (TypedInt t) := ⟨ofInt 0⟩
instance : One (TypedInt t) := ⟨ofInt 1⟩
instance : Add (TypedInt t) := ⟨fun a b => ofInt (a.val + b.val)⟩
instance : Mul (TypedInt t) := ⟨fun a b => ofInt (a.val * b.val)⟩
instance : Neg (TypedInt t) := ⟨fun a => ofInt (-a.val)⟩

theorem ofInt_zero : (ofInt 0 : TypedInt t) = 0 := rfl
theorem ofInt_one : (ofInt 1 : TypedInt t) = 1 := rfl

theorem ofInt_add (x y : ℤ) : (ofInt (x + y) : TypedInt t) = ofInt x + ofInt y := by
  refine ofInt_congr ?_
  have hx := IntType.dvd_sub_wrap (t := t) x
  have hy := IntType.dvd_sub_wrap (t := t) y
  have hsum : x + y - (t.wrap x + t.wrap y) = (x - t.wrap x) + (y - t.wrap y) := by ring
  show _ ∣ x + y - (t.wrap x + t.wrap y)
  rw [hsum]
  exact dvd_add hx hy

theorem ofInt_mul (x y : ℤ) : (ofInt (x * y) : TypedInt t) = ofInt x * ofInt y := by
  refine ofInt_congr ?_
  have hx := IntType.dvd_sub_wrap (t := t) x
  have hy := IntType.dvd_sub_wrap (t := t) y
  have hprod : x * y - t.wrap x * t.wrap y = (x - t.wrap x) * y + t.wrap x * (y - t.wrap y) := by
    ring
  show _ ∣ x * y - t.wrap x * t.wrap y
  rw [hprod]
  exact dvd_add (Dvd.dvd.mul_right hx y) (Dvd.dvd.mul_left hy _)

theorem ofInt_neg (x : ℤ) : (ofInt (-x) : TypedInt t) = -ofInt x := by
  refine ofInt_congr ?_
  have hx := IntType.dvd_sub_wrap (t := t) x
  have hneg : -x - -t.wrap x = -(x - t.wrap x) := by ring
  show _ ∣ -x - -t.wrap x
  rw [hneg]
  exact (dvd_neg).mpr hx

instance : CommRing (TypedInt t) :=
  CommRing.ofMinimalAxioms
    (fun a b c => by
      obtain ⟨x, rfl⟩ := ofInt_surjective a
      obtain ⟨y, rfl⟩ := ofInt_surjective b
      obtain ⟨z, rfl⟩ := ofInt_surjective c
      rw [← ofInt_add, ← ofInt_add, ← ofInt_add, ← ofInt_add, Int.add_assoc])
    (fun a => by
      obtain ⟨x, rfl⟩ := ofInt_surjective a
      rw [← ofInt_zero, ← ofInt_add, Int.zero_add])
    (fun a => by
      obtain ⟨x, rfl⟩ := ofInt_surjective a
      rw [← ofInt_zero, ← ofInt_neg, ← ofInt_add, Int.add_left_neg])
    (fun a b c => by
      obtain ⟨x, rfl⟩ := ofInt_surjective a
      obtain ⟨y, rfl⟩ := ofInt_surjective b
      obtain ⟨z, rfl⟩ := ofInt_surjective c
      rw [← ofInt_mul, ← ofInt_mul, ← ofInt_mul, ← ofInt_mul, Int.mul_assoc])
    (fun a b => by
      obtain ⟨x, rfl⟩ := ofInt_surjective a
      obtain ⟨y, rfl⟩ := ofInt_surjective b
      rw [← ofInt_mul, ← ofInt_mul, Int.mul_comm])
    (fun a => by
      obtain ⟨x, rfl⟩ := ofInt_surjective a
      rw [← ofInt_one, ← ofInt_mul, Int.one_mul])
    (fun a b c => by
      obtain ⟨x, rfl⟩ := ofInt_surjective a
      obtain ⟨y, rfl⟩ := ofInt_surjective b
      obtain ⟨z, rfl⟩ := ofInt_surjective c
      rw [← ofInt_add, ← ofInt_mul, ← ofInt_mul, ← ofInt_mul, ← ofInt_add, Int.mul_add])

theorem ofInt_natCast (n : ℕ) : (ofInt n : TypedInt t) = n := by
  induction n with
  | zero => rw [Nat.cast_zero, Nat.cast_zero, ofInt_zero]
  | succ n ih => rw [Nat.cast_succ, Nat.cast_succ, ofInt_add, ih, ofInt_one]

/-! ## Order -/

theorem val_injective : Function.Injective (val : TypedInt t → ℤ) := fun _ _ => TypedInt.ext

instance : LinearOrder (TypedInt t) := LinearOrder.lift' val val_injective

/-- The least value of the type. -/
def least : TypedInt t := ⟨t.min, by
  have h := t.contains_zero
  exact ⟨le_refl _, h.1.trans h.2⟩⟩

/-- The greatest value of the type. -/
def greatest : TypedInt t := ⟨t.max, by
  have h := t.contains_zero
  exact ⟨h.1.trans h.2, le_refl _⟩⟩

theorem least_le (a : TypedInt t) : least ≤ a := a.contains.1

theorem le_greatest (a : TypedInt t) : a ≤ greatest := a.contains.2

end TypedInt

end Svod.Lib
