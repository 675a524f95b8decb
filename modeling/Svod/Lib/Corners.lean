/-
  Svod.Lib.Corners

  Bounds of a two-argument function on a box from its values at the corners.

  A function that is monotone or antitone in each argument separately takes its
  extrema on a box at the corners (`le_of_corners`, `ge_of_corners`).  The
  integer operations of interval analysis are of this kind: products, both
  quotients over divisors of one sign, and shifts.
-/

import Mathlib.Tactic.Positivity

namespace Svod.Lib

open Set

section Corners

variable {α β γ : Type*} [LinearOrder α] [LinearOrder β] [LinearOrder γ]

/-- `g` runs in one direction on `s`. -/
def OneWayOn (g : α → γ) (s : Set α) : Prop := MonotoneOn g s ∨ AntitoneOn g s

theorem OneWayOn.le {g : α → γ} {a₁ a a₂ : α} {l : γ} (h : OneWayOn g (Icc a₁ a₂))
    (ha : a ∈ Icc a₁ a₂) (h₁ : l ≤ g a₁) (h₂ : l ≤ g a₂) : l ≤ g a := by
  have hle := ha.1.trans ha.2
  rcases h with h | h
  · exact h₁.trans (h (left_mem_Icc.mpr hle) ha ha.1)
  · exact h₂.trans (h ha (right_mem_Icc.mpr hle) ha.2)

theorem OneWayOn.ge {g : α → γ} {a₁ a a₂ : α} {u : γ} (h : OneWayOn g (Icc a₁ a₂))
    (ha : a ∈ Icc a₁ a₂) (h₁ : g a₁ ≤ u) (h₂ : g a₂ ≤ u) : g a ≤ u := by
  have hle := ha.1.trans ha.2
  rcases h with h | h
  · exact (h ha (right_mem_Icc.mpr hle) ha.2).trans h₂
  · exact (h (left_mem_Icc.mpr hle) ha ha.1).trans h₁

/-- `f` runs in one direction in each argument on the box. -/
structure BoxOneWay (f : α → β → γ) (a₁ a₂ : α) (b₁ b₂ : β) : Prop where
  left : ∀ b ∈ Icc b₁ b₂, OneWayOn (fun a => f a b) (Icc a₁ a₂)
  right : ∀ a ∈ Icc a₁ a₂, OneWayOn (f a) (Icc b₁ b₂)

variable {f : α → β → γ} {a₁ a a₂ : α} {b₁ b b₂ : β}

/-- A lower bound at the four corners is one on the box. -/
theorem BoxOneWay.le_of_corners (h : BoxOneWay f a₁ a₂ b₁ b₂) (ha : a ∈ Icc a₁ a₂)
    (hb : b ∈ Icc b₁ b₂) {l : γ} (h₁₁ : l ≤ f a₁ b₁) (h₁₂ : l ≤ f a₁ b₂) (h₂₁ : l ≤ f a₂ b₁)
    (h₂₂ : l ≤ f a₂ b₂) : l ≤ f a b := by
  have hle := ha.1.trans ha.2
  apply (h.left b hb).le ha
  · exact (h.right a₁ (left_mem_Icc.mpr hle)).le hb h₁₁ h₁₂
  · exact (h.right a₂ (right_mem_Icc.mpr hle)).le hb h₂₁ h₂₂

/-- An upper bound at the four corners is one on the box. -/
theorem BoxOneWay.ge_of_corners (h : BoxOneWay f a₁ a₂ b₁ b₂) (ha : a ∈ Icc a₁ a₂)
    (hb : b ∈ Icc b₁ b₂) {u : γ} (h₁₁ : f a₁ b₁ ≤ u) (h₁₂ : f a₁ b₂ ≤ u) (h₂₁ : f a₂ b₁ ≤ u)
    (h₂₂ : f a₂ b₂ ≤ u) : f a b ≤ u := by
  have hle := ha.1.trans ha.2
  apply (h.left b hb).ge ha
  · exact (h.right a₁ (left_mem_Icc.mpr hle)).ge hb h₁₁ h₁₂
  · exact (h.right a₂ (right_mem_Icc.mpr hle)).ge hb h₂₁ h₂₂

/-- A function that agrees on the box runs the same way. -/
theorem BoxOneWay.congr {g : α → β → γ} (h : BoxOneWay f a₁ a₂ b₁ b₂)
    (hfg : ∀ a, ∀ b ∈ Icc b₁ b₂, g a b = f a b) : BoxOneWay g a₁ a₂ b₁ b₂ where
  left b hb := by
    rcases h.left b hb with hm | hm
    · apply Or.inl
      intro x hx y hy hxy
      show g x b ≤ g y b
      rw [hfg x b hb, hfg y b hb]
      exact hm hx hy hxy
    · apply Or.inr
      intro x hx y hy hxy
      show g y b ≤ g x b
      rw [hfg x b hb, hfg y b hb]
      exact hm hx hy hxy
  right a ha := by
    rcases h.right a ha with hm | hm
    · apply Or.inl
      intro x hx y hy hxy
      show g a x ≤ g a y
      rw [hfg a x hx, hfg a y hy]
      exact hm hx hy hxy
    · apply Or.inr
      intro x hx y hy hxy
      show g a y ≤ g a x
      rw [hfg a x hx, hfg a y hy]
      exact hm hx hy hxy

end Corners

/-! ## Integer operations -/

section Int

variable {a₁ a₂ b₁ b₂ : ℤ}

theorem oneWayOn_mul_right (b : ℤ) (s : Set ℤ) : OneWayOn (fun a => a * b) s := by
  rcases le_total 0 b with hb | hb
  · exact Or.inl fun _ _ _ _ h => Int.mul_le_mul_of_nonneg_right h hb
  · exact Or.inr fun _ _ _ _ h => Int.mul_le_mul_of_nonpos_right h hb

theorem boxOneWay_mul : BoxOneWay (fun a b : ℤ => a * b) a₁ a₂ b₁ b₂ where
  left b _ := oneWayOn_mul_right b _
  right a _ := by
    have h := oneWayOn_mul_right a (Icc b₁ b₂)
    simp only [mul_comm] at h ⊢
    exact h

/-- For a negative dividend, a larger positive divisor gives a larger quotient. -/
theorem ediv_le_ediv_of_nonpos {a b b' : ℤ} (ha : a ≤ 0) (hb : 0 < b) (h : b ≤ b') :
    a / b ≤ a / b' := by
  have hneg : a / b ≤ 0 := by
    have := Int.ediv_le_ediv hb ha
    rwa [Int.zero_ediv] at this
  rw [Int.le_ediv_iff_mul_le (hb.trans_le h)]
  calc a / b * b' ≤ a / b * b := Int.mul_le_mul_of_nonpos_left hneg h
    _ ≤ a := Int.ediv_mul_le a hb.ne'

/-- For a non-negative dividend, a larger positive divisor gives a smaller quotient. -/
theorem ediv_le_ediv_of_nonneg {a b b' : ℤ} (ha : 0 ≤ a) (hb : 0 < b) (h : b ≤ b') :
    a / b' ≤ a / b := by
  have hpos : 0 ≤ a / b' := Int.ediv_nonneg ha (hb.trans_le h).le
  rw [Int.le_ediv_iff_mul_le hb]
  calc a / b' * b ≤ a / b' * b' := Int.mul_le_mul_of_nonneg_left h hpos
    _ ≤ a := Int.ediv_mul_le a (hb.trans_le h).ne'

theorem boxOneWay_ediv (hb : 0 < b₁) : BoxOneWay (fun a b : ℤ => a / b) a₁ a₂ b₁ b₂ where
  left b hmem := Or.inl fun _ _ _ _ h => Int.ediv_le_ediv (hb.trans_le hmem.1) h
  right a _ := by
    rcases le_total 0 a with ha | ha
    · exact Or.inr fun b hmem _ _ h => ediv_le_ediv_of_nonneg ha (hb.trans_le hmem.1) h
    · exact Or.inl fun b hmem _ _ h => ediv_le_ediv_of_nonpos ha (hb.trans_le hmem.1) h

/-- One-way functions stay so when an argument is negated. -/
theorem BoxOneWay.comp_neg {f : ℤ → ℤ → ℤ} (h : BoxOneWay f (-a₂) (-a₁) (-b₂) (-b₁)) :
    BoxOneWay (fun a b => f (-a) (-b)) a₁ a₂ b₁ b₂ where
  left b hmem := by
    rcases h.left (-b) ⟨neg_le_neg hmem.2, neg_le_neg hmem.1⟩ with hm | hm
    · exact Or.inr fun x hx y hy hxy => hm ⟨neg_le_neg hy.2, neg_le_neg hy.1⟩
        ⟨neg_le_neg hx.2, neg_le_neg hx.1⟩ (neg_le_neg hxy)
    · exact Or.inl fun x hx y hy hxy => hm ⟨neg_le_neg hy.2, neg_le_neg hy.1⟩
        ⟨neg_le_neg hx.2, neg_le_neg hx.1⟩ (neg_le_neg hxy)
  right a hmem := by
    rcases h.right (-a) ⟨neg_le_neg hmem.2, neg_le_neg hmem.1⟩ with hm | hm
    · exact Or.inr fun x hx y hy hxy => hm ⟨neg_le_neg hy.2, neg_le_neg hy.1⟩
        ⟨neg_le_neg hx.2, neg_le_neg hx.1⟩ (neg_le_neg hxy)
    · exact Or.inl fun x hx y hy hxy => hm ⟨neg_le_neg hy.2, neg_le_neg hy.1⟩
        ⟨neg_le_neg hx.2, neg_le_neg hx.1⟩ (neg_le_neg hxy)

/-- Floor division by divisors of one sign. -/
theorem boxOneWay_fdiv (hb : 0 < b₁ ∨ b₂ < 0) : BoxOneWay Int.fdiv a₁ a₂ b₁ b₂ := by
  rcases hb with hb | hb
  · refine (boxOneWay_ediv hb).congr fun a b hmem => ?_
    exact Int.fdiv_eq_ediv_of_nonneg a (hb.le.trans hmem.1)
  · refine (BoxOneWay.comp_neg (boxOneWay_ediv (neg_pos.mpr hb))).congr fun a b hmem => ?_
    rw [← Int.neg_fdiv_neg]
    exact Int.fdiv_eq_ediv_of_nonneg _ (neg_nonneg.mpr (hmem.2.trans hb.le))

/-- Truncating division by positive divisors, monotone in the dividend. -/
theorem boxOneWay_tdiv_pos (hb : 0 < b₁) : BoxOneWay Int.tdiv a₁ a₂ b₁ b₂ where
  left b hmem := Or.inl fun _ _ _ _ h => Int.tdiv_le_tdiv (hb.trans_le hmem.1) h
  right a _ := by
    rcases le_total 0 a with ha | ha
    · refine Or.inr fun b hmem b' _ h => ?_
      rw [Int.tdiv_eq_ediv_of_nonneg ha, Int.tdiv_eq_ediv_of_nonneg ha]
      exact ediv_le_ediv_of_nonneg ha (hb.trans_le hmem.1) h
    · refine Or.inl fun b hmem b' _ h => ?_
      have hneg : 0 ≤ -a := neg_nonneg.mpr ha
      have hle := ediv_le_ediv_of_nonneg hneg (hb.trans_le hmem.1) h
      rw [← Int.tdiv_eq_ediv_of_nonneg hneg, ← Int.tdiv_eq_ediv_of_nonneg hneg, Int.neg_tdiv,
        Int.neg_tdiv] at hle
      exact neg_le_neg_iff.mp hle

/-- Truncating division by divisors of one sign. -/
theorem boxOneWay_tdiv (hb : 0 < b₁ ∨ b₂ < 0) : BoxOneWay Int.tdiv a₁ a₂ b₁ b₂ := by
  rcases hb with hb | hb
  · exact boxOneWay_tdiv_pos hb
  · refine (BoxOneWay.comp_neg (boxOneWay_tdiv_pos (neg_pos.mpr hb))).congr fun a b _ => ?_
    exact (Int.neg_tdiv_neg a b).symm

/-- A left shift is a product with a power of two. -/
theorem boxOneWay_shl {b₁ b₂ : ℤ} :
    BoxOneWay (fun a b : ℤ => a * 2 ^ b.toNat) a₁ a₂ b₁ b₂ where
  left b _ := oneWayOn_mul_right _ _
  right a _ := by
    have hpow : ∀ b b' : ℤ, b ≤ b' → (2 : ℤ) ^ b.toNat ≤ 2 ^ b'.toNat := fun b b' h =>
      pow_le_pow_right₀ (by decide) (Int.toNat_le_toNat h)
    rcases le_total 0 a with ha | ha
    · exact Or.inl fun b _ b' _ h => Int.mul_le_mul_of_nonneg_left (hpow b b' h) ha
    · exact Or.inr fun b _ b' _ h => Int.mul_le_mul_of_nonpos_left ha (hpow b b' h)

/-- An arithmetic right shift is a quotient by a power of two. -/
theorem boxOneWay_shr {b₁ b₂ : ℤ} :
    BoxOneWay (fun a b : ℤ => a / 2 ^ b.toNat) a₁ a₂ b₁ b₂ where
  left b _ := Or.inl fun _ _ _ _ h => Int.ediv_le_ediv (by positivity) h
  right a _ := by
    have hpow : ∀ b b' : ℤ, b ≤ b' → (2 : ℤ) ^ b.toNat ≤ 2 ^ b'.toNat := fun b b' h =>
      pow_le_pow_right₀ (by decide) (Int.toNat_le_toNat h)
    rcases le_total 0 a with ha | ha
    · exact Or.inr fun b _ b' _ h => ediv_le_ediv_of_nonneg ha (by positivity) (hpow b b' h)
    · exact Or.inl fun b _ b' _ h => ediv_le_ediv_of_nonpos ha (by positivity) (hpow b b' h)

end Int

end Svod.Lib
