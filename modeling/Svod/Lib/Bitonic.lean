/-
  Svod.Lib.Bitonic

  Bitonic networks on sequences of a linear order.

  A stage orders every position against the one that differs in one bit.  The
  proofs look at one threshold at a time: below the network the positions above
  the threshold form an arc of each block, and a stage splits an arc into two
  halves that are arcs, one of them constant.
-/

import Mathlib.Data.List.Rotate
import Mathlib.Data.Nat.Bitwise
import Mathlib.Order.MinMax

namespace Svod.Bitonic

variable {P : ℕ → Prop} {k p q s : ℕ}

/-! ## Arcs -/

/-- Below `n` the predicate holds on an interval, or off one. -/
def IsArc (n : ℕ) (P : ℕ → Prop) : Prop :=
  ∃ lo hi, (∀ p < n, P p ↔ lo ≤ p ∧ p < hi) ∨ (∀ p < n, P p ↔ ¬(lo ≤ p ∧ p < hi))

theorem IsArc.congr {n : ℕ} {P Q : ℕ → Prop} (h : IsArc n P) (hPQ : ∀ p < n, Q p ↔ P p) :
    IsArc n Q := by
  obtain ⟨lo, hi, h | h⟩ := h
  · exact ⟨lo, hi, .inl fun p hp => (hPQ p hp).trans (h p hp)⟩
  · exact ⟨lo, hi, .inr fun p hp => (hPQ p hp).trans (h p hp)⟩

theorem IsArc.not {n : ℕ} (h : IsArc n P) : IsArc n fun p => ¬P p := by
  obtain ⟨lo, hi, h | h⟩ := h
  · exact ⟨lo, hi, .inr fun p hp => not_congr (h p hp)⟩
  · exact ⟨lo, hi, .inl fun p hp => (not_congr (h p hp)).trans not_not⟩

/-- The two halves of an interval, met and joined. -/
theorem halves_of_interval {m lo hi : ℕ} (h : ∀ p < 2 * m, P p ↔ lo ≤ p ∧ p < hi) :
    IsArc m (fun p => P p ∧ P (m + p)) ∧ IsArc m (fun p => P p ∨ P (m + p)) ∧
      ((∀ p < m, ¬(P p ∧ P (m + p))) ∨ ∀ p < m, P p ∨ P (m + p)) := by
  have hlow : ∀ p < m, (P p ↔ lo ≤ p ∧ p < hi) := fun p hp => h p (by omega)
  have hhigh : ∀ p < m, (P (m + p) ↔ lo ≤ m + p ∧ m + p < hi) := fun p hp => h (m + p) (by omega)
  have hmeet : ∀ p < m, (P p ∧ P (m + p) ↔ (lo ≤ p ∧ p < hi) ∧ lo ≤ m + p ∧ m + p < hi) :=
    fun p hp => and_congr (hlow p hp) (hhigh p hp)
  have hjoin : ∀ p < m, (P p ∨ P (m + p) ↔ (lo ≤ p ∧ p < hi) ∨ lo ≤ m + p ∧ m + p < hi) :=
    fun p hp => or_congr (hlow p hp) (hhigh p hp)
  refine ⟨⟨lo, hi - m, .inl fun p hp => (hmeet p hp).trans (by omega)⟩, ?_, ?_⟩
  · -- the union is an interval where only one half is met, else the complement of one
    rcases le_or_gt hi m with hhi | hhi
    · exact ⟨lo, hi, .inl fun p hp => (hjoin p hp).trans (by omega)⟩
    · rcases le_or_gt m lo with hlo | hlo
      · exact ⟨lo - m, hi - m, .inl fun p hp => (hjoin p hp).trans (by omega)⟩
      · exact ⟨hi - m, lo, .inr fun p hp => (hjoin p hp).trans (by omega)⟩
  · rcases le_or_gt (min hi (2 * m) - m) lo with hle | hlt
    · left
      intro p hp
      rw [hmeet p hp]
      omega
    · right
      intro p hp
      rw [hjoin p hp]
      omega

theorem IsArc.halves {m : ℕ} (h : IsArc (2 * m) P) :
    IsArc m (fun p => P p ∧ P (m + p)) ∧ IsArc m (fun p => P p ∨ P (m + p)) ∧
      ((∀ p < m, ¬(P p ∧ P (m + p))) ∨ ∀ p < m, P p ∨ P (m + p)) := by
  obtain ⟨lo, hi, h | h⟩ := h
  · exact halves_of_interval h
  · -- meet and join change places in the complement
    have hnot : ∀ p < 2 * m, ¬P p ↔ lo ≤ p ∧ p < hi := fun p hp => by rw [h p hp, not_not]
    obtain ⟨hmeet, hjoin, hconst⟩ := halves_of_interval hnot
    refine ⟨hjoin.not.congr fun p _ => ?_, hmeet.not.congr fun p _ => ?_, ?_⟩
    · tauto
    · tauto
    · rcases hconst with hc | hc
      · right
        intro p hp
        have := hc p hp
        tauto
      · left
        intro p hp
        have := hc p hp
        tauto

/-- An arc seen from another start. -/
theorem IsArc.rotate {n r : ℕ} (h : IsArc n P) (hr : r < n) : IsArc n fun p => P ((p + r) % n) := by
  have hmod : ∀ p < n, (p + r) % n = if p + r < n then p + r else p + r - n := by
    intro p hp
    split
    · next hlt => exact Nat.mod_eq_of_lt hlt
    · rw [Nat.mod_eq_sub_mod (by omega), Nat.mod_eq_of_lt (by omega)]
  have hinterval : ∀ (lo hi : ℕ) (Q : ℕ → Prop), (∀ p < n, Q p ↔ lo ≤ p ∧ p < hi) →
      IsArc n fun p => Q ((p + r) % n) := by
    intro lo hi Q hQ
    have hQ' : ∀ p < n, (Q ((p + r) % n) ↔
        if p + r < n then lo ≤ p + r ∧ p + r < hi else lo ≤ p + r - n ∧ p + r - n < hi) := by
      intro p hp
      rw [hQ _ (Nat.mod_lt _ (by omega)), hmod p hp]
      split <;> rfl
    rcases le_or_gt (min hi n) r with hhi | hhi
    · exact ⟨lo + n - r, min hi n + n - r, .inl fun p hp =>
        (hQ' p hp).trans (by split <;> omega)⟩
    · rcases le_or_gt r lo with hlo | hlo
      · exact ⟨lo - r, min hi n - r, .inl fun p hp => (hQ' p hp).trans (by split <;> omega)⟩
      · exact ⟨min hi n - r, lo + n - r, .inr fun p hp => (hQ' p hp).trans (by split <;> omega)⟩
  obtain ⟨lo, hi, h | h⟩ := h
  · exact hinterval lo hi P h
  · have hnot : ∀ p < n, ¬P p ↔ lo ≤ p ∧ p < hi := fun p hp => by rw [h p hp, not_not]
    exact (hinterval lo hi (fun p => ¬P p) hnot).not.congr fun p _ => not_not.symm

/-- What holds from some position on holds from a first one. -/
theorem exists_start {n : ℕ} (h : ∀ p q, p ≤ q → q < n → P p → P q) :
    ∃ a ≤ n, ∀ p < n, P p ↔ a ≤ p := by
  induction n with
  | zero => exact ⟨0, le_rfl, fun p hp => absurd hp (Nat.not_lt_zero p)⟩
  | succ n ih =>
    obtain ⟨a, ha, hiff⟩ := ih fun p q hpq hq => h p q hpq (by omega)
    by_cases hlast : P n
    · refine ⟨a, by omega, fun p hp => ?_⟩
      rcases Nat.lt_succ_iff_lt_or_eq.mp hp with hlt | rfl
      · exact hiff p hlt
      · exact iff_of_true hlast ha
    · refine ⟨n + 1, le_rfl, fun p hp => ?_⟩
      refine iff_of_false (fun hP => hlast ?_) (by omega)
      exact h p n (by omega) (by omega) hP

/-- What holds up to some position holds up to a last one. -/
theorem exists_end {n : ℕ} (h : ∀ p q, p ≤ q → q < n → P q → P p) :
    ∃ b ≤ n, ∀ p < n, P p ↔ p < b := by
  obtain ⟨b, hb, hiff⟩ := exists_start (P := fun p => ¬P p) (n := n)
    fun p q hpq hq hp hqP => hp (h p q hpq hq hqP)
  refine ⟨b, hb, fun p hp => ?_⟩
  rw [← not_le, ← hiff p hp, not_not]

/-- Up through one run and down through the next. -/
theorem isArc_of_up_down {m n : ℕ} (hup : ∀ p q, p ≤ q → q < m → P p → P q)
    (hdown : ∀ p q, p ≤ q → q < n → P (m + q) → P (m + p)) : IsArc (m + n) P := by
  obtain ⟨a, ha, hlow⟩ := exists_start hup
  obtain ⟨b, hb, hhigh⟩ := exists_end (P := fun p => P (m + p)) hdown
  refine ⟨a, m + b, .inl fun p hp => ?_⟩
  rcases lt_or_ge p m with hlt | hge
  · exact (hlow p hlt).trans (by omega)
  · have := hhigh (p - m) (by omega)
    rw [Nat.add_sub_cancel' hge] at this
    exact this.trans (by omega)

/-! ## Stages -/

section Stages

variable {α : Type*} [LinearOrder α]

/-- In a block whose bit `s` is clear the position with bit `i` keeps the later of its pair, in
    the others the position without it. -/
def keepsLast (s i p : ℕ) : Bool := p.testBit i != p.testBit s

/-- Every position ordered against the one `2 ^ i` away. -/
def stage (s i : ℕ) (x : ℕ → α) (p : ℕ) : α :=
  if keepsLast s i p then max (x p) (x (p ^^^ 2 ^ i)) else min (x p) (x (p ^^^ 2 ^ i))

/-- The stages of the distances below `2 ^ k`, from the greatest on. -/
def merge (s : ℕ) : ℕ → (ℕ → α) → ℕ → α
  | 0, x => x
  | k + 1, x => merge s k (stage s k x)

/-- The merges of the sizes from two to `2 ^ k`. -/
def sort : ℕ → (ℕ → α) → ℕ → α
  | 0, x => x
  | k + 1, x => merge (k + 1) (k + 1) (sort k x)

theorem testBit_block (hp : p < 2 ^ k) (hs : k ≤ s) :
    (2 ^ k * q + p).testBit s = (2 ^ k * q).testBit s := by
  have hzero := Nat.testBit_two_pow_mul_add q (Nat.two_pow_pos k) s
  rw [Nat.add_zero] at hzero
  rw [Nat.testBit_two_pow_mul_add q hp, hzero, if_neg (by omega), if_neg (by omega)]

theorem xor_low (hp : p < 2 ^ k) :
    (2 ^ (k + 1) * q + p) ^^^ 2 ^ k = 2 ^ (k + 1) * q + (2 ^ k + p) := by
  have hpow : 2 ^ (k + 1) = 2 * 2 ^ k := Nat.pow_succ'
  apply Nat.eq_of_testBit_eq
  intro j
  rw [Nat.testBit_xor, Nat.testBit_two_pow, Nat.testBit_two_pow_mul_add q (by omega),
    Nat.testBit_two_pow_mul_add q (by omega)]
  rcases lt_trichotomy j k with hlt | rfl | hgt
  · rw [if_pos (by omega), if_pos (by omega), Nat.testBit_two_pow_add_gt hlt]
    simp [hlt.ne']
  · rw [if_pos (by omega), if_pos (by omega), Nat.testBit_two_pow_add_eq]
    simp
  · rw [if_neg (by omega), if_neg (by omega)]
    simp [hgt.ne]

/-- The lower half of a block after the stage of its size. -/
theorem stage_low (hs : k < s) (hp : p < 2 ^ k) (x : ℕ → α) :
    stage s k x (2 ^ (k + 1) * q + p) =
      if (2 ^ (k + 1) * q).testBit s
      then max (x (2 ^ (k + 1) * q + p)) (x (2 ^ (k + 1) * q + (2 ^ k + p)))
      else min (x (2 ^ (k + 1) * q + p)) (x (2 ^ (k + 1) * q + (2 ^ k + p))) := by
  have hpow : 2 ^ (k + 1) = 2 * 2 ^ k := Nat.pow_succ'
  have hbit : (2 ^ (k + 1) * q + p).testBit k = false := by
    rw [Nat.testBit_two_pow_mul_add q (by omega), if_pos (by omega), Nat.testBit_lt_two_pow hp]
  rw [stage, keepsLast, hbit, testBit_block (by omega) (by omega), xor_low hp, Bool.false_bne]

/-- The upper half of a block after the stage of its size. -/
theorem stage_high (hs : k < s) (hp : p < 2 ^ k) (x : ℕ → α) :
    stage s k x (2 ^ (k + 1) * q + (2 ^ k + p)) =
      if (2 ^ (k + 1) * q).testBit s
      then min (x (2 ^ (k + 1) * q + p)) (x (2 ^ (k + 1) * q + (2 ^ k + p)))
      else max (x (2 ^ (k + 1) * q + p)) (x (2 ^ (k + 1) * q + (2 ^ k + p))) := by
  have hpow : 2 ^ (k + 1) = 2 * 2 ^ k := Nat.pow_succ'
  have hbit : (2 ^ (k + 1) * q + (2 ^ k + p)).testBit k = true := by
    rw [Nat.testBit_two_pow_mul_add q (by omega), if_pos (by omega), Nat.testBit_two_pow_add_eq,
      Nat.testBit_lt_two_pow hp]
    rfl
  have hxor : (2 ^ (k + 1) * q + (2 ^ k + p)) ^^^ 2 ^ k = 2 ^ (k + 1) * q + p := by
    rw [← xor_low hp, Nat.xor_xor_cancel_right]
  rw [stage, keepsLast, hbit, testBit_block (by omega) (by omega), hxor]
  cases (2 ^ (k + 1) * q).testBit s
  · exact max_comm _ _
  · exact min_comm _ _

theorem stage_eq_or (s i : ℕ) (x : ℕ → α) (p : ℕ) :
    stage s i x p = x p ∨ stage s i x p = x (p ^^^ 2 ^ i) := by
  rw [stage]
  split
  · exact max_choice _ _
  · exact min_choice _ _

/-- A merge of a block takes its values from the block. -/
theorem merge_mem (s k : ℕ) (x : ℕ → α) (p : ℕ) :
    ∃ p', p' / 2 ^ k = p / 2 ^ k ∧ merge s k x p = x p' := by
  induction k generalizing x p with
  | zero => exact ⟨p, rfl, rfl⟩
  | succ k ih =>
    obtain ⟨p', hp', heq⟩ := ih (stage s k x) p
    have hdiv : p' / 2 ^ (k + 1) = p / 2 ^ (k + 1) := by
      rw [pow_succ, ← Nat.div_div_eq_div_mul, hp', Nat.div_div_eq_div_mul]
    rcases stage_eq_or s k x p' with h | h
    · exact ⟨p', hdiv, heq.trans h⟩
    · refine ⟨p' ^^^ 2 ^ k, ?_, heq.trans h⟩
      have hzero : 2 ^ k / 2 ^ (k + 1) = 0 :=
        Nat.div_eq_of_lt (Nat.pow_lt_pow_right (by decide) (by omega))
      rw [Nat.xor_div_two_pow, hzero, Nat.xor_zero, hdiv]

theorem merge_block_mem (s k : ℕ) (x : ℕ → α) (hp : p < 2 ^ k) :
    ∃ j < 2 ^ k, merge s k x (2 ^ k * q + p) = x (2 ^ k * q + j) := by
  obtain ⟨p', hdiv, heq⟩ := merge_mem s k x (2 ^ k * q + p)
  rw [Nat.mul_add_div (Nat.two_pow_pos k), Nat.div_eq_of_lt hp, Nat.add_zero] at hdiv
  refine ⟨p' % 2 ^ k, Nat.mod_lt _ (Nat.two_pow_pos k), ?_⟩
  rw [heq, ← hdiv, Nat.div_add_mod]

/-! ## Sorted blocks -/

/-- The first `n` values are in ascending order, or in descending order. -/
def Ordered (down : Bool) (n : ℕ) (f : ℕ → α) : Prop :=
  ∀ p q, p ≤ q → q < n → if down then f q ≤ f p else f p ≤ f q

/-- At every threshold the block is an arc. -/
def ArcBlock (x : ℕ → α) (k q : ℕ) : Prop :=
  ∀ c, IsArc (2 ^ k) fun p => c < x (2 ^ k * q + p)

theorem block_even (k q p : ℕ) : 2 ^ k * (2 * q) + p = 2 ^ (k + 1) * q + p := by
  rw [pow_succ, Nat.mul_assoc]

theorem block_odd (k q p : ℕ) : 2 ^ k * (2 * q + 1) + p = 2 ^ (k + 1) * q + (2 ^ k + p) := by
  rw [pow_succ, Nat.mul_add, Nat.mul_one, Nat.mul_assoc, Nat.add_assoc]

theorem Ordered.halves {down : Bool} {m : ℕ} {f : ℕ → α} (hlow : Ordered down m f)
    (hhigh : Ordered down m fun p => f (m + p))
    (hacross : ∀ p q, p < m → q < m → if down then f (m + q) ≤ f p else f p ≤ f (m + q)) :
    Ordered down (2 * m) f := by
  intro p q hpq hq
  rcases lt_or_ge q m with hqm | hqm
  · exact hlow p q hpq hqm
  · obtain ⟨q, rfl⟩ := Nat.exists_eq_add_of_le hqm
    rcases lt_or_ge p m with hpm | hpm
    · exact hacross p q hpm (by omega)
    · obtain ⟨p, rfl⟩ := Nat.exists_eq_add_of_le hpm
      exact hhigh p q (by omega) (by omega)

/-- Above a threshold the lower half holds the pairs with both above it, or in descending order
    those with one. -/
theorem lt_stage_low (hs : k < s) (hp : p < 2 ^ k) (x : ℕ → α) (c : α) :
    c < stage s k x (2 ^ (k + 1) * q + p) ↔
      if (2 ^ (k + 1) * q).testBit s
      then c < x (2 ^ (k + 1) * q + p) ∨ c < x (2 ^ (k + 1) * q + (2 ^ k + p))
      else c < x (2 ^ (k + 1) * q + p) ∧ c < x (2 ^ (k + 1) * q + (2 ^ k + p)) := by
  rw [stage_low hs hp]
  split
  · exact lt_max_iff
  · exact lt_min_iff

theorem lt_stage_high (hs : k < s) (hp : p < 2 ^ k) (x : ℕ → α) (c : α) :
    c < stage s k x (2 ^ (k + 1) * q + (2 ^ k + p)) ↔
      if (2 ^ (k + 1) * q).testBit s
      then c < x (2 ^ (k + 1) * q + p) ∧ c < x (2 ^ (k + 1) * q + (2 ^ k + p))
      else c < x (2 ^ (k + 1) * q + p) ∨ c < x (2 ^ (k + 1) * q + (2 ^ k + p)) := by
  rw [stage_high hs hp]
  split
  · exact lt_min_iff
  · exact lt_max_iff

theorem ArcBlock.halves {k q : ℕ} {x : ℕ → α} (h : ArcBlock x (k + 1) q) (c : α) :
    let meet := fun p => c < x (2 ^ (k + 1) * q + p) ∧ c < x (2 ^ (k + 1) * q + (2 ^ k + p))
    let join := fun p => c < x (2 ^ (k + 1) * q + p) ∨ c < x (2 ^ (k + 1) * q + (2 ^ k + p))
    IsArc (2 ^ k) meet ∧ IsArc (2 ^ k) join ∧
      ((∀ p < 2 ^ k, ¬meet p) ∨ ∀ p < 2 ^ k, join p) := by
  have harc : IsArc (2 * 2 ^ k) fun p => c < x (2 ^ (k + 1) * q + p) := by
    rw [← pow_succ']
    exact h c
  exact harc.halves

/-- The halves of an arc are arcs after a stage. -/
theorem ArcBlock.stage {x : ℕ → α} (h : ArcBlock x (k + 1) q) (hs : k < s) :
    ArcBlock (stage s k x) k (2 * q) ∧ ArcBlock (stage s k x) k (2 * q + 1) := by
  constructor
  · intro c
    obtain ⟨hmeet, hjoin, -⟩ := h.halves c
    simp only [block_even]
    by_cases hdown : (2 ^ (k + 1) * q).testBit s = true
    · exact hjoin.congr fun p hp => by rw [lt_stage_low hs hp, if_pos hdown]
    · exact hmeet.congr fun p hp => by rw [lt_stage_low hs hp, if_neg hdown]
  · intro c
    obtain ⟨hmeet, hjoin, -⟩ := h.halves c
    simp only [block_odd]
    by_cases hdown : (2 ^ (k + 1) * q).testBit s = true
    · exact hmeet.congr fun p hp => by rw [lt_stage_high hs hp, if_pos hdown]
    · exact hjoin.congr fun p hp => by rw [lt_stage_high hs hp, if_neg hdown]

/-- After a stage of an arc no value of one half is on the wrong side of one of the other. -/
theorem ArcBlock.stage_across {x : ℕ → α} (h : ArcBlock x (k + 1) q) (hs : k < s) {p p' : ℕ}
    (hp : p < 2 ^ k) (hp' : p' < 2 ^ k) :
    if (2 ^ (k + 1) * q).testBit s
    then Bitonic.stage s k x (2 ^ (k + 1) * q + (2 ^ k + p')) ≤
      Bitonic.stage s k x (2 ^ (k + 1) * q + p)
    else Bitonic.stage s k x (2 ^ (k + 1) * q + p) ≤
      Bitonic.stage s k x (2 ^ (k + 1) * q + (2 ^ k + p')) := by
  by_cases hdown : (2 ^ (k + 1) * q).testBit s = true
  · rw [if_pos hdown]
    by_contra hlt
    -- the threshold is the lower value
    have hhigh := (lt_stage_high hs hp' x _).mp (not_le.mp hlt)
    have hlow := (not_congr (lt_stage_low hs hp x _)).mp
      (lt_irrefl (Bitonic.stage s k x (2 ^ (k + 1) * q + p)))
    rw [if_pos hdown] at hhigh hlow
    rcases (h.halves _).2.2 with hc | hc
    · exact hc p' hp' hhigh
    · exact hlow (hc p hp)
  · rw [if_neg hdown]
    by_contra hlt
    have hlow := (lt_stage_low hs hp x _).mp (not_le.mp hlt)
    have hhigh := (not_congr (lt_stage_high hs hp' x _)).mp
      (lt_irrefl (Bitonic.stage s k x (2 ^ (k + 1) * q + (2 ^ k + p'))))
    rw [if_neg hdown] at hhigh hlow
    rcases (h.halves _).2.2 with hc | hc
    · exact hc p hp hlow
    · exact hhigh (hc p' hp')

/-- A merge orders a block that is an arc at every threshold. -/
theorem ArcBlock.merge {s k q : ℕ} {x : ℕ → α} (h : ArcBlock x k q) (hk : k ≤ s) :
    Ordered ((2 ^ k * q).testBit s) (2 ^ k) fun p => merge s k x (2 ^ k * q + p) := by
  induction k generalizing x q with
  | zero =>
    intro p p' hpp' hp'
    obtain ⟨rfl, rfl⟩ : p = 0 ∧ p' = 0 := by omega
    split <;> exact le_rfl
  | succ k ih =>
    obtain ⟨heven, hodd⟩ := h.stage (Nat.lt_of_succ_le hk)
    have hlow := ih heven (by omega)
    have hhigh := ih hodd (by omega)
    have hbit : (2 ^ k * (2 * q + 1)).testBit s = (2 ^ (k + 1) * q).testBit s := by
      rw [show 2 ^ k * (2 * q + 1) = 2 ^ (k + 1) * q + 2 ^ k by
          rw [pow_succ, Nat.mul_add, Nat.mul_one, Nat.mul_assoc],
        testBit_block (Nat.pow_lt_pow_right (by decide) (by omega)) hk]
    have hbit' : (2 ^ k * (2 * q)).testBit s = (2 ^ (k + 1) * q).testBit s := by
      rw [pow_succ, Nat.mul_assoc]
    rw [hbit'] at hlow
    rw [hbit] at hhigh
    simp only [block_even] at hlow
    simp only [block_odd] at hhigh
    have hacross : ∀ p p', p < 2 ^ k → p' < 2 ^ k →
        if (2 ^ (k + 1) * q).testBit s
        then Bitonic.merge s (k + 1) x (2 ^ (k + 1) * q + (2 ^ k + p')) ≤
          Bitonic.merge s (k + 1) x (2 ^ (k + 1) * q + p)
        else Bitonic.merge s (k + 1) x (2 ^ (k + 1) * q + p) ≤
          Bitonic.merge s (k + 1) x (2 ^ (k + 1) * q + (2 ^ k + p')) := by
      intro p p' hp hp'
      -- the values of the halves are those of the stage
      obtain ⟨j, hj, hjeq⟩ := merge_block_mem s k (Bitonic.stage s k x) (q := 2 * q) hp
      obtain ⟨j', hj', hjeq'⟩ := merge_block_mem s k (Bitonic.stage s k x) (q := 2 * q + 1) hp'
      rw [block_even, block_even] at hjeq
      rw [block_odd, block_odd] at hjeq'
      rw [Bitonic.merge, hjeq, hjeq']
      exact h.stage_across hk hj hj'
    rw [show 2 ^ (k + 1) = 2 * 2 ^ k from pow_succ' 2 k] at hlow hhigh hacross ⊢
    exact hlow.halves hhigh hacross

/-- After the sort up to a size its blocks are in order, ascending and descending in turn. -/
theorem sort_block (k q : ℕ) (x : ℕ → α) :
    Ordered ((2 ^ k * q).testBit k) (2 ^ k) fun p => sort k x (2 ^ k * q + p) := by
  induction k generalizing q with
  | zero =>
    intro p p' hpp' hp'
    obtain ⟨rfl, rfl⟩ : p = 0 ∧ p' = 0 := by omega
    split <;> exact le_rfl
  | succ k ih =>
    refine ArcBlock.merge (fun c => ?_) le_rfl
    have hup : (2 ^ k * (2 * q)).testBit k = false := by
      rw [Nat.testBit_two_pow_mul]
      simp
    have hdown : (2 ^ k * (2 * q + 1)).testBit k = true := by
      rw [Nat.testBit_two_pow_mul]
      simp
    have hlow := ih (2 * q)
    have hhigh := ih (2 * q + 1)
    rw [hup] at hlow
    rw [hdown] at hhigh
    simp only [block_even] at hlow
    simp only [block_odd] at hhigh
    rw [pow_succ', two_mul] at hlow hhigh ⊢
    exact isArc_of_up_down (fun p p' hpp' hp' h => h.trans_le (hlow p p' hpp' hp'))
      fun p p' hpp' hp' h => h.trans_le (hhigh p p' hpp' hp')

/-- The sort of a whole sequence. -/
theorem sort_ordered (k : ℕ) (x : ℕ → α) (hpq : p ≤ q) (hq : q < 2 ^ k) :
    sort k x p ≤ sort k x q := by
  have h := sort_block k 0 x p q hpq hq
  simpa using h

/-- The last merge alone orders a sequence that is an arc at every threshold. -/
theorem merge_ordered {x : ℕ → α} (h : ∀ c, IsArc (2 ^ k) fun p => c < x p) (hpq : p ≤ q)
    (hq : q < 2 ^ k) : merge k k x p ≤ merge k k x q := by
  have harc : ArcBlock x k 0 := fun c => by simpa using h c
  have hord := harc.merge le_rfl p q hpq hq
  simpa using hord

/-! ## Permutations -/

/-- The partner of a position where the stage takes its value from there. -/
def source (s i : ℕ) (x : ℕ → α) (p : ℕ) : ℕ := if stage s i x p = x p then p else p ^^^ 2 ^ i

theorem stage_eq_source (s i : ℕ) (x : ℕ → α) (p : ℕ) : stage s i x p = x (source s i x p) := by
  rw [source]
  split
  · assumption
  · next h => exact (stage_eq_or s i x p).resolve_left h

theorem keepsLast_xor {s i : ℕ} (hi : i ≠ s) (p : ℕ) :
    keepsLast s i (p ^^^ 2 ^ i) = !keepsLast s i p := by
  rw [keepsLast, keepsLast, Nat.testBit_xor, Nat.testBit_xor, Nat.testBit_two_pow_self,
    Nat.testBit_two_pow_of_ne hi]
  cases p.testBit i <;> cases p.testBit s <;> rfl

/-- Of a pair both keep their value or both take the other's. -/
theorem source_source {s i : ℕ} (hi : i ≠ s) (x : ℕ → α) (p : ℕ) :
    source s i x (source s i x p) = p := by
  have hpair : stage s i x (p ^^^ 2 ^ i) = x (p ^^^ 2 ^ i) ↔ stage s i x p = x p := by
    rw [stage, stage, keepsLast_xor hi, Nat.xor_xor_cancel_right]
    cases keepsLast s i p
    · simp only [Bool.not_false, if_true, Bool.false_eq_true, if_false, max_eq_left_iff,
        min_eq_left_iff]
    · simp only [Bool.not_true, if_true, Bool.false_eq_true, if_false, max_eq_left_iff,
        min_eq_left_iff]
  by_cases h : stage s i x p = x p
  · rw [source, source, if_pos h, if_pos h]
  · rw [source, source, if_neg h, if_neg (fun h' => h (hpair.mp h')), Nat.xor_xor_cancel_right]

theorem source_lt {s i m : ℕ} (hi : i < m) (x : ℕ → α) (hp : p < 2 ^ m) :
    source s i x p < 2 ^ m := by
  rw [source]
  split
  · exact hp
  · exact Nat.xor_lt_two_pow hp (Nat.pow_lt_pow_right (by decide) hi)

theorem stage_perm {s i m : ℕ} (hi : i < m) (his : i ≠ s) (x : ℕ → α) :
    ((List.range (2 ^ m)).map (stage s i x)).Perm ((List.range (2 ^ m)).map x) := by
  have hinv : Function.Involutive (source s i x) := source_source his x
  have hsource : ((List.range (2 ^ m)).map (source s i x)).Perm (List.range (2 ^ m)) := by
    refine (List.perm_ext_iff_of_nodup (List.nodup_range.map hinv.injective) List.nodup_range).mpr
      fun p => ?_
    simp only [List.mem_map, List.mem_range]
    constructor
    · rintro ⟨q, hq, rfl⟩
      exact source_lt hi x hq
    · intro hp
      exact ⟨source s i x p, source_lt hi x hp, hinv p⟩
  have hmap : (List.range (2 ^ m)).map (stage s i x) =
      ((List.range (2 ^ m)).map (source s i x)).map x := by
    rw [List.map_map]
    exact List.map_congr_left fun p _ => stage_eq_source s i x p
  rw [hmap]
  exact hsource.map x

theorem merge_perm {s k m : ℕ} (hk : k ≤ m) (hs : k ≤ s) (x : ℕ → α) :
    ((List.range (2 ^ m)).map (merge s k x)).Perm ((List.range (2 ^ m)).map x) := by
  induction k generalizing x with
  | zero => exact List.Perm.refl _
  | succ k ih => exact (ih (by omega) (by omega) _).trans (stage_perm hk (by omega) x)

theorem sort_perm {k m : ℕ} (hk : k ≤ m) (x : ℕ → α) :
    ((List.range (2 ^ m)).map (sort k x)).Perm ((List.range (2 ^ m)).map x) := by
  induction k with
  | zero => exact List.Perm.refl _
  | succ k ih => exact (merge_perm hk le_rfl _).trans (ih (by omega))

/-! ## Bitonic lists -/

/-- A rotation of an ascending run and a descending one. -/
def IsBitonic (l : List α) : Prop :=
  ∃ up down : List α, up.Pairwise (· ≤ ·) ∧ down.Pairwise (· ≥ ·) ∧ l.IsRotated (up ++ down)

/-- An ascending run and a descending one are an arc at every threshold. -/
theorem isArc_append {up down : List α} (hup : up.Pairwise (· ≤ ·)) (hdown : down.Pairwise (· ≥ ·))
    (c : α) : IsArc (up ++ down).length fun p => ∃ v, (up ++ down)[p]? = some v ∧ c < v := by
  rw [List.length_append]
  refine isArc_of_up_down ?_ ?_
  · rintro p q hpq hq ⟨v, hv, hc⟩
    have hp : p < up.length := by omega
    rw [List.getElem?_append_left hp, List.getElem?_eq_getElem hp] at hv
    cases hv
    refine ⟨up[q], by rw [List.getElem?_append_left hq, List.getElem?_eq_getElem hq], ?_⟩
    rcases hpq.eq_or_lt with rfl | hlt
    · exact hc
    · exact hc.trans_le (List.pairwise_iff_getElem.mp hup p q hp hq hlt)
  · rintro p q hpq hq ⟨v, hv, hc⟩
    have hp : p < down.length := by omega
    rw [List.getElem?_append_right (by omega), Nat.add_sub_cancel_left,
      List.getElem?_eq_getElem hq] at hv
    cases hv
    refine ⟨down[p], ?_, ?_⟩
    · rw [List.getElem?_append_right (by omega), Nat.add_sub_cancel_left,
        List.getElem?_eq_getElem hp]
    · rcases hpq.eq_or_lt with rfl | hlt
      · exact hc
      · exact hc.trans_le (List.pairwise_iff_getElem.mp hdown p q hp hq hlt)

theorem IsBitonic.isArc {n : ℕ} {x : ℕ → α} (h : IsBitonic ((List.range n).map x)) (c : α) :
    IsArc n fun p => c < x p := by
  obtain ⟨up, down, hup, hdown, hrot⟩ := h
  obtain ⟨r, hr, heq⟩ := List.isRotated_iff_mod.mp hrot.symm
  have hlen : (up ++ down).length = n := by
    rw [← hrot.perm.length_eq, List.length_map, List.length_range]
  rcases Nat.eq_zero_or_pos n with rfl | hn
  · exact ⟨0, 0, .inl fun p hp => absurd hp (Nat.not_lt_zero p)⟩
  · have harc := (isArc_append hup hdown c)
    rw [hlen] at harc
    refine (harc.rotate (Nat.mod_lt r hn)).congr fun p hp => ?_
    have hget : ((List.range n).map x)[p]? = some (x p) := by
      rw [List.getElem?_map, List.getElem?_range hp, Option.map_some]
    rw [← heq, List.getElem?_rotate (by omega), hlen] at hget
    rw [Nat.add_mod_mod, hget]
    simp

/-! ## One run reversed against another -/

/-- The earlier of each pair of the first run and the second one reversed against its end. -/
def lower (n m : ℕ) (x y : ℕ → α) (p : ℕ) : α :=
  if n - 1 - p < m then min (x p) (y (n - 1 - p)) else x p

/-- The later of each pair of two runs as long. -/
def upper (n : ℕ) (x y : ℕ → α) (p : ℕ) : α := max (x p) (y (n - 1 - p))

/-- What the earlier of the pairs leave of both runs. -/
def dropped (n m : ℕ) (x y : ℕ → α) : List α :=
  (List.range (min n m)).map (fun i => max (x (n - 1 - i)) (y i)) ++
    (List.range' (min n m) (m - min n m)).map y

section Runs

variable {n m : ℕ} {x y : ℕ → α} (hx : ∀ p q, p ≤ q → q < n → x p ≤ x q)
  (hy : ∀ p q, p ≤ q → q < m → y p ≤ y q)
include hx hy

theorem lower_isArc (c : α) : IsArc n fun p => c < lower n m x y p := by
  obtain ⟨a, ha, hstart⟩ := exists_start (P := fun p => c < x p) (n := n)
    fun p q hpq hq h => h.trans_le (hx p q hpq hq)
  obtain ⟨b, hb, hstart'⟩ := exists_start (P := fun p => c < y p) (n := m)
    fun p q hpq hq h => h.trans_le (hy p q hpq hq)
  refine ⟨a, n - b, .inl fun p hp => ?_⟩
  show c < lower n m x y p ↔ _
  by_cases hm : n - 1 - p < m
  · rw [lower, if_pos hm, lt_min_iff, hstart p hp, hstart' _ hm]
    omega
  · rw [lower, if_neg hm, hstart p hp]
    omega

theorem upper_isArc (hm : m = n) (c : α) : IsArc n fun p => c < upper n x y p := by
  obtain ⟨a, ha, hstart⟩ := exists_start (P := fun p => c < x p) (n := n)
    fun p q hpq hq h => h.trans_le (hx p q hpq hq)
  obtain ⟨b, hb, hstart'⟩ := exists_start (P := fun p => c < y p) (n := m)
    fun p q hpq hq h => h.trans_le (hy p q hpq hq)
  refine ⟨n - b, a, .inr fun p hp => ?_⟩
  show c < upper n x y p ↔ _
  rw [upper, lt_max_iff, hstart p hp, hstart' (n - 1 - p) (by omega)]
  omega

/-- Nothing left over comes before what is kept. -/
theorem lower_le_dropped (hp : p < n) {v : α} (hv : v ∈ dropped n m x y) : lower n m x y p ≤ v := by
  have hlex : lower n m x y p ≤ x p := by
    rw [lower]
    split
    · exact min_le_left _ _
    · exact le_rfl
  have hley : ∀ i < m, n - 1 - p ≤ i → lower n m x y p ≤ y i := by
    intro i hi hle
    rw [lower, if_pos (by omega)]
    exact (min_le_right _ _).trans (hy _ _ hle hi)
  rcases List.mem_append.mp hv with h | h
  · obtain ⟨i, hi, rfl⟩ := List.mem_map.mp h
    rw [List.mem_range] at hi
    -- the pair is at `p` or above it, or its second element is at the partner of `p` or above it
    rcases le_or_gt p (n - 1 - i) with hle | hlt
    · exact (hlex.trans (hx _ _ hle (by omega))).trans (le_max_left _ _)
    · exact (hley i (by omega) (by omega)).trans (le_max_right _ _)
  · obtain ⟨i, hi, rfl⟩ := List.mem_map.mp h
    rw [List.mem_range'_1] at hi
    exact hley i (by omega) (by omega)

end Runs

theorem map_range_reverse {β : Type*} (n : ℕ) (f : ℕ → β) :
    ((List.range n).map fun i => f (n - 1 - i)).Perm ((List.range n).map f) := by
  have hrev : (List.range n).map (fun i => f (n - 1 - i)) = ((List.range n).reverse).map f := by
    rw [List.range_eq_range', List.reverse_range', ← List.range_eq_range', List.map_map]
    exact List.map_congr_left fun i _ => by simp
  rw [hrev]
  exact (List.reverse_perm _).map f

/-- The earlier and the later of some pairs are the pairs. -/
theorem map_min_max_perm (l : List ℕ) (f g : ℕ → α) :
    (l.map (fun i => min (f i) (g i)) ++ l.map fun i => max (f i) (g i)).Perm
      (l.map f ++ l.map g) := by
  induction l with
  | nil => exact List.Perm.refl _
  | cons i l ih =>
    have hpair : [min (f i) (g i), max (f i) (g i)].Perm [f i, g i] := by
      rcases le_total (f i) (g i) with h | h
      · rw [min_eq_left h, max_eq_right h]
      · rw [min_eq_right h, max_eq_left h]
        exact List.Perm.swap _ _ _
    have hfront : ∀ (u v : α) (s t : List α), (u :: s ++ v :: t).Perm ([u, v] ++ (s ++ t)) := by
      intro u v s t
      exact (@List.perm_middle _ v s t).cons u
    exact (hfront _ _ _ _).trans ((hpair.append ih).trans (hfront _ _ _ _).symm)

/-- What is kept and what is left over are the two runs. -/
theorem lower_perm (n m : ℕ) (x y : ℕ → α) :
    ((List.range n).map (lower n m x y) ++ dropped n m x y).Perm
      ((List.range n).map x ++ (List.range m).map y) := by
  have hsplit : ∀ j, min n m ≤ j → List.range j =
      List.range (min n m) ++ List.range' (min n m) (j - min n m) := by
    intro j hj
    have := List.range'_append_1 (s := 0) (m := min n m) (n := j - min n m)
    rw [Nat.zero_add, Nat.add_sub_cancel' hj] at this
    rw [List.range_eq_range', List.range_eq_range', this]
  -- from the end of the first run the pairs come first, then what has no partner
  have hkept : ((List.range n).map (lower n m x y)).Perm
      ((List.range (min n m)).map (fun i => min (x (n - 1 - i)) (y i)) ++
        (List.range' (min n m) (n - min n m)).map fun i => x (n - 1 - i)) := by
    refine (map_range_reverse n _).symm.trans (List.Perm.of_eq ?_)
    rw [hsplit n (min_le_left _ _), List.map_append]
    congr 1
    · refine List.map_congr_left fun i hi => ?_
      rw [List.mem_range] at hi
      have hback : n - 1 - (n - 1 - i) = i := by omega
      rw [lower, hback, if_pos (by omega)]
    · refine List.map_congr_left fun i hi => ?_
      rw [List.mem_range'_1] at hi
      rw [lower, if_neg (by omega)]
  have hruns : ((List.range n).map x).Perm
      ((List.range (min n m)).map (fun i => x (n - 1 - i)) ++
        (List.range' (min n m) (n - min n m)).map fun i => x (n - 1 - i)) := by
    refine (map_range_reverse n _).symm.trans (List.Perm.of_eq ?_)
    rw [hsplit n (min_le_left _ _), List.map_append]
  have hqueue : (List.range m).map y = (List.range (min n m)).map y ++
      (List.range' (min n m) (m - min n m)).map y := by
    rw [hsplit m (min_le_right _ _), List.map_append]
  have hmiddle : ∀ a b c d : List α, (a ++ b ++ (c ++ d)).Perm (a ++ c ++ (b ++ d)) := by
    intro a b c d
    rw [List.append_assoc, List.append_assoc]
    refine List.Perm.append_left a ?_
    rw [← List.append_assoc, ← List.append_assoc]
    exact List.perm_append_comm.append_right d
  rw [hqueue]
  refine ((hkept.append_right _).trans (hmiddle _ _ _ _)).trans ?_
  refine ((map_min_max_perm _ _ _).append_right _).trans ?_
  exact (hmiddle _ _ _ _).trans (hruns.symm.append_right _)

end Stages

end Svod.Bitonic
