/-
  Svod.FloatBitsSound

  The conversions to the narrow float formats round to nearest, ties to even.

  A magnitude is a pattern of 52 fraction bits.  In the normal range of the
  narrow format the pattern is cut to fewer bits and rounded there, after the
  exponents are rebased; below it the significand is.
-/

import Svod.FloatBits
import Svod.Lib.Ladder
import Mathlib.Data.Nat.Bitwise

namespace Svod.FloatBits

open Svod.Lib.Ladder

/-! ## Patterns -/

theorem rawExp_eq (bits : ℕ) : rawExp bits = bits / 2 ^ 52 % 2 ^ 11 := by
  rw [rawExp, Nat.shiftRight_eq_div_pow]
  exact Nat.and_two_pow_sub_one_eq_mod _ 11

theorem fraction_eq (bits : ℕ) : fraction bits = bits % 2 ^ 52 :=
  Nat.and_two_pow_sub_one_eq_mod _ 52

/-- The magnitude of a finite `f64`. -/
def magnitude (bits : ℕ) : ℚ := step 52 (2 ^ 1074) (bits % 2 ^ 63)

def value (bits : ℕ) : ℚ := (-1) ^ (bits / 2 ^ 63) * magnitude bits

theorem magnitude_nonneg (bits : ℕ) : 0 ≤ magnitude bits := step_nonneg 52 _ _

theorem abs_value (bits : ℕ) : |value bits| = magnitude bits := by
  rw [value, abs_mul, abs_pow, abs_neg, abs_one, one_pow, one_mul,
    abs_of_nonneg (magnitude_nonneg bits)]

theorem magnitude_of_value {bits : ℕ} {y : ℚ} (h : (-1) ^ (bits / 2 ^ 63) * y = value bits) :
    magnitude bits = y :=
  (mul_left_cancel₀ (pow_ne_zero _ (by norm_num)) h).symm

theorem pattern_eq (bits : ℕ) : bits % 2 ^ 63 = rawExp bits * 2 ^ 52 + fraction bits := by
  rw [rawExp_eq, fraction_eq]
  omega

theorem fraction_lt (bits : ℕ) : fraction bits < 2 ^ 52 := by
  rw [fraction_eq]
  exact Nat.mod_lt _ (Nat.two_pow_pos 52)

/-- Adding one where the cut bits are more than a half, or a half above an odd step. -/
theorem roundUp_eq (n s : ℕ) :
    n / 2 ^ (s + 1) + (2 ^ s < n % 2 ^ (s + 1) ||
      (n % 2 ^ (s + 1) == 2 ^ s && n / 2 ^ (s + 1) % 2 != 0)).toNat = halfEven (s + 1) n := by
  have hpow : 2 ^ (s + 1) = 2 * 2 ^ s := by ring
  have hup : (2 ^ s < n % 2 ^ (s + 1) ||
      (n % 2 ^ (s + 1) == 2 ^ s && n / 2 ^ (s + 1) % 2 != 0)) = true ↔
      2 ^ (s + 1) < 2 * (n % 2 ^ (s + 1)) ∨
        2 * (n % 2 ^ (s + 1)) = 2 ^ (s + 1) ∧ ¬ Even (n / 2 ^ (s + 1)) := by
    simp only [Bool.or_eq_true, decide_eq_true_eq, Bool.and_eq_true, beq_iff_eq, bne_iff_ne,
      Nat.even_iff]
    generalize n % 2 ^ (s + 1) = r
    generalize n / 2 ^ (s + 1) = q
    omega
  unfold halfEven
  split
  · next h => rw [hup.mpr h, Bool.toNat_true]
  · next h => rw [Bool.eq_false_iff.mpr (mt hup.mp h), Bool.toNat_false, Nat.add_zero]

theorem roundShift_eq {n s : ℕ} (h64 : s + 1 < 64) : roundShift n (s + 1) = halfEven (s + 1) n := by
  simp only [roundShift, if_neg (not_le.mpr h64), Nat.and_two_pow_sub_one_eq_mod,
    Nat.shiftRight_eq_div_pow, Nat.and_one_is_mod, Nat.add_sub_cancel, ← roundUp_eq]

/-- A magnitude of at most a power of two. -/
theorem magnitude_le {bits c k : ℕ} (hck : c + 1 + k = 1023)
    (h : bits % 2 ^ 63 ≤ (c + 1) * 2 ^ 52) : magnitude bits * 2 ^ k ≤ 1 := by
  have hle : magnitude bits ≤ step 52 (2 ^ 1074) ((c + 1) * 2 ^ 52) :=
    (step_strictMono 52 (pow_pos two_pos 1074)).monotone h
  have hbin := binary_normal c (Nat.two_pow_pos 52)
  rw [Nat.add_zero, Nat.add_zero] at hbin
  rw [step, hbin, show 1074 = 52 + c + k by omega, pow_add, pow_add] at hle
  refine (mul_le_mul_of_nonneg_right hle (by positivity)).trans (le_of_eq ?_)
  push_cast
  field_simp

/-- A magnitude that is not subnormal, as its significand. -/
theorem magnitude_significand {bits s d : ℕ} (h : 1 ≤ rawExp bits) {p : ℕ}
    (hsig : 53 ≤ p + s) (hd : rawExp bits + s + d = 1075) :
    magnitude bits = step (p + s) (2 ^ s * 2 ^ d) (2 ^ 52 + fraction bits) := by
  obtain ⟨e, he⟩ : ∃ e, rawExp bits = e + 1 := ⟨rawExp bits - 1, by omega⟩
  have hf := fraction_lt bits
  have hlt : 2 ^ 52 + fraction bits < 2 ^ (p + s) :=
    lt_of_lt_of_le (by omega) (Nat.pow_le_pow_right (by decide) hsig)
  rw [magnitude, step, step, pattern_eq, he, binary_normal e hf, binary_of_lt hlt, ← pow_add,
    show 1074 = e + (s + d) by omega, pow_add]
  push_cast
  field_simp

/-! ## Signed codes -/

theorem or_code (a : ℕ) {k m : ℕ} (hm : m < 2 ^ k) : a * 2 ^ k ||| m = a * 2 ^ k + m := by
  rw [Nat.mul_comm]
  exact (Nat.two_pow_add_eq_or_of_lt hm a).symm

theorem signBit_code {k a m : ℕ} (hm : m < 2 ^ k) (ha : a < 2) :
    (a * 2 ^ k + m) &&& 2 ^ k = a * 2 ^ k := by
  rw [Nat.and_two_pow, Nat.testBit_eq_decide_div_mod_eq, Nat.mul_comm a,
    Nat.mul_add_div (Nat.two_pow_pos k), Nat.div_eq_of_lt hm, Nat.add_zero, Nat.mod_eq_of_lt ha,
    Nat.mul_comm]
  obtain rfl | rfl : a = 0 ∨ a = 1 := by omega
  all_goals rfl

theorem signed_eq {a : ℕ} (ha : a < 2) (y : ℚ) :
    (if a ≠ 0 then some (-y) else some y) = some ((-1) ^ a * y) := by
  obtain rfl | rfl : a = 0 ∨ a = 1 := by omega
  all_goals simp

/-! ## Rounding a magnitude -/

/-- A grid of `p + 1` fraction bits, with bias `b`: its exponents start `c` above those of an
`f64`, whose fraction has `s + 1` bits more. -/
structure Grid (p s c b top : ℕ) : Prop where
  bits : p + s = 50
  bias : c + b = 1023
  small : p + 2 ≤ c
  le_top : 2 ^ (p + 1) ≤ top

/-- `m` is the step of the grid that the magnitude rounds to. -/
abbrev Rounds (p b top bits m : ℕ) : Prop :=
  RoundsEven (step (p + 1) (2 ^ (b + p))) top (magnitude bits) m

namespace Grid

variable {p s c b top bits : ℕ} (g : Grid p s c b top)

include g

theorem pow_split : 2 ^ 52 = 2 ^ (s + 1) * 2 ^ (p + 1) := by
  rw [← pow_add, show s + 1 + (p + 1) = 52 by have := g.bits; omega]

theorem rebase (h : (c + 1) * 2 ^ 52 ≤ bits % 2 ^ 63) :
    magnitude bits = step (p + 1 + (s + 1)) (2 ^ (s + 1) * 2 ^ (b + p))
      (bits % 2 ^ 63 - c * 2 ^ 52) := by
  obtain ⟨hbits, hbias, -, -⟩ := g
  have hle : c * 2 ^ 52 ≤ bits % 2 ^ 63 := (Nat.mul_le_mul_right _ (Nat.le_succ c)).trans h
  have hnormal : 2 ^ 52 ≤ bits % 2 ^ 63 - c * 2 ^ 52 := by
    rw [Nat.add_mul, Nat.one_mul] at h
    exact Nat.le_sub_of_add_le' h
  have hbin := binary_rebias 52 c hnormal
  rw [Nat.sub_add_cancel hle] at hbin
  rw [magnitude, step, step, show p + 1 + (s + 1) = 52 by omega, hbin, ← pow_add,
    show 1074 = c + (s + 1 + (b + p)) by omega, pow_add 2 c]
  push_cast
  field_simp

theorem sub_eq {e : ℕ} (he : rawExp bits = c + (e + 1)) :
    bits % 2 ^ 63 - c * 2 ^ 52 = (e + 1) * 2 ^ (p + 1 + (s + 1)) + fraction bits := by
  rw [pattern_eq, he, show p + 1 + (s + 1) = 52 by have := g.bits; omega]
  omega

/-- From the least normal value on, the fraction is rounded; a carry is a larger exponent. -/
theorem rounds_normal {e : ℕ} (he : rawExp bits = c + (e + 1))
    (htop : (e + 1) * 2 ^ (p + 1) + halfEven (s + 1) (fraction bits) ≤ top) :
    Rounds p b top bits ((e + 1) * 2 ^ (p + 1) + halfEven (s + 1) (fraction bits)) := by
  have hnormal : (c + 1) * 2 ^ 52 ≤ bits % 2 ^ 63 := by
    rw [pattern_eq, he]
    omega
  rw [Rounds, g.rebase hnormal, g.sub_eq he, ← halfEven_add] at *
  exact roundsEven_pattern (Nat.two_pow_pos _) htop

theorem rounds_overflow (h : top * 2 ^ (s + 1) + c * 2 ^ 52 ≤ bits % 2 ^ 63) :
    Rounds p b top bits top := by
  have hbinade : 2 ^ 52 ≤ top * 2 ^ (s + 1) := by
    rw [g.pow_split, Nat.mul_comm]
    exact Nat.mul_le_mul_right _ g.le_top
  rw [Rounds, g.rebase (by omega)]
  refine roundsEven_top (step_strictMono _ (Nat.two_pow_pos _))
    (step_le_of_le_div (Nat.two_pow_pos _) ?_)
  rw [Nat.le_div_iff_mul_le (Nat.two_pow_pos _)]
  omega

/-- Below the least normal value, the significand is rounded, implicit bit included. -/
theorem rounds_denormal {t : ℕ} (ht : rawExp bits + t = c) (hpos : 1 ≤ rawExp bits) :
    Rounds p b top bits (halfEven (s + (t + 1) + 1) (2 ^ 52 + fraction bits)) := by
  obtain ⟨hbits, hbias, -, hmax⟩ := g
  have hf := fraction_lt bits
  rw [Rounds, magnitude_significand hpos (p := p + 1) (s := s + (t + 1) + 1) (d := b + p)
    (by omega) (by omega)]
  refine roundsEven_pattern (Nat.two_pow_pos _) ((halfEven_le (k := 2 ^ (p + 1)) ?_).trans hmax)
  calc 2 ^ 52 + fraction bits < 2 ^ 53 := by omega
    _ ≤ 2 ^ (p + 1 + (s + (t + 1) + 1)) := Nat.pow_le_pow_right two_pos (by omega)
    _ = 2 ^ (p + 1) * 2 ^ (s + (t + 1) + 1) := pow_add _ _ _

theorem rounds_underflow (h : bits % 2 ^ 63 ≤ (c - p - 2 + 1) * 2 ^ 52) :
    Rounds p b top bits 0 := by
  obtain ⟨hbits, hbias, hsmall, hmax⟩ := g
  have hle := magnitude_le (k := b + p + 1) (by omega) h
  refine roundsEven_zero (Nat.two_pow_pos _) ((Nat.two_pow_pos _).trans_le hmax)
    (magnitude_nonneg bits) ?_
  rw [pow_succ, mul_comm (2 ^ (b + p))] at hle
  exact_mod_cast hle

end Grid

/-! ## binary16 -/

theorem signBits_eq {bits : ℕ} (hb : bits < 2 ^ 64) :
    bits >>> 48 &&& 0x8000 = bits / 2 ^ 63 * 2 ^ 15 := by
  have hbit := Nat.and_two_pow (bits >>> 48) 15
  rw [Nat.testBit_shiftRight, Nat.testBit_eq_decide_div_mod_eq,
    Nat.mod_eq_of_lt (show bits / 2 ^ (48 + 15) < 2 by omega)] at hbit
  obtain h | h : bits / 2 ^ 63 = 0 ∨ bits / 2 ^ 63 = 1 := by omega
  all_goals
    rw [h] at hbit ⊢
    exact hbit

theorem significand_eq (bits : ℕ) : (fraction bits ||| 1 <<< 52) = 2 ^ 52 + fraction bits := by
  rw [Nat.or_comm, show 1 <<< 52 = 1 * 2 ^ 52 from rfl, or_code 1 (fraction_lt bits), Nat.one_mul]

/-- The packing of a rounded significand, whose carry is a larger exponent. -/
theorem f16_pack {sign e f : ℕ} (hf : f ≤ 2 ^ 10) :
    (if 2 ^ 10 + f = 0x800 then sign ||| (e + 2) <<< 10
      else sign ||| (e + 1) <<< 10 ||| (2 ^ 10 + f &&& 0x3ff)) = sign ||| (e + 1) * 2 ^ 10 + f := by
  rw [Nat.shiftLeft_eq, Nat.shiftLeft_eq]
  split
  · next h =>
    have hcarry : (e + 2) * 2 ^ 10 = (e + 1) * 2 ^ 10 + f := by omega
    rw [hcarry]
  · next h =>
    have hmod : (2 ^ 10 + f &&& 0x3ff) = f := by
      rw [show 0x3ff = 2 ^ 10 - 1 from rfl, Nat.and_two_pow_sub_one_eq_mod]
      omega
    rw [hmod, Nat.or_assoc, or_code (e + 1) (by omega)]

theorem f16_grid : Grid 9 41 1008 15 0x7c00 := ⟨rfl, rfl, by decide, by decide⟩

/-- The cases of `float_to_f16_bits` on a finite value. -/
theorem floatToF16Bits_code {bits : ℕ} (hb : bits < 2 ^ 64) (hfin : isFinite bits = true) :
    ∃ m, floatToF16Bits bits = bits / 2 ^ 63 * 2 ^ 15 + m ∧ Rounds 9 15 0x7c00 bits m := by
  suffices h : ∃ m, floatToF16Bits bits = (bits >>> 48 &&& 0x8000) ||| m ∧
      Rounds 9 15 0x7c00 bits m by
    obtain ⟨m, hm, hround⟩ := h
    rw [signBits_eq hb, or_code _ (hround.1.trans_lt (by decide))] at hm
    exact ⟨m, hm, hround⟩
  have hf := fraction_lt bits
  have hpat := pattern_eq bits
  have hexp : rawExp bits ≠ 0x7ff := by simpa [isFinite] using hfin
  have hmax : (1 <<< 52 ||| 0x3ff <<< 42 ||| 1 <<< 41) = 2 ^ 52 + (0x3ff * 2 ^ 42 + 2 ^ 41) := rfl
  have hle : halfEven (41 + 1) (fraction bits) ≤ 2 ^ 10 := halfEven_le (by omega)
  have hnormal : ∀ e, rawExp bits = e + 1009 → e ≤ 29 →
      Rounds 9 15 0x7c00 bits ((e + 1) * 2 ^ 10 + halfEven 42 (fraction bits)) :=
    fun e he htop => f16_grid.rounds_normal (by omega) (by omega)
  have hunder : rawExp bits ≤ 997 → Rounds 9 15 0x7c00 bits 0 :=
    fun h => f16_grid.rounds_underflow (by omega)
  simp only [floatToF16Bits, if_neg hexp, significand_eq, hmax]
  rcases Nat.eq_zero_or_pos (rawExp bits) with h0 | hpos
  · refine ⟨0, ?_, hunder (by omega)⟩
    rw [Nat.or_zero]
    split
    · rfl
    · rw [if_neg (by omega), if_neg (by omega), if_pos (by omega)]
  have hnz : ¬ (rawExp bits = 0 ∧ fraction bits = 0) := fun h => hpos.ne' h.1
  simp only [if_neg hpos.ne', if_neg hnz]
  split
  · next hov =>
    refine ⟨0x7c00, rfl, ?_⟩
    rcases Nat.lt_or_ge (rawExp bits) 1039 with hlt | hge
    · -- the last step of the top binade is odd: its midpoint rounds up, to infinity
      have hround : halfEven 42 (fraction bits) = 2 ^ 10 := by
        rw [halfEven, if_pos (by rw [Nat.even_iff]; omega)]
        omega
      have htop := hnormal 29 (by omega) le_rfl
      rwa [hround] at htop
    · exact f16_grid.rounds_overflow (by omega)
  next hov =>
  split
  · next hn =>
    obtain ⟨e, he⟩ : ∃ e, rawExp bits = e + 1009 := ⟨rawExp bits - 1009, by omega⟩
    have hround : halfEven 42 (2 ^ 52 + fraction bits) = 2 ^ 10 + halfEven 42 (fraction bits) := by
      have := halfEven_add 9 42 1 (fraction bits)
      rwa [Nat.one_mul, Nat.one_mul] at this
    refine ⟨(e + 1) * 2 ^ 10 + halfEven 42 (fraction bits), ?_, hnormal e he (by omega)⟩
    rw [roundShift_eq (by decide), hround, he,
      show (((e + 1009 : ℕ) : ℤ) - 1023 + 16).toNat = e + 2 by omega,
      show (((e + 1009 : ℕ) : ℤ) - 1023 + 15).toNat = e + 1 by omega]
    exact f16_pack hle
  next hn =>
  split
  · exact ⟨0, (Nat.or_zero _).symm, hunder (by omega)⟩
  · next hd =>
    obtain ⟨t, ht⟩ : ∃ t, rawExp bits + t = 1008 := ⟨1008 - rawExp bits, by omega⟩
    refine ⟨_, ?_, f16_grid.rounds_denormal ht hpos⟩
    rw [show (28 - ((rawExp bits : ℤ) - 1023)).toNat = 41 + (t + 1) + 1 by omega,
      roundShift_eq (by omega)]

/-- The codes of `f16_bits_to_float`: signed steps, then infinities and NaNs. -/
theorem f16BitsToFloat_code {a m : ℕ} (ha : a < 2) (hm : m < 2 ^ 15) :
    f16BitsToFloat (a * 2 ^ 15 + m) =
      if m < 0x7c00 then some ((-1) ^ a * step 10 (2 ^ 24) m) else none := by
  have hexp : (a * 2 ^ 15 + m) >>> 10 &&& 0x1f = m / 2 ^ 10 := by
    rw [show 0x1f = 2 ^ 5 - 1 from rfl, Nat.and_two_pow_sub_one_eq_mod, Nat.shiftRight_eq_div_pow]
    omega
  have hmant : (a * 2 ^ 15 + m) &&& 0x3ff = m % 2 ^ 10 := by
    rw [show 0x3ff = 2 ^ 10 - 1 from rfl, Nat.and_two_pow_sub_one_eq_mod]
    omega
  have hsign : (a * 2 ^ 15 + m) &&& 0x8000 = a * 2 ^ 15 := signBit_code hm ha
  have hnz : a * 2 ^ 15 ≠ 0 ↔ a ≠ 0 := by omega
  simp only [f16BitsToFloat, hexp, hmant, hsign, hnz]
  rcases Nat.lt_or_ge m 0x7c00 with hlt | hge
  · have hmax : m / 2 ^ 10 ≠ 0x1f := by omega
    rw [if_neg hmax, if_pos hlt, ← signed_eq ha]
    rcases pattern_cases 10 m with h | ⟨e, f, hf, rfl⟩
    · have hstep : step 10 (2 ^ 24) m = m * (2 ^ 24)⁻¹ := by
        rw [step, binary_of_lt h, div_eq_mul_inv]
        norm_num
      rw [Nat.div_eq_of_lt h, if_pos rfl, Nat.mod_eq_of_lt h, hstep, Option.map_some]
    · have hexp' : ((e + 1) * 2 ^ 10 + f) / 2 ^ 10 = e + 1 := by omega
      have hmant' : ((e + 1) * 2 ^ 10 + f) % 2 ^ 10 = f := by omega
      have hstep : step 10 (2 ^ 24) ((e + 1) * 2 ^ 10 + f) =
          (1 + f / 1024) * 2 ^ (((e + 1 : ℕ) : ℤ) - 15) := by
        rw [show 2 ^ 24 = 2 ^ (14 + 10) from rfl, step_normal 14 e hf]
        norm_num
      rw [hexp', hmant', if_neg e.succ_ne_zero, hstep, Option.map_some]
  · have hmax : m / 2 ^ 10 = 0x1f := by omega
    rw [if_pos hmax, if_neg (not_lt.mpr hge), Option.map_none, ite_self]

/-- A finite value is encoded by the finite code nearest to it, and by the infinity of its sign
from the midpoint above the last finite code on. -/
theorem floatToF16Bits_nearest {bits : ℕ} (hb : bits < 2 ^ 64) (hfin : isFinite bits = true) :
    (65520 ≤ |value bits| → floatToF16Bits bits = bits / 2 ^ 63 * 2 ^ 15 + 0x7c00) ∧
      (|value bits| < 65520 → NearestCode f16BitsToFloat 16 (value bits) (floatToF16Bits bits)) := by
  obtain ⟨m, hm, hround⟩ := floatToF16Bits_code hb hfin
  have hmono : StrictMono (step 10 (2 ^ 24)) := step_strictMono 10 (Nat.two_pow_pos 24)
  have hmid : (step 10 (2 ^ 24) 0x7bff + step 10 (2 ^ 24) (0x7bff + 1)) / 2 = 65520 := by
    norm_num [step, binary]
  have hiff := hround.eq_top_iff hmono (t := 0x7bff) (by decide)
  rw [hmid] at hiff
  rw [abs_value, hm]
  refine ⟨fun hge => by rw [hiff.mpr hge], fun hlt => ?_⟩
  have hfinite : m < 0x7c00 := lt_of_le_of_ne hround.1 fun h => absurd (hiff.mp h) (not_le.mpr hlt)
  refine hround.nearestCode hmono (step_zero 10 _) (magnitude_nonneg bits) (by omega)
    (fun b hb2 k hk w hw => ?_)
    (by rw [f16BitsToFloat_code (by omega) (by omega), if_pos hfinite]) (.inr rfl)
  rw [f16BitsToFloat_code hb2 hk] at hw
  split at hw
  · next hklt => exact ⟨hklt.le, Option.some.inj hw⟩
  · cases hw

theorem floatToF16Bits_nearest_max : NearestCode f16BitsToFloat 16 (value 0x40effdffffffffff)
    (floatToF16Bits 0x40effdffffffffff) :=
  (floatToF16Bits_nearest (by decide) (by decide)).2 (by decide +kernel)

/-- A finite code is encoded back from its value. -/
theorem floatToF16Bits_roundTrip {bits c : ℕ} (hb : bits < 2 ^ 64) (hfin : isFinite bits = true)
    (hsign : c / 2 ^ 15 = bits / 2 ^ 63) (hv : f16BitsToFloat c = some (value bits)) :
    floatToF16Bits bits = c := by
  obtain ⟨m, hm, hround⟩ := floatToF16Bits_code hb hfin
  obtain ⟨k, hk, rfl⟩ : ∃ k, k < 2 ^ 15 ∧ c = bits / 2 ^ 63 * 2 ^ 15 + k :=
    ⟨c % 2 ^ 15, by omega, by omega⟩
  rw [f16BitsToFloat_code (by omega) hk] at hv
  split at hv
  · next hlt =>
    rw [hm, hround.eq_of_step (step_strictMono 10 (Nat.two_pow_pos 24)) hlt.le
      (magnitude_of_value (Option.some.inj hv))]
  · cases hv

theorem floatToF16Bits_roundTrip_least : floatToF16Bits 0xbe70000000000000 = 0x8001 :=
  floatToF16Bits_roundTrip (by decide) (by decide) (by decide) (by decide +kernel)

/-! ## FP8 -/

/-- The constants of a conversion are those of the format with `p + 1` fraction bits whose
exponents start `c` above those of an `f64`. -/
structure Fp8Format.Fits (f : Fp8Format) (p s c : ℕ) : Prop where
  grid : Grid p s c f.bias f.maxNorm
  sigBits : f.sigBits = p + 2
  mantMask : f.mantMask = 2 ^ (p + 1) - 1
  minDenormHalf : f.minDenormHalf = (c - p - 2 + 1) * 2 ^ 52
  minNorm : f.minNorm = (c + 1) * 2 ^ 52
  ovf_ge : f.maxNorm * 2 ^ (s + 1) + c * 2 ^ 52 ≤ f.ovfThreshold
  ovf_le : halfEven (s + 1) (f.ovfThreshold - c * 2 ^ 52) ≤ f.maxNorm

variable {f : Fp8Format} {p s c : ℕ}

/-- The mantissa of `float_to_fp8`, with the bits it cuts. -/
theorem Fp8Format.Fits.mantissa_eq (h : f.Fits p s c) (bits : ℕ) :
    (bits / 2 ^ (53 - f.sigBits) &&& f.mantMask) = fraction bits / 2 ^ (s + 1) := by
  have hs := h.grid.bits
  rw [h.sigBits, h.mantMask, Nat.and_two_pow_sub_one_eq_mod,
    show 53 - (p + 2) = s + 1 by omega, fraction_eq, h.grid.pow_split, Nat.mod_mul_right_div_self]

theorem Fp8Format.Fits.cut_mod (h : f.Fits p s c) (bits : ℕ) :
    bits % 2 ^ (s + 1) = fraction bits % 2 ^ (s + 1) := by
  rw [fraction_eq, h.grid.pow_split, Nat.mod_mul_right_mod]

/-- With the implicit bit set, the low bits are the significand. -/
theorem implicit_mod (bits : ℕ) {k : ℕ} (hk : k ≤ 53) :
    (bits ||| 2 ^ 52) % 2 ^ k = (2 ^ 52 + fraction bits) % 2 ^ k := by
  have hf := fraction_lt bits
  have hbits : bits % 2 ^ 53 = bits / 2 ^ 52 % 2 * 2 ^ 52 ||| fraction bits := by
    rw [or_code _ hf, fraction_eq]
    omega
  have hone : (bits / 2 ^ 52 % 2 * 2 ^ 52 ||| 2 ^ 52) = 2 ^ 52 := by
    obtain h | h : bits / 2 ^ 52 % 2 = 0 ∨ bits / 2 ^ 52 % 2 = 1 := by omega
    all_goals
      rw [h]
      rfl
  have hfull : (bits ||| 2 ^ 52) % 2 ^ 53 = 2 ^ 52 + fraction bits := by
    rw [Nat.or_mod_two_pow, hbits, show 2 ^ 52 % 2 ^ 53 = 2 ^ 52 from rfl, Nat.or_right_comm, hone,
      ← Nat.one_mul (2 ^ 52), or_code 1 hf]
  rw [← hfull, Nat.mod_mod_of_dvd _ (pow_dvd_pow 2 hk)]

/-- What `float_to_fp8` computes from the magnitude is that magnitude, rounded. -/
theorem Fp8Format.Fits.result_rounds (h : f.Fits p s c) (bits : ℕ) :
    Rounds p f.bias f.maxNorm bits (f.result bits) := by
  obtain ⟨g, hsig, -, hzero, hmin, hge, hle⟩ := id h
  obtain ⟨hbits, hbias, hsmall, -⟩ := id g
  have hf := fraction_lt bits
  have hpat := pattern_eq bits
  have habs : (bits &&& 0x7fffffffffffffff) = bits % 2 ^ 63 :=
    Nat.and_two_pow_sub_one_eq_mod bits 63
  have hhalf : 1 <<< (52 - f.sigBits) = 2 ^ s := by
    rw [Nat.one_shiftLeft, hsig, show 52 - (p + 2) = s by omega]
  have hlow : fraction bits / 2 ^ (s + 1) < 2 ^ (p + 1) :=
    Nat.div_lt_of_lt_mul (h.grid.pow_split ▸ hf)
  have hshift : f.sigBits - 1 = p + 1 := by omega
  simp only [Fp8Format.result, habs, h.mantissa_eq, hhalf, hshift, Nat.and_one_is_mod,
    Nat.and_two_pow_sub_one_eq_mod, Nat.shiftLeft_eq, Nat.shiftRight_eq_div_pow, Nat.one_mul,
    ← pow_add, hzero, hmin]
  split
  · next hz => exact g.rounds_underflow hz
  next hz =>
  split
  · next hov => exact g.rounds_overflow (by omega)
  next hov =>
  split
  · next hn =>
    obtain ⟨e, he⟩ : ∃ e, rawExp bits = c + (e + 1) := ⟨rawExp bits - (c + 1), by omega⟩
    have hexp : ((rawExp bits : ℤ) - 1023 + f.bias).toNat = e + 1 := by omega
    have htop := (halfEven_mono (s + 1) (show bits % 2 ^ 63 - c * 2 ^ 52 ≤
      f.ovfThreshold - c * 2 ^ 52 by omega)).trans hle
    rw [g.sub_eq he, halfEven_add] at htop
    rw [hexp, or_code _ hlow, h.cut_mod, Nat.add_assoc, roundUp_eq]
    exact g.rounds_normal he htop
  · next hn =>
    obtain ⟨t, ht⟩ : ∃ t, rawExp bits + t = c := ⟨c - rawExp bits, by omega⟩
    have hexp : (1 - ((rawExp bits : ℤ) - 1023 + f.bias)).toNat = t + 1 := by omega
    have hsignificand : (fraction bits / 2 ^ (s + 1) ||| 2 ^ (p + 1)) =
        (2 ^ 52 + fraction bits) / 2 ^ (s + 1) := by
      rw [Nat.or_comm, ← Nat.one_mul (2 ^ (p + 1)), or_code 1 hlow, Nat.one_mul, h.grid.pow_split,
        Nat.mul_add_div (Nat.two_pow_pos _)]
    rw [hexp, hsignificand, Nat.div_div_eq_div_mul, ← pow_add,
      show s + 1 + (t + 1) = s + (t + 1) + 1 by omega, implicit_mod bits (by omega), roundUp_eq]
    exact g.rounds_denormal ht (by omega)

/-- Each FP8 format has the constants of its grid, and its decoder returns the grid's steps. -/
theorem fp8_grid {dtype : ScalarDType} {f : Fp8Format} (hf : fp8Format dtype = some f) :
    f.maxNorm < 2 ^ 7 ∧ ∃ p s c, f.Fits p s c ∧ ∀ a < 2, ∀ m < 2 ^ 7,
      fp8ToFloat (a * 2 ^ 7 + m) dtype =
        if f.maxNorm < m ∨ isFnuz dtype ∧ a = 1 ∧ m = 0 then none
        else some ((-1) ^ a * step (p + 1) (2 ^ (f.bias + p)) m) := by
  cases dtype <;> simp only [fp8Format, reduceCtorEq, Option.some.injEq] at hf <;> subst hf
  · exact ⟨by decide, 2, 48, 1016, ⟨⟨rfl, rfl, by decide, by decide⟩, rfl, rfl, rfl, rfl,
      by decide +kernel, by decide +kernel⟩, by decide +kernel⟩
  · exact ⟨by decide, 2, 48, 1015, ⟨⟨rfl, rfl, by decide, by decide⟩, rfl, rfl, rfl, rfl,
      by decide +kernel, by decide +kernel⟩, by decide +kernel⟩
  · exact ⟨by decide, 1, 49, 1008, ⟨⟨rfl, rfl, by decide, by decide⟩, rfl, rfl, rfl, rfl,
      by decide +kernel, by decide +kernel⟩, by decide +kernel⟩
  · exact ⟨by decide, 1, 49, 1007, ⟨⟨rfl, rfl, by decide, by decide⟩, rfl, rfl, rfl, rfl,
      by decide +kernel, by decide +kernel⟩, by decide +kernel⟩

theorem Fp8Format.result_zero (f : Fp8Format) {bits : ℕ} (h : bits &&& 0x7fffffffffffffff = 0) :
    f.result bits = 0 := by
  simp [Fp8Format.result, h]

theorem floatToFp8_code {dtype : ScalarDType} {f : Fp8Format} (hf : fp8Format dtype = some f)
    {bits : ℕ} (hb : bits < 2 ^ 64) (hfin : isFinite bits = true) (hlt : f.result bits < 2 ^ 7) :
    floatToFp8 bits dtype = some
      (if isFnuz dtype ∧ f.result bits = 0 then 0 else bits / 2 ^ 63 * 2 ^ 7 + f.result bits) := by
  have hnan : isNan bits = false := by
    have : rawExp bits ≠ 0x7ff := by simpa [isFinite] using hfin
    simp [isNan, this]
  have hsign : (bits >>> 63 &&& 1) <<< 7 = bits / 2 ^ 63 * 2 ^ 7 := by
    rw [Nat.shiftRight_eq_div_pow, Nat.and_one_is_mod, Nat.shiftLeft_eq,
      Nat.mod_eq_of_lt (show bits / 2 ^ 63 < 2 by omega)]
  have hmod : f.result bits % 256 = f.result bits := Nat.mod_eq_of_lt (by omega)
  simp only [floatToFp8, hnan, hfin, hf, hsign, hmod, Bool.not_true, Bool.and_false,
    Bool.false_eq_true, if_false, Option.map_some, Bool.and_eq_true, beq_iff_eq]
  split
  · next hz => rw [f.result_zero hz.2, if_pos ⟨hz.1, rfl⟩]
  · rw [Nat.or_comm, or_code _ hlt]

/-- A finite value is encoded by the code nearest to it of all that decode; what is above the
largest finite value saturates to it. -/
theorem floatToFp8_nearest {dtype : ScalarDType} (hd : (fp8Format dtype).isSome = true) {bits : ℕ}
    (hb : bits < 2 ^ 64) (hfin : isFinite bits = true) :
    ∃ c, floatToFp8 bits dtype = some c ∧ NearestCode (fp8ToFloat · dtype) 8 (value bits) c := by
  obtain ⟨f, hf⟩ := Option.isSome_iff_exists.mp hd
  obtain ⟨hmax, p, s, c, hfits, hdec⟩ := fp8_grid hf
  have hround := hfits.result_rounds bits
  have hlt : f.result bits < 2 ^ 7 := hround.1.trans_lt hmax
  have hsign : bits / 2 ^ 63 < 2 := by omega
  refine ⟨_, floatToFp8_code hf hb hfin hlt, hround.nearestCode
    (step_strictMono _ (Nat.two_pow_pos _)) (step_zero _ _) (magnitude_nonneg bits) hsign
    (fun b hb2 k hk w hw => ?_) ?_ ?_⟩
  · rw [hdec b hb2 k hk] at hw
    split at hw
    · cases hw
    · next hcode => exact ⟨by omega, Option.some.inj hw⟩
  · split
    · next hz =>
      have hzero := hdec 0 two_pos 0 (Nat.two_pow_pos 7)
      rw [hz.2, step_zero, mul_zero]
      simpa using hzero
    · next hz =>
      rw [hdec _ hsign _ hlt, if_neg]
      rintro (h | ⟨h, -, h'⟩)
      · exact absurd hround.1 (not_le.mpr h)
      · exact hz ⟨h, h'⟩
  · split
    · exact .inl Even.zero
    · exact .inr rfl

theorem floatToFp8_nearest_saturated : ∃ c, floatToFp8 0x407f400000000000 .fp8e4m3 = some c ∧
    NearestCode (fp8ToFloat · .fp8e4m3) 8 (value 0x407f400000000000) c :=
  floatToFp8_nearest rfl (by decide) (by decide)

/-- A code is encoded back from its value. -/
theorem floatToFp8_roundTrip {dtype : ScalarDType} {bits c : ℕ} (hb : bits < 2 ^ 64)
    (hfin : isFinite bits = true) (hsign : c / 2 ^ 7 = bits / 2 ^ 63)
    (hv : fp8ToFloat c dtype = some (value bits)) : floatToFp8 bits dtype = some c := by
  obtain ⟨f, hf⟩ : ∃ f, fp8Format dtype = some f := by
    cases dtype <;> first | exact ⟨_, rfl⟩ | cases hv
  obtain ⟨hmax, p, s, e, hfits, hdec⟩ := fp8_grid hf
  have hround := hfits.result_rounds bits
  obtain ⟨k, hk, rfl⟩ : ∃ k, k < 2 ^ 7 ∧ c = bits / 2 ^ 63 * 2 ^ 7 + k :=
    ⟨c % 2 ^ 7, by omega, by omega⟩
  rw [hdec _ (by omega) k hk] at hv
  split at hv
  · cases hv
  · next hcode =>
    have hres := hround.eq_of_step (step_strictMono _ (Nat.two_pow_pos _)) (by omega)
      (magnitude_of_value (Option.some.inj hv))
    rw [floatToFp8_code hf hb hfin (by omega), hres]
    split
    · next hz =>
      have hneg : bits / 2 ^ 63 ≠ 1 := fun h => hcode (.inr ⟨hz.1, h, hz.2⟩)
      rw [hz.2, show bits / 2 ^ 63 = 0 by omega, Nat.zero_mul]
    · rfl

theorem floatToFp8_roundTrip_max : floatToFp8 0xc07c000000000000 .fp8e4m3 = some 0xfe :=
  floatToFp8_roundTrip (by decide) (by decide) (by decide) (by decide +kernel)

end Svod.FloatBits
