/-
  Svod.Lib.Ladder

  Rounding to the nearest step of a ladder, ties to the even step.

  A ladder is a strictly increasing sequence of values.  `binary p` is that of
  the magnitudes of a binary floating format with `p` fraction bits, by bit
  pattern, in units of its least step: a pattern with more fraction bits
  interpolates between two steps (`binary_interpolate`), so rounding a pattern
  is rounding its value.
-/

import Mathlib.Tactic.FieldSimp
import Mathlib.Tactic.Linarith
import Mathlib.Tactic.Positivity
import Mathlib.Tactic.Ring

namespace Svod.Lib.Ladder

/-! ## Nearest steps -/

/-- Of the steps up to `top`, `m` is one nearest to `x`, and is even where another is as near. -/
def RoundsEven (v : ℕ → ℚ) (top : ℕ) (x : ℚ) (m : ℕ) : Prop :=
  m ≤ top ∧ ∀ k ≤ top, |x - v m| ≤ |x - v k| ∧ (k ≠ m → |x - v m| = |x - v k| → Even m)

variable {v : ℕ → ℚ} {top : ℕ} {x : ℚ}

/-- Everything from the last step on rounds to it. -/
theorem roundsEven_top (hv : StrictMono v) (hx : v top ≤ x) : RoundsEven v top x top := by
  refine ⟨le_rfl, fun k hk => ?_⟩
  have hle : v k ≤ v top := hv.monotone hk
  rw [abs_of_nonneg (by linarith), abs_of_nonneg (by linarith)]
  refine ⟨by linarith, fun hne heq => ?_⟩
  have hlt : v k < v top := hv (lt_of_le_of_ne hk hne)
  linarith

/-- The nearer of two steps, where every other one is farther than one of them. -/
theorem roundsEven_of_nearer {m m' : ℕ} (hm : m ≤ top) (hle : |x - v m| ≤ |x - v m'|)
    (htie : |x - v m| = |x - v m'| → Even m)
    (hfar : ∀ k, (k = m ∨ |x - v m| < |x - v k|) ∨ (k = m' ∨ |x - v m'| < |x - v k|)) :
    RoundsEven v top x m := by
  refine ⟨hm, fun k _ => ?_⟩
  rcases hfar k with (rfl | hlt) | (rfl | hlt)
  · exact ⟨le_rfl, fun hne => absurd rfl hne⟩
  · exact ⟨hlt.le, fun _ heq => absurd heq hlt.ne⟩
  · exact ⟨hle, fun _ => htie⟩
  · exact ⟨(hle.trans_lt hlt).le, fun _ heq => absurd heq (hle.trans_lt hlt).ne⟩

/-- A value between two steps rounds to the nearer, in the middle to the even one. -/
theorem roundsEven_between (hv : StrictMono v) {q : ℕ} (hq : q + 1 ≤ top) {t : ℚ} (h0 : 0 ≤ t)
    (h1 : t < 1) (hx : x = v q + t * (v (q + 1) - v q)) :
    RoundsEven v top x (if 1 / 2 < t ∨ t = 1 / 2 ∧ ¬ Even q then q + 1 else q) := by
  have hgap : 0 < v (q + 1) - v q := sub_pos.mpr (hv (Nat.lt_succ_self q))
  have hlow0 : 0 ≤ t * (v (q + 1) - v q) := mul_nonneg h0 hgap.le
  have hhigh0 : 0 ≤ (1 - t) * (v (q + 1) - v q) := mul_nonneg (sub_nonneg.mpr h1.le) hgap.le
  have hlow : |x - v q| = t * (v (q + 1) - v q) := by
    rw [hx, add_sub_cancel_left, abs_of_nonneg hlow0]
  have hhigh : |x - v (q + 1)| = (1 - t) * (v (q + 1) - v q) := by
    rw [abs_sub_comm, abs_of_nonneg (by linarith)]
    linarith
  have hfar : ∀ k, (k = q ∨ |x - v q| < |x - v k|) ∨ (k = q + 1 ∨ |x - v (q + 1)| < |x - v k|) := by
    intro k
    rcases Nat.lt_trichotomy k q with hk | hk | hk
    · rw [hlow, abs_of_nonneg (show 0 ≤ x - v k by linarith [hv hk])]
      exact .inl (.inr (by linarith [hv hk]))
    · exact .inl (.inl hk)
    refine .inr ((Nat.eq_or_lt_of_le (Nat.succ_le_of_lt hk)).imp Eq.symm fun hlt => ?_)
    rw [hhigh, abs_sub_comm, abs_of_nonneg (by linarith [hv hlt])]
    linarith [hv hlt]
  split_ifs with hup
  · refine roundsEven_of_nearer hq ?_ (fun heq => ?_) fun k => (hfar k).symm
    · rw [hlow, hhigh]
      exact mul_le_mul_of_nonneg_right (by rcases hup with h | ⟨h, -⟩ <;> linarith) hgap.le
    · rw [hlow, hhigh, mul_left_inj' hgap.ne'] at heq
      exact Nat.even_add_one.mpr (hup.resolve_left (by linarith)).2
  · have ht : t ≤ 1 / 2 := not_lt.mp fun h => hup (.inl h)
    refine roundsEven_of_nearer (by omega) ?_ (fun heq => ?_) hfar
    · rw [hlow, hhigh]
      exact mul_le_mul_of_nonneg_right (by linarith) hgap.le
    · rw [hlow, hhigh, mul_left_inj' hgap.ne'] at heq
      by_contra hodd
      exact hup (.inr ⟨by linarith, hodd⟩)

/-- A step rounds to itself. -/
theorem RoundsEven.eq_of_step (hv : StrictMono v) {m k : ℕ} (h : RoundsEven v top x m)
    (hk : k ≤ top) (hx : x = v k) : m = k := by
  have hle := (h.2 k hk).1
  rw [hx, sub_self, abs_zero, abs_nonpos_iff, sub_eq_zero] at hle
  exact (hv.injective hle).symm

/-- Above an odd step, the last one takes what is from the midpoint on. -/
theorem RoundsEven.eq_top_iff (hv : StrictMono v) {m t : ℕ} (ht : ¬ Even t)
    (h : RoundsEven v (t + 1) x m) : m = t + 1 ↔ (v t + v (t + 1)) / 2 ≤ x := by
  have hgap : v t < v (t + 1) := hv (Nat.lt_succ_self t)
  constructor
  · rintro rfl
    by_contra hlt
    have hclose : |x - v t| < v (t + 1) - x := abs_lt.mpr ⟨by linarith, by linarith⟩
    linarith [(h.2 t (Nat.le_succ t)).1, neg_le_abs (x - v (t + 1))]
  · intro hmid
    by_contra hne
    have hmt : m ≤ t := by
      have := h.1
      omega
    have hle : v m ≤ v t := hv.monotone hmt
    obtain ⟨hnear, htie⟩ := h.2 (t + 1) le_rfl
    rw [abs_of_nonneg (show 0 ≤ x - v m by linarith)] at hnear htie
    rcases le_total (v (t + 1)) x with hx | hx
    · rw [abs_of_nonneg (by linarith)] at hnear
      linarith
    · rw [abs_sub_comm, abs_of_nonneg (by linarith)] at hnear htie
      have heq : m = t := hv.injective (by linarith)
      exact ht (heq ▸ htie (by omega) (by linarith))

/-- Rounding a magnitude rounds the signed value. -/
theorem RoundsEven.signed (hv : StrictMono v) (h0 : v 0 = 0) (hx : 0 ≤ x) {m k a b : ℕ}
    (h : RoundsEven v top x m) (hk : k ≤ top) :
    |(-1) ^ a * x - (-1) ^ a * v m| ≤ |(-1) ^ a * x - (-1) ^ b * v k| ∧
      ((-1 : ℚ) ^ a ≠ (-1) ^ b ∨ k ≠ m →
        |(-1) ^ a * x - (-1) ^ a * v m| = |(-1) ^ a * x - (-1) ^ b * v k| → Even m) := by
  have hsign : ∀ y : ℚ, |(-1) ^ a * y| = |y| := fun y => by
    rw [abs_mul, abs_pow, abs_neg, abs_one, one_pow, one_mul]
  rw [← mul_sub, hsign]
  rcases eq_or_ne ((-1 : ℚ) ^ a) ((-1) ^ b) with hab | hab
  · rw [← hab, ← mul_sub, hsign]
    exact ⟨(h.2 k hk).1, fun hne => (h.2 k hk).2 (hne.resolve_left fun hn => hn rfl)⟩
  · -- across zero nothing is nearer than zero itself
    have hopp : (-1 : ℚ) ^ b = -(-1) ^ a := by
      rcases neg_one_pow_eq_or ℚ a with ha | ha <;> rcases neg_one_pow_eq_or ℚ b with hb | hb <;>
        simp_all
    have hvk : 0 ≤ v k := h0 ▸ hv.monotone (Nat.zero_le k)
    obtain ⟨hle, htie⟩ := h.2 0 (Nat.zero_le top)
    rw [h0, sub_zero, abs_of_nonneg hx] at hle htie
    rw [hopp, neg_mul, sub_neg_eq_add, ← mul_add, hsign, abs_of_nonneg (add_nonneg hx hvk)]
    refine ⟨by linarith, fun _ heq => ?_⟩
    rcases Nat.eq_zero_or_pos m with rfl | hm
    · exact Even.zero
    · exact htie hm.ne (by linarith)

/-! ## Signed codes -/

theorem sign_or_magnitude {n a b m k : ℕ} (ha : a < 2) (hb : b < 2)
    (hne : b * 2 ^ n + k ≠ a * 2 ^ n + m) : (-1 : ℚ) ^ a ≠ (-1) ^ b ∨ k ≠ m := by
  by_contra h
  obtain ⟨hab, rfl⟩ : (-1 : ℚ) ^ a = (-1) ^ b ∧ k = m := by simpa using h
  refine hne (congrArg (· * 2 ^ n + k) ?_)
  obtain rfl | rfl : a = 0 ∨ a = 1 := by omega
  all_goals obtain rfl | rfl : b = 0 ∨ b = 1 := by omega
  all_goals first | rfl | norm_num at hab

theorem even_code (n a : ℕ) {m : ℕ} (hm : Even m) : Even (a * 2 ^ (n + 1) + m) :=
  ((even_two.pow_of_ne_zero n.succ_ne_zero).mul_left a).add hm

/-- Of the codes of `n` bits that decode, `c` is one nearest to `x`, and is even where another is
as near. -/
def NearestCode (dec : ℕ → Option ℚ) (n : ℕ) (x : ℚ) (c : ℕ) : Prop :=
  ∃ y, dec c = some y ∧ ∀ c' < 2 ^ n, ∀ w, dec c' = some w →
    |x - y| ≤ |x - w| ∧ (c' ≠ c → |x - y| = |x - w| → Even c)

/-- Where the codes are signed steps, rounding the magnitude finds the nearest code. -/
theorem RoundsEven.nearestCode (hv : StrictMono v) (h0 : v 0 = 0) (hx : 0 ≤ x) {m n a c : ℕ}
    {dec : ℕ → Option ℚ} (h : RoundsEven v top x m) (ha : a < 2)
    (hdec : ∀ b < 2, ∀ k < 2 ^ (n + 1), ∀ w, dec (b * 2 ^ (n + 1) + k) = some w →
      k ≤ top ∧ (-1) ^ b * v k = w)
    (hself : dec c = some ((-1) ^ a * v m)) (hc : Even c ∨ c = a * 2 ^ (n + 1) + m) :
    NearestCode dec (n + 2) ((-1) ^ a * x) c := by
  refine ⟨_, hself, fun c' hc' w hw => ?_⟩
  obtain ⟨b, k, hb, hk, rfl⟩ : ∃ b k, b < 2 ∧ k < 2 ^ (n + 1) ∧ c' = b * 2 ^ (n + 1) + k :=
    ⟨_, _, Nat.div_lt_of_lt_mul (by rwa [← pow_succ]), Nat.mod_lt c' (Nat.two_pow_pos _),
      (Nat.div_add_mod' _ _).symm⟩
  obtain ⟨hk, rfl⟩ := hdec b hb k hk w hw
  have hsigned := h.signed hv h0 hx hk (a := a) (b := b)
  refine ⟨hsigned.1, fun hne heq => ?_⟩
  rcases hc with hc | rfl
  · exact hc
  · exact even_code n a (hsigned.2 (sign_or_magnitude ha hb hne) heq)

/-! ## Binary formats -/

/-- The value of the magnitude with pattern `m`, in units of the least one. -/
def binary (p m : ℕ) : ℕ := if m < 2 ^ p then m else (2 ^ p + m % 2 ^ p) * 2 ^ (m / 2 ^ p - 1)

variable {p : ℕ}

theorem binary_of_lt {m : ℕ} (h : m < 2 ^ p) : binary p m = m := if_pos h

theorem binary_normal (e : ℕ) {f : ℕ} (hf : f < 2 ^ p) :
    binary p ((e + 1) * 2 ^ p + f) = (2 ^ p + f) * 2 ^ e := by
  have hpos : 0 < 2 ^ p := Nat.two_pow_pos p
  have hge : ¬ (e + 1) * 2 ^ p + f < 2 ^ p := by
    rw [Nat.succ_mul]
    omega
  rw [binary, if_neg hge, Nat.mul_comm (e + 1), Nat.mul_add_mod, Nat.mod_eq_of_lt hf,
    Nat.mul_add_div hpos, Nat.div_eq_of_lt hf]
  rfl

/-- A pattern is below the normal ones or has an exponent. -/
theorem pattern_cases (p m : ℕ) :
    m < 2 ^ p ∨ ∃ e f, f < 2 ^ p ∧ m = (e + 1) * 2 ^ p + f := by
  rcases Nat.lt_or_ge m (2 ^ p) with h | h
  · exact .inl h
  · have hpos : 0 < 2 ^ p := Nat.two_pow_pos p
    refine .inr ⟨m / 2 ^ p - 1, m % 2 ^ p, Nat.mod_lt m hpos, ?_⟩
    rw [Nat.sub_add_cancel (Nat.div_pos h hpos), Nat.div_add_mod']

theorem exponent_normal (e : ℕ) {f : ℕ} (hf : f < 2 ^ p) :
    ((e + 1) * 2 ^ p + f) / 2 ^ p - 1 = e := by
  rw [Nat.mul_comm, Nat.mul_add_div (Nat.two_pow_pos p), Nat.div_eq_of_lt hf]
  rfl

/-- The gap above a step is one, doubled with the exponent. -/
theorem binary_succ (p m : ℕ) : binary p (m + 1) = binary p m + 2 ^ (m / 2 ^ p - 1) := by
  have hpos : 0 < 2 ^ p := Nat.two_pow_pos p
  rcases pattern_cases p m with h | ⟨e, f, hf, rfl⟩
  · rw [Nat.div_eq_of_lt h, binary_of_lt h]
    rcases Nat.lt_or_ge (m + 1) (2 ^ p) with h' | h'
    · exact binary_of_lt h'
    · have hm : m + 1 = (0 + 1) * 2 ^ p + 0 := by omega
      rw [hm, binary_normal 0 hpos]
      omega
  · rw [exponent_normal e hf, binary_normal e hf]
    rcases Nat.lt_or_ge (f + 1) (2 ^ p) with h' | h'
    · rw [Nat.add_assoc, binary_normal e h']
      ring
    · have hf' : f + 1 = 2 ^ p := by omega
      have hm : (e + 1) * 2 ^ p + f + 1 = (e + 1 + 1) * 2 ^ p + 0 := by
        rw [Nat.add_assoc, hf']
        ring
      rw [hm, binary_normal (e + 1) hpos, pow_succ, ← hf']
      ring

theorem binary_strictMono (p : ℕ) : StrictMono (binary p) :=
  strictMono_nat_of_lt_succ fun m => by
    rw [binary_succ]
    have := Nat.two_pow_pos (m / 2 ^ p - 1)
    omega

/-- A pattern with `s` more fraction bits lies that far between two steps. -/
theorem binary_interpolate (p s q : ℕ) {r : ℕ} (hr : r < 2 ^ s) :
    binary (p + s) (q * 2 ^ s + r) =
      2 ^ s * binary p q + r * (binary p (q + 1) - binary p q) := by
  rw [binary_succ, Nat.add_sub_cancel_left]
  have hsplit : ∀ f, f < 2 ^ p → f * 2 ^ s + r < 2 ^ (p + s) := by
    intro f hf
    have := Nat.mul_le_mul_right (2 ^ s) (Nat.succ_le_of_lt hf)
    rw [Nat.succ_mul] at this
    rw [pow_add]
    omega
  rcases pattern_cases p q with h | ⟨e, f, hf, rfl⟩
  · rw [binary_of_lt (hsplit q h), binary_of_lt h, Nat.div_eq_of_lt h]
    ring
  · have hm : ((e + 1) * 2 ^ p + f) * 2 ^ s + r = (e + 1) * 2 ^ (p + s) + (f * 2 ^ s + r) := by
      rw [pow_add]
      ring
    rw [hm, binary_normal e (hsplit f hf), binary_normal e hf, exponent_normal e hf, pow_add]
    ring

/-- More exponent scales the value. -/
theorem binary_rebias (p c : ℕ) {m : ℕ} (hm : 2 ^ p ≤ m) :
    binary p (m + c * 2 ^ p) = 2 ^ c * binary p m := by
  rcases pattern_cases p m with h | ⟨e, f, hf, rfl⟩
  · omega
  · have hadd : (e + 1) * 2 ^ p + f + c * 2 ^ p = (e + c + 1) * 2 ^ p + f := by ring
    rw [hadd, binary_normal _ hf, binary_normal e hf, pow_add]
    ring

/-! ## Rounding patterns -/

/-- `n / 2 ^ s`, rounded to the nearest integer, in the middle to the even one. -/
def halfEven (s n : ℕ) : ℕ :=
  if 2 ^ s < 2 * (n % 2 ^ s) ∨ 2 * (n % 2 ^ s) = 2 ^ s ∧ ¬ Even (n / 2 ^ s) then n / 2 ^ s + 1
  else n / 2 ^ s

theorem le_halfEven (s n : ℕ) : n / 2 ^ s ≤ halfEven s n := by
  unfold halfEven
  split <;> omega

theorem halfEven_le {s n k : ℕ} (h : n < k * 2 ^ s) : halfEven s n ≤ k := by
  have := Nat.div_lt_of_lt_mul (show n < 2 ^ s * k by rwa [Nat.mul_comm])
  unfold halfEven
  split <;> omega

/-- An exponent does not change the rounding of the fraction. -/
theorem halfEven_add (p s a n : ℕ) :
    halfEven s (a * 2 ^ (p + 1 + s) + n) = a * 2 ^ (p + 1) + halfEven s n := by
  have hadd : a * 2 ^ (p + 1 + s) + n = n + 2 ^ s * (a * 2 ^ (p + 1)) := by ring
  have hmul : Even (a * 2 ^ (p + 1)) := (even_two.pow_of_ne_zero p.succ_ne_zero).mul_left a
  have heven : Even (n / 2 ^ s + a * 2 ^ (p + 1)) ↔ Even (n / 2 ^ s) := by
    rw [Nat.even_add]
    exact iff_true_right hmul
  unfold halfEven
  rw [hadd, Nat.add_mul_mod_self_left, Nat.add_mul_div_left _ _ (Nat.two_pow_pos s)]
  simp only [heven]
  split <;> omega

/-- The steps of a format whose least step is `1 / d`. -/
def step (p d m : ℕ) : ℚ := binary p m / d

theorem step_strictMono (p : ℕ) {d : ℕ} (hd : 0 < d) : StrictMono (step p d) := fun _ _ h =>
  div_lt_div_of_pos_right (Nat.cast_lt.mpr (binary_strictMono p h)) (Nat.cast_pos.mpr hd)

theorem step_nonneg (p d m : ℕ) : 0 ≤ step p d m :=
  div_nonneg (Nat.cast_nonneg _) (Nat.cast_nonneg _)

@[simp] theorem step_zero (p d : ℕ) : step p d 0 = 0 := by
  rw [step, binary_of_lt (Nat.two_pow_pos p), Nat.cast_zero, zero_div]

/-- A pattern with more fraction bits lies above the step it is cut to. -/
theorem step_between {s n d : ℕ} (hd : 0 < d) :
    step (p + s) (2 ^ s * d) n = step p d (n / 2 ^ s) + (n % 2 ^ s : ℕ) / 2 ^ s *
      (step p d (n / 2 ^ s + 1) - step p d (n / 2 ^ s)) := by
  have hd' : (0 : ℚ) < d := Nat.cast_pos.mpr hd
  have hle : binary p (n / 2 ^ s) ≤ binary p (n / 2 ^ s + 1) :=
    (binary_strictMono p).monotone (Nat.le_succ _)
  have hbin := binary_interpolate p s (n / 2 ^ s) (Nat.mod_lt n (Nat.two_pow_pos s))
  rw [Nat.div_add_mod'] at hbin
  rw [step, hbin, step, step]
  push_cast [hle]
  field_simp

theorem step_le_of_le_div {s n d k : ℕ} (hd : 0 < d) (hk : k ≤ n / 2 ^ s) :
    step p d k ≤ step (p + s) (2 ^ s * d) n := by
  have hgap : step p d (n / 2 ^ s) ≤ step p d (n / 2 ^ s + 1) :=
    (step_strictMono p hd).monotone (Nat.le_succ _)
  refine ((step_strictMono p hd).monotone hk).trans ?_
  rw [step_between hd]
  exact le_add_of_nonneg_right (mul_nonneg (by positivity) (sub_nonneg.mpr hgap))

/-- Rounding a pattern is rounding its value. -/
theorem roundsEven_pattern {s n d : ℕ} (hd : 0 < d) (htop : halfEven s n ≤ top) :
    RoundsEven (step p d) top (step (p + s) (2 ^ s * d) n) (halfEven s n) := by
  have hpow : (0 : ℚ) < 2 ^ s := by positivity
  have h0 : (0 : ℚ) ≤ (n % 2 ^ s : ℕ) / 2 ^ s := by positivity
  rcases Nat.lt_or_ge (n / 2 ^ s) top with hlt | hge
  · have h1 : ((n % 2 ^ s : ℕ) : ℚ) / 2 ^ s < 1 := by
      rw [div_lt_one hpow]
      exact_mod_cast Nat.mod_lt n (Nat.two_pow_pos s)
    have hround := roundsEven_between (step_strictMono p hd) hlt h0 h1 (step_between hd)
    have hhalf : 1 / 2 < ((n % 2 ^ s : ℕ) : ℚ) / 2 ^ s ↔ 2 ^ s < 2 * (n % 2 ^ s) := by
      rw [div_lt_div_iff₀ two_pos hpow, one_mul, mul_comm]
      exact_mod_cast Iff.rfl
    have hmid : ((n % 2 ^ s : ℕ) : ℚ) / 2 ^ s = 1 / 2 ↔ 2 * (n % 2 ^ s) = 2 ^ s := by
      rw [div_eq_div_iff hpow.ne' two_ne_zero, one_mul, mul_comm]
      exact_mod_cast Iff.rfl
    simp only [hhalf, hmid] at hround
    exact hround
  · have heq : halfEven s n = top := le_antisymm htop (hge.trans (le_halfEven s n))
    rw [heq]
    exact roundsEven_top (step_strictMono p hd) (step_le_of_le_div hd hge)

theorem halfEven_mono (s : ℕ) : Monotone (halfEven s) := by
  intro a b h
  have hdiv : a / 2 ^ s ≤ b / 2 ^ s := Nat.div_le_div_right h
  rcases Nat.lt_or_eq_of_le hdiv with hlt | heq
  · exact (halfEven_le (Nat.lt_mul_of_div_lt (Nat.lt_succ_self _) (Nat.two_pow_pos s))).trans
      (hlt.trans_le (le_halfEven s b))
  · have hmod : a % 2 ^ s ≤ b % 2 ^ s := by
      have ha := Nat.div_add_mod a (2 ^ s)
      have hb := Nat.div_add_mod b (2 ^ s)
      rw [heq] at ha
      omega
    unfold halfEven
    rw [heq]
    split_ifs with ha hb hb
    · rfl
    · have hhalf : 2 ^ s ≤ 2 * (b % 2 ^ s) := by omega
      rcases Nat.lt_or_eq_of_le hhalf with h' | h'
      · exact absurd (.inl h') hb
      · exact absurd (.inr ⟨h'.symm, (ha.resolve_left (by omega)).2⟩) hb
    · exact Nat.le_succ _
    · rfl

/-- The value of a normal pattern, from its fields. -/
theorem step_normal (b e : ℕ) {f : ℕ} (hf : f < 2 ^ p) :
    step p (2 ^ (b + p)) ((e + 1) * 2 ^ p + f) =
      (1 + f / 2 ^ p) * 2 ^ ((e + 1 : ℕ) - (b + 1 : ℕ) : ℤ) := by
  rw [step, binary_normal e hf, show ((e + 1 : ℕ) - (b + 1 : ℕ) : ℤ) = (e : ℤ) - b by omega,
    zpow_sub₀ two_ne_zero, zpow_natCast, zpow_natCast, pow_add]
  push_cast
  field_simp

/-- What is at most half the least step rounds to zero. -/
theorem roundsEven_zero {d : ℕ} (hd : 0 < d) (htop : 0 < top) (h0 : 0 ≤ x) (hx : x * (2 * d) ≤ 1) :
    RoundsEven (step p d) top x 0 := by
  have hd' : (0 : ℚ) < d := Nat.cast_pos.mpr hd
  have hone : step p d (0 + 1) = 1 / d := by
    rw [step, binary_succ, binary_of_lt (Nat.two_pow_pos p), Nat.zero_div]
    norm_num
  have hround := roundsEven_between (step_strictMono p hd) htop (mul_nonneg h0 hd'.le)
    (show x * d < 1 by linarith) (show x = _ by rw [hone, step_zero]; field_simp; ring)
  rwa [if_neg] at hround
  rintro (h | ⟨-, h⟩)
  · linarith
  · exact h Even.zero

end Svod.Lib.Ladder
