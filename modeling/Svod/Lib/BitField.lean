/-
  Svod.Lib.BitField

  Fields of a machine word that hold some bits of a number, possibly scattered
  in pieces.

  A field that is written under a mask reads back the bits that it holds, and
  the bits outside of it are those of the word before.  A field of the bits from
  `lo` to `top` represents the multiples of `2 ^ lo` in the range of `top` bits.
-/

import Svod.Lib.MachineInt
import Mathlib.Tactic.Ring

namespace Svod.Lib

/-! ## Pieces -/

/-- The bits from `src` on of a number stand from `dst` on in a word. -/
structure Piece where
  src : ℕ
  width : ℕ
  dst : ℕ

namespace Piece

/-- The word of a number. -/
def put (p : Piece) (x : ℕ) : ℕ := ((x >>> p.src) % 2 ^ p.width) <<< p.dst

/-- The number of a word. -/
def take (p : Piece) (w : ℕ) : ℕ := ((w >>> p.dst) % 2 ^ p.width) <<< p.src

/-- A bit of the word that belongs to the piece. -/
def Covers (p : Piece) (i : ℕ) : Prop := p.dst ≤ i ∧ i < p.dst + p.width

/-- A bit of the number that belongs to the piece. -/
def Holds (p : Piece) (i : ℕ) : Prop := p.src ≤ i ∧ i < p.src + p.width

instance (p : Piece) (i : ℕ) : Decidable (p.Covers i) := inferInstanceAs (Decidable (_ ∧ _))

instance (p : Piece) (i : ℕ) : Decidable (p.Holds i) := inferInstanceAs (Decidable (_ ∧ _))

theorem testBit_put (p : Piece) (x i : ℕ) :
    (p.put x).testBit i = true ↔ p.Covers i ∧ x.testBit (i - p.dst + p.src) = true := by
  unfold put Covers
  rw [Nat.testBit_shiftLeft, Nat.testBit_mod_two_pow, Nat.testBit_shiftRight,
    Nat.add_comm p.src]
  simp only [Bool.and_eq_true, decide_eq_true_eq]
  constructor
  · rintro ⟨hlo, hhi, hbit⟩
    exact ⟨⟨hlo, by omega⟩, hbit⟩
  · rintro ⟨⟨hlo, hhi⟩, hbit⟩
    exact ⟨hlo, by omega, hbit⟩

/-- Taking is putting the other way round. -/
theorem testBit_take (p : Piece) (w i : ℕ) :
    (p.take w).testBit i = true ↔ p.Holds i ∧ w.testBit (i - p.src + p.dst) = true :=
  testBit_put ⟨p.dst, p.width, p.src⟩ w i

end Piece

/-! ## Fields -/

/-- Pieces that hold the bits from `lo` to `top` of a number, apart from each other in the word. -/
structure Field where
  lo : ℕ
  top : ℕ
  pieces : List Piece
  apart : pieces.Pairwise fun p q => p.dst + p.width ≤ q.dst ∨ q.dst + q.width ≤ p.dst
  within : ∀ p ∈ pieces, lo ≤ p.src ∧ p.src + p.width ≤ top
  held : ∀ i < top, lo ≤ i → ∃ p ∈ pieces, p.Holds i

namespace Field

variable (f : Field)

def encode (x : ℕ) : ℕ := f.pieces.foldr (fun p w => p.put x ||| w) 0

def decode (w : ℕ) : ℕ := f.pieces.foldr (fun p x => p.take w ||| x) 0

/-- A bit of the word that belongs to the field. -/
def Covers (i : ℕ) : Prop := ∃ p ∈ f.pieces, p.Covers i

instance (i : ℕ) : Decidable (f.Covers i) := inferInstanceAs (Decidable (∃ p ∈ f.pieces, p.Covers i))

/-- A mask keeps what is outside of the field in a word of `n` bits, and clears the field. -/
def Clears (mask n : ℕ) : Prop := ∀ i < n, mask.testBit i = !decide (f.Covers i)

instance (mask n : ℕ) : Decidable (f.Clears mask n) :=
  inferInstanceAs (Decidable (∀ i < n, _))

theorem testBit_foldr_lor {α : Type} (g : α → ℕ) (l : List α) (i : ℕ) :
    (l.foldr (fun a w => g a ||| w) 0).testBit i = true ↔ ∃ a ∈ l, (g a).testBit i = true := by
  induction l with
  | nil => simp
  | cons a l ih =>
    rw [List.foldr_cons, Nat.testBit_or, Bool.or_eq_true, ih, List.exists_mem_cons_iff]

theorem testBit_encode (x i : ℕ) : (f.encode x).testBit i = true ↔
    ∃ p ∈ f.pieces, p.Covers i ∧ x.testBit (i - p.dst + p.src) = true := by
  unfold encode
  simp only [testBit_foldr_lor, Piece.testBit_put]

theorem testBit_decode (w i : ℕ) : (f.decode w).testBit i = true ↔
    ∃ p ∈ f.pieces, p.Holds i ∧ w.testBit (i - p.src + p.dst) = true := by
  unfold decode
  simp only [testBit_foldr_lor, Piece.testBit_take]

variable {f}

/-- A bit of the word belongs to one piece. -/
theorem eq_of_covers {p q : Piece} {i : ℕ} (hp : p ∈ f.pieces) (hq : q ∈ f.pieces)
    (hpi : p.Covers i) (hqi : q.Covers i) : p = q := by
  by_contra hne
  have hsymm : Std.Symm fun p q : Piece =>
      p.dst + p.width ≤ q.dst ∨ q.dst + q.width ≤ p.dst := ⟨fun _ _ h => h.symm⟩
  have h := f.apart.forall hp hq hne
  obtain ⟨hplo, hphi⟩ := hpi
  obtain ⟨hqlo, hqhi⟩ := hqi
  omega

theorem holds_iff (i : ℕ) : (∃ p ∈ f.pieces, p.Holds i) ↔ f.lo ≤ i ∧ i < f.top := by
  constructor
  · rintro ⟨p, hp, hlo, hhi⟩
    have h := f.within p hp
    omega
  · rintro ⟨hlo, hhi⟩
    exact f.held i hhi hlo

/-- The bits from `lo` to `top`, in place. -/
theorem testBit_bits (x lo top i : ℕ) :
    (x % 2 ^ top / 2 ^ lo * 2 ^ lo).testBit i = true ↔
      (lo ≤ i ∧ i < top) ∧ x.testBit i = true := by
  rw [← Nat.shiftLeft_eq, ← Nat.shiftRight_eq_div_pow, Nat.testBit_shiftLeft,
    Nat.testBit_shiftRight, Nat.testBit_mod_two_pow]
  simp only [Bool.and_eq_true, decide_eq_true_eq]
  constructor
  · rintro ⟨hlo, hhi, hbit⟩
    rw [Nat.add_sub_cancel' hlo] at hhi hbit
    exact ⟨⟨hlo, hhi⟩, hbit⟩
  · rintro ⟨⟨hlo, hhi⟩, hbit⟩
    rw [Nat.add_sub_cancel' hlo]
    exact ⟨hlo, hhi, hbit⟩

/-- A field that is written under a mask reads back the bits that it holds. -/
theorem decode_encode {mask n : ℕ} (hmask : f.Clears mask n) (hn : ∀ i, f.Covers i → i < n)
    (w x : ℕ) :
    f.decode ((w &&& mask) ||| f.encode x) = x % 2 ^ f.top / 2 ^ f.lo * 2 ^ f.lo := by
  refine Nat.eq_of_testBit_eq fun i => Bool.eq_iff_iff.mpr ?_
  rw [testBit_bits, testBit_decode, ← holds_iff]
  -- the bit of the word that a bit of the number stands at
  have hplace : ∀ p ∈ f.pieces, p.Holds i →
      (((w &&& mask) ||| f.encode x).testBit (i - p.src + p.dst) = true ↔
        x.testBit i = true) := by
    intro p hp ⟨hlo, hhi⟩
    have hcov : p.Covers (i - p.src + p.dst) := ⟨by omega, by omega⟩
    have hclear : mask.testBit (i - p.src + p.dst) = false := by
      have hin : f.Covers (i - p.src + p.dst) := ⟨p, hp, hcov⟩
      rw [hmask _ (hn _ hin), decide_eq_true hin]
      rfl
    rw [Nat.testBit_or, Nat.testBit_and, hclear, Bool.and_false, Bool.false_or, testBit_encode]
    constructor
    · rintro ⟨q, hq, hqcov, hbit⟩
      obtain rfl := eq_of_covers hp hq hcov hqcov
      rwa [show i - p.src + p.dst - p.dst + p.src = i by omega] at hbit
    · intro hbit
      refine ⟨p, hp, hcov, ?_⟩
      rwa [show i - p.src + p.dst - p.dst + p.src = i by omega]
  constructor
  · rintro ⟨p, hp, hholds, hbit⟩
    exact ⟨⟨p, hp, hholds⟩, (hplace p hp hholds).mp hbit⟩
  · rintro ⟨⟨p, hp, hholds⟩, hbit⟩
    exact ⟨p, hp, hholds, (hplace p hp hholds).mpr hbit⟩

/-- The bits outside of the field are those of the word before. -/
theorem testBit_outside {mask n i : ℕ} (hmask : f.Clears mask n) (hi : i < n)
    (hout : ¬ f.Covers i) (w x : ℕ) :
    ((w &&& mask) ||| f.encode x).testBit i = w.testBit i := by
  have henc : (f.encode x).testBit i = false := by
    refine Bool.eq_false_iff.mpr fun h => hout ?_
    obtain ⟨p, hp, hcov, -⟩ := (testBit_encode f x i).mp h
    exact ⟨p, hp, hcov⟩
  rw [Nat.testBit_or, Nat.testBit_and, henc, hmask i hi, decide_eq_false hout, Bool.or_false]
  exact Bool.and_true _

/-- A word under its mask has no more bits than the mask has room for. -/
theorem encode_lt {n : ℕ} (hn : ∀ i, f.Covers i → i < n) (x : ℕ) : f.encode x < 2 ^ n := by
  refine Nat.lt_pow_two_of_testBit _ fun i hi => Bool.eq_false_iff.mpr fun h => ?_
  obtain ⟨p, hp, hcov, -⟩ := (testBit_encode f x i).mp h
  exact absurd (hn i ⟨p, hp, hcov⟩) (Nat.not_lt.mpr hi)

end Field

/-! ## Numbers that a field represents -/

/-- How the number of a field is read. -/
inductive Reading where
  | signed
  | unsigned
  /-- Either of the two, as the user of the field sees fit. -/
  | either
deriving DecidableEq, Repr

/-- A number of `top` bits is read as a value. -/
def Reading.Reads (r : Reading) (top x : ℕ) (v : ℤ) : Prop :=
  match r with
  | .signed => wrapSigned top x = v
  | .unsigned => (x : ℤ) = v
  | .either => wrapSigned top x = v ∨ (x : ℤ) = v

/-- The range of a reading. -/
def Reading.InRange (r : Reading) (top : ℕ) (v : ℤ) : Prop :=
  match r with
  | .signed => -2 ^ (top - 1) ≤ v ∧ v < 2 ^ (top - 1)
  | .unsigned => 0 ≤ v ∧ v < 2 ^ top
  | .either => -2 ^ (top - 1) ≤ v ∧ v < 2 ^ top

instance (r : Reading) (top : ℕ) (v : ℤ) : Decidable (r.InRange top v) :=
  match r with
  | .signed => inferInstanceAs (Decidable (_ ∧ _))
  | .unsigned => inferInstanceAs (Decidable (_ ∧ _))
  | .either => inferInstanceAs (Decidable (_ ∧ _))

/-- A value that the field represents: its low bits are zero and it is in range. -/
def Field.Represents (f : Field) (r : Reading) (v : ℤ) : Prop :=
  (2 : ℤ) ^ f.lo ∣ v ∧ r.InRange f.top v

instance (f : Field) (r : Reading) (v : ℤ) : Decidable (f.Represents r v) :=
  inferInstanceAs (Decidable (_ ∧ _))

/-- Rounding down to a multiple of `2 ^ lo` and reduction to `top` bits commute. -/
theorem mod_div_mul_congr {lo top : ℕ} (h : lo ≤ top) (x : ℕ) :
    (2 : ℤ) ^ top ∣ (x % 2 ^ top / 2 ^ lo * 2 ^ lo : ℕ) - (x / 2 ^ lo * 2 ^ lo : ℕ) := by
  obtain ⟨d, rfl⟩ := Nat.exists_eq_add_of_le h
  have hquot : x / 2 ^ lo = 2 ^ d * (x / 2 ^ (lo + d)) + x % 2 ^ (lo + d) / 2 ^ lo := by
    conv_lhs => rw [← Nat.div_add_mod x (2 ^ (lo + d)), pow_add, Nat.mul_assoc,
      Nat.mul_add_div (Nat.two_pow_pos lo)]
    rw [pow_add]
  refine ⟨-(x / 2 ^ (lo + d) : ℕ), ?_⟩
  rw [hquot]
  push_cast
  ring

section

variable {lo top : ℕ} {y v : ℤ} (hy : (2 : ℤ) ^ lo ∣ y)
  (hyv : (2 : ℤ) ^ top ∣ y - v / 2 ^ lo * 2 ^ lo)

include hy hyv

/-- A multiple of `2 ^ lo` that agrees with a value in the bits from `lo` to `top` is read as that
    value exactly when the value is such a multiple, and in range. -/
theorem signed_iff (hlo : lo ≤ top) (htop : 0 < top) : wrapSigned top y = v ↔
    (2 : ℤ) ^ lo ∣ v ∧ -2 ^ (top - 1) ≤ v ∧ v < 2 ^ (top - 1) := by
  constructor
  · rintro rfl
    have hpow : (2 : ℤ) ^ lo ∣ y - wrapSigned top y :=
      (pow_dvd_pow 2 hlo).trans (dvd_sub_wrapSigned top y)
    exact ⟨(dvd_sub_right hy).mp hpow, wrapSigned_bounds htop y⟩
  · rintro ⟨hdvd, hmin, hmax⟩
    rw [Int.ediv_mul_cancel hdvd] at hyv
    rw [wrapSigned_congr hyv, wrapSigned_of_bounds htop hmin hmax]

theorem unsigned_iff (hnonneg : 0 ≤ y) (hlt : y < 2 ^ top) : y = v ↔
    (2 : ℤ) ^ lo ∣ v ∧ 0 ≤ v ∧ v < 2 ^ top := by
  constructor
  · rintro rfl
    exact ⟨hy, hnonneg, hlt⟩
  · rintro ⟨hdvd, hmin, hmax⟩
    rw [Int.ediv_mul_cancel hdvd] at hyv
    rw [← Int.emod_eq_of_lt hnonneg hlt, ← Int.emod_eq_of_lt hmin hmax]
    exact Int.emod_eq_emod_iff_emod_sub_eq_zero.mpr (Int.emod_eq_zero_of_dvd hyv)

end

/-- The bits of a field are read as a value exactly when the field represents it. -/
theorem Field.reads_iff (f : Field) (hlo : f.lo ≤ f.top) (htop : 0 < f.top) (r : Reading) {x : ℕ}
    {v : ℤ} (hx : (2 : ℤ) ^ f.top ∣ (x / 2 ^ f.lo * 2 ^ f.lo : ℕ) - v / 2 ^ f.lo * 2 ^ f.lo) :
    r.Reads f.top (x % 2 ^ f.top / 2 ^ f.lo * 2 ^ f.lo) v ↔ f.Represents r v := by
  have hyv : (2 : ℤ) ^ f.top ∣
      (x % 2 ^ f.top / 2 ^ f.lo * 2 ^ f.lo : ℕ) - v / 2 ^ f.lo * 2 ^ f.lo := by
    have h := dvd_add (mod_div_mul_congr hlo x) hx
    rwa [sub_add_sub_cancel] at h
  have hy : (2 : ℤ) ^ f.lo ∣ (x % 2 ^ f.top / 2 ^ f.lo * 2 ^ f.lo : ℕ) := by
    push_cast
    exact dvd_mul_left _ _
  have hlt : ((x % 2 ^ f.top / 2 ^ f.lo * 2 ^ f.lo : ℕ) : ℤ) < 2 ^ f.top := by
    have hle := Nat.div_mul_le_self (x % 2 ^ f.top) (2 ^ f.lo)
    have hmod := Nat.mod_lt x (Nat.two_pow_pos f.top)
    exact_mod_cast hle.trans_lt hmod
  unfold Field.Represents
  cases r with
  | signed => exact signed_iff hy hyv hlo htop
  | unsigned => exact unsigned_iff hy hyv (Int.natCast_nonneg _) hlt
  | either =>
    -- the two ranges together
    have hpow : (2 : ℤ) ^ f.top = 2 * 2 ^ (f.top - 1) := by
      rw [← pow_succ', Nat.sub_add_cancel htop]
    have hpos : (0 : ℤ) < 2 ^ (f.top - 1) := by positivity
    have hsigned := signed_iff hy hyv hlo htop
    have hunsigned := unsigned_iff hy hyv (Int.natCast_nonneg _) hlt
    simp only [Reading.Reads, Reading.InRange]
    rw [hsigned, hunsigned, ← and_or_left]
    refine and_congr_right fun _ => ?_
    omega

end Svod.Lib
