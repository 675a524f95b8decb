/-
  Svod.Symbolic.Narrowing

  Narrowing of 64-bit operations (`long_to_int_narrowing_patterns` of
  `symbolic/patterns.rs`).

  The rule looks at the type and the sound range of the operands and at the
  sound range of the result, so an operand is known by these two.  A 64-bit
  operation wraps around; a 32-bit one has a value only where it does not
  overflow, as in the evaluator of constants: dividing the least value by `-1`
  overflows, and so does its remainder.
-/

import Svod.Ir.RangeEvalBinary

namespace Svod.Symbolic.Narrowing

open Svod.Ir Svod.Lib

/-! ## Nodes -/

/-- The operations of the rule. -/
inductive Op where
  | add | mul | sub | floorMod | max | floorDiv | and | or | xor | shl | shr
deriving DecidableEq, Repr

/-- The operation, as far as the range analysis knows it. -/
def Op.toBinaryOp : Op → Option BinaryOp
  | .add => some .add
  | .mul => some .mul
  | .sub => some .sub
  | .floorMod => some .floorMod
  | .max => some .max
  | .floorDiv => some .floorDiv
  | .and => some .and
  | .or => some .or
  | .xor => none
  | .shl => some .shl
  | .shr => some .shr

/-- An operand expression: its type and its sound range. -/
structure Operand where
  id : ℕ
  dtype : ScalarDType
  range : Option RangeEval.Bounds
deriving DecidableEq

inductive Node where
  | operand (x : Operand)
  | binary (op : Op) (a b : Node) (dtype : ScalarDType)
  | cast (src : Node) (dtype : ScalarDType)
deriving DecidableEq

def Node.dtype : Node → ScalarDType
  | operand x => x.dtype
  | binary _ _ _ d => d
  | cast _ d => d

/-- `UOp::cast`: nothing when the type is the same. -/
def Node.castTo (n : Node) (d : ScalarDType) : Node := if n.dtype = d then n else .cast n d

/-! ## The rule -/

/-- The sound range of an exclusive or: two constants. -/
def xorRange (a b : RangeEval.Bounds) : Option RangeEval.Bounds :=
  if a.1 = a.2 ∧ b.1 = b.2 then
    match a.1, b.1 with
    | .int x, .int y => ((ConstValue.int (x.xor y)).cast .int64).map fun c => (c, c)
    | _, _ => none
  else none

/-- The sound range of a 64-bit node. -/
def resultRange (op : Op) (x y : Operand) : Option RangeEval.Bounds := do
  let a ← x.range
  let b ← y.range
  match op.toBinaryOp with
  | some op => RangeEval.soundBinaryRange op (x = y) a b (.scalar .int64)
  | none => xorRange a b

/-- `fits_i32`. -/
def fitsI32 : Option RangeEval.Bounds → Bool
  | some (.int lo, .int hi) => -2 ^ 31 ≤ lo ∧ hi ≤ 2 ^ 31 - 1
  | _ => false

/-- The 64-bit node. -/
def original (op : Op) (x y : Operand) : Node := .binary op (.operand x) (.operand y) .int64

/-- The pattern of `long_to_int_narrowing_patterns` on binary operations. -/
def narrow (op : Op) (x y : Operand) : Option Node :=
  if x.dtype = .int64 ∧ fitsI32 x.range ∧ fitsI32 y.range ∧ fitsI32 (resultRange op x y) then
    some ((Node.binary op ((Node.operand x).castTo .int32) ((Node.operand y).castTo .int32)
      .int32).castTo .int64)
  else none

/-! ## Values -/

/-- The result before it is reduced to the type. -/
def Op.apply (op : Op) (x y : ℤ) : ℤ :=
  match op.toBinaryOp with
  | some op => op.apply x y
  | none => x.xor y

def Op.isDivision : Op → Bool
  | .floorDiv | .floorMod => true
  | _ => false

def Op.isShift : Op → Bool
  | .shl | .shr => true
  | _ => false

/-- A divisor that is not zero, a shift amount below the width. -/
def Op.defined (op : Op) (bits : ℕ) (y : ℤ) : Bool :=
  (!op.isDivision || y ≠ 0) && (!op.isShift || (0 ≤ y && y < bits))

/-- No overflow in 32 bits. -/
def Op.exact32 (op : Op) (x y : ℤ) : Bool :=
  (!op.isDivision || !(x = -2 ^ 31 && y = -1)) &&
    (-2 ^ 31 ≤ op.apply x y && op.apply x y < 2 ^ 31)

/-- Values of the operands. -/
abbrev Assignment := Operand → ℤ

/-- The range of the operand is sound for its value. -/
def Operand.Sound (x : Operand) (v : ℤ) : Prop :=
  ∀ b, x.range = some b → RangeEval.InBounds b v

def Node.eval (env : Assignment) : Node → Option ℤ
  | operand x => some (env x)
  | binary op a b d => do
    let x ← a.eval env
    let y ← b.eval env
    if d = .int32 then
      if op.defined 32 y && op.exact32 x y then some (op.apply x y) else none
    else if op.defined 64 y then some (wrapSigned 64 (op.apply x y)) else none
  | cast src d => do
    let v ← src.eval env
    let t ← intType d
    some (Svod.Ir.castTo d t v)

/-! ## What the rule keeps -/

/-- The shift amount is below 32, and no remainder of the least value by `-1` is taken. -/
def Op.Narrowable (op : Op) (x y : ℤ) : Prop :=
  (op.isShift = true → y < 32) ∧ (op = .floorMod → ¬(x = -2 ^ 31 ∧ y = -1))

instance (op : Op) (x y : ℤ) : Decidable (op.Narrowable x y) := inferInstanceAs (Decidable (_ ∧ _))

variable {op : Op} {x y : Operand} {n : Node} {env : Assignment} {v : ℤ}

theorem fitsI32_eq {r : Option RangeEval.Bounds} (h : fitsI32 r = true) :
    ∃ lo hi, r = some (.int lo, .int hi) ∧ -2 ^ 31 ≤ lo ∧ hi ≤ 2 ^ 31 - 1 := by
  unfold fitsI32 at h
  split at h
  · next lo hi => exact ⟨lo, hi, rfl, by simpa using h⟩
  · cases h

/-- An operand with a narrow range has a narrow value. -/
theorem Operand.Sound.fits (hs : x.Sound v) (h : fitsI32 x.range = true) :
    ∃ lo hi, x.range = some (.int lo, .int hi) ∧ -2 ^ 31 ≤ lo ∧ hi ≤ 2 ^ 31 - 1 ∧
      lo ≤ v ∧ v ≤ hi := by
  obtain ⟨lo, hi, hr, hlo, hhi⟩ := fitsI32_eq h
  obtain ⟨l, u, hl, hu, hvl, hvu⟩ := hs _ hr
  cases hl
  cases hu
  exact ⟨lo, hi, hr, hlo, hhi, hvl, hvu⟩

theorem hasType_int64 {z : ℤ} (h : -2 ^ 63 ≤ z ∧ z < 2 ^ 63) :
    HasType .int64 (.int z) z := by
  refine ⟨_, rfl, ⟨h.1, ?_⟩, rfl⟩
  show z ≤ 2 ^ (64 - 1) - 1
  omega

theorem Op.apply_some {bop : BinaryOp} (h : op.toBinaryOp = some bop) (a b : ℤ) :
    op.apply a b = bop.apply a b := by
  simp only [Op.apply, h]

theorem Op.apply_none (h : op.toBinaryOp = none) (a b : ℤ) : op.apply a b = a.xor b := by
  simp only [Op.apply, h]

/-- The result of the 64-bit operation lies in the sound range of the node. -/
theorem result_inRange (hsx : x.Sound (env x)) (hsy : y.Sound (env y))
    (hx : fitsI32 x.range = true) (hy : fitsI32 y.range = true)
    (hres : fitsI32 (resultRange op x y) = true) :
    -2 ^ 31 ≤ wrapSigned 64 (op.apply (env x) (env y)) ∧
      wrapSigned 64 (op.apply (env x) (env y)) < 2 ^ 31 := by
  obtain ⟨xlo, xhi, hxr, hxlo, hxhi, hvx, hvx'⟩ := hsx.fits hx
  obtain ⟨ylo, yhi, hyr, hylo, hyhi, hvy, hvy'⟩ := hsy.fits hy
  obtain ⟨lo, hi, hr, hlo, hhi⟩ := fitsI32_eq hres
  simp only [resultRange, hxr, hyr, Option.bind_eq_bind, Option.bind_some] at hr
  cases hop : op.toBinaryOp with
  | none =>
    -- only two constants have a range here, and it is their exclusive or
    rw [hop] at hr
    simp only [xorRange] at hr
    split at hr
    · next hconst =>
      obtain ⟨hxc, hyc⟩ := hconst
      cases hxc
      cases hyc
      obtain rfl : env x = xlo := by omega
      obtain rfl : env y = ylo := by omega
      cases hr
      rw [Op.apply_none hop, wrapSigned_of_bounds (by decide) (by omega) (by omega)]
      omega
    · cases hr
  | some bop =>
    rw [hop] at hr
    have hcx : Covers .int64 (.int xlo, .int xhi) (fun z => xlo ≤ z ∧ z ≤ xhi) :=
      ⟨xlo, xhi, hasType_int64 (by omega), hasType_int64 (by omega), fun _ h => h⟩
    have hcy : Covers .int64 (.int ylo, .int yhi) (fun z => ylo ≤ z ∧ z ≤ yhi) :=
      ⟨ylo, yhi, hasType_int64 (by omega), hasType_int64 (by omega), fun _ h => h⟩
    have hcmp : bop.isComparison = false := by
      cases op <;> cases hop <;> rfl
    obtain ⟨l, u, hl, hu, hcov⟩ := soundBinaryRange_covers (d := .scalar .int64) hcmp rfl
      (fun h => nomatch h) hcx hcy (fun _ _ _ _ => Or.inl hcy) hr
    cases hl.integerValue
    cases hu.integerValue
    have hwrap := hcov _ ⟨env x, env y, ⟨hvx, hvx'⟩, ⟨hvy, hvy'⟩, rfl⟩
    have hsame : IntType.wrap ⟨true, 64, by decide⟩ (bop.apply (env x) (env y)) =
        wrapSigned 64 (bop.apply (env x) (env y)) := rfl
    rw [hsame] at hwrap
    rw [Op.apply_some hop]
    omega

/-- Between 32-bit operands, with a shift amount below 32, the 64-bit operation does not
    overflow. -/
theorem Op.apply_bounds {a b : ℤ} (ha : -2 ^ 31 ≤ a ∧ a < 2 ^ 31) (hb : -2 ^ 31 ≤ b ∧ b < 2 ^ 31)
    (hdef : op.defined 32 b = true) : -2 ^ 63 ≤ op.apply a b ∧ op.apply a b < 2 ^ 63 := by
  have hN : (2147483648 : ℕ) = 2 ^ 31 := by decide
  cases op with
  | add => show _ ≤ a + b ∧ a + b < _; omega
  | sub => show _ ≤ a - b ∧ a - b < _; omega
  | max => show _ ≤ Max.max a b ∧ Max.max a b < _; omega
  | mul =>
    show _ ≤ a * b ∧ a * b < _
    have hle : |a * b| ≤ 2 ^ 31 * 2 ^ 31 := by
      rw [abs_mul]
      exact mul_le_mul (abs_le.mpr ⟨by omega, by omega⟩) (abs_le.mpr ⟨by omega, by omega⟩)
        (abs_nonneg b) (by decide)
    obtain ⟨hlo, hhi⟩ := abs_le.mp hle
    omega
  | floorDiv =>
    show _ ≤ a.fdiv b ∧ a.fdiv b < _
    have habs := Int.natAbs_fdiv_le_natAbs a b
    omega
  | floorMod =>
    show _ ≤ a.fmod b ∧ a.fmod b < _
    have hb0 : b ≠ 0 := by simpa [Op.defined, Op.isDivision, Op.isShift] using hdef
    rcases lt_or_gt_of_ne hb0 with hneg | hpos
    · have hm := fmod_bounds_neg a hneg
      omega
    · have hm := fmod_bounds_pos a hpos
      omega
  | and =>
    show _ ≤ a.land b ∧ a.land b < _
    have hl := land_bounds hN (x := a) (y := b) (by omega) (by omega)
    omega
  | or =>
    show _ ≤ a.lor b ∧ a.lor b < _
    have hl := lor_bounds hN (x := a) (y := b) (by omega) (by omega)
    omega
  | xor =>
    show _ ≤ a.xor b ∧ a.xor b < _
    have hl := xor_bounds hN (x := a) (y := b) (by omega) (by omega)
    omega
  | shl =>
    show _ ≤ a * 2 ^ b.toNat ∧ a * 2 ^ b.toNat < _
    have hb32 : 0 ≤ b ∧ b < 32 := by simpa [Op.defined, Op.isDivision, Op.isShift] using hdef
    have hpow : (2 : ℤ) ^ b.toNat ≤ 2 ^ 31 :=
      pow_le_pow_right₀ (by decide) (by omega)
    have hle : |a * 2 ^ b.toNat| ≤ 2 ^ 31 * 2 ^ 31 := by
      rw [abs_mul, abs_of_pos (show (0 : ℤ) < 2 ^ b.toNat by positivity)]
      exact mul_le_mul (abs_le.mpr ⟨by omega, by omega⟩) hpow (by positivity) (by decide)
    obtain ⟨hlo, hhi⟩ := abs_le.mp hle
    omega
  | shr =>
    show _ ≤ a / 2 ^ b.toNat ∧ a / 2 ^ b.toNat < _
    have hs := ediv_pow_bounds (N := 2 ^ 31) ha b.toNat
    omega

/-! ## The values of the two nodes -/

theorem eval_original_eq : (original op x y).eval env =
    if op.defined 64 (env y) then some (wrapSigned 64 (op.apply (env x) (env y)))
    else none := rfl

/-- A narrow operand keeps its value in 32 bits. -/
theorem eval_castTo_int32 (hs : x.Sound (env x)) (h : fitsI32 x.range = true) :
    ((Node.operand x).castTo .int32).eval env = some (env x) := by
  obtain ⟨lo, hi, -, hlo, hhi, hvlo, hvhi⟩ := hs.fits h
  unfold Node.castTo
  split
  · rfl
  · show some (Svod.Ir.castTo .int32 _ (env x)) = some (env x)
    rw [castTo_of_contains (s := .int32) rfl ⟨?_, ?_⟩]
    · show -2 ^ (32 - 1) ≤ env x
      omega
    · show env x ≤ 2 ^ (32 - 1) - 1
      omega

/-- The rewritten node: the exact 32-bit result, which the cast keeps. -/
theorem eval_narrow (hsx : x.Sound (env x)) (hsy : y.Sound (env y))
    (h : narrow op x y = some n) : n.eval env =
    if op.defined 32 (env y) && op.exact32 (env x) (env y) then
      some (op.apply (env x) (env y)) else none := by
  simp only [narrow] at h
  split at h
  · next hguard =>
    obtain ⟨-, hx, hy, -⟩ := hguard
    cases h
    show ((((Node.operand x).castTo .int32).eval env).bind fun a =>
      (((Node.operand y).castTo .int32).eval env).bind fun b =>
        if op.defined 32 b && op.exact32 a b then some (op.apply a b) else none).bind
        (fun v => some (Svod.Ir.castTo .int64 _ v)) = _
    rw [eval_castTo_int32 hsx hx, eval_castTo_int32 hsy hy]
    simp only [Option.bind_some]
    split
    · next hdef =>
      have hexact := ((Bool.and_eq_true _ _).mp hdef).2
      have hrange := ((Bool.and_eq_true _ _).mp hexact).2
      simp only [Bool.and_eq_true, decide_eq_true_eq] at hrange
      simp only [Option.bind_some, Option.some.injEq]
      rw [castTo_of_contains (s := .int64) rfl ⟨?_, ?_⟩]
      · show -2 ^ (64 - 1) ≤ _
        omega
      · show _ ≤ 2 ^ (64 - 1) - 1
        omega
    · rfl
  · cases h

theorem Op.narrowable_of_defined {a b : ℤ} (hdef : op.defined 32 b = true)
    (hexact : op.exact32 a b = true) : op.Narrowable a b := by
  simp only [Op.defined, Op.exact32, Bool.and_eq_true, Bool.or_eq_true, Bool.not_eq_true',
    decide_eq_true_eq] at hdef hexact
  refine ⟨fun hs => ?_, ?_⟩
  · rcases hdef.2 with h | h
    · rw [hs] at h
      cases h
    · exact_mod_cast h.2
  · rintro rfl ⟨ha, hb⟩
    rcases hexact.1 with h | h
    · cases h
    · rw [ha, hb] at h
      cases h

theorem Op.defined_of_narrowable {a b : ℤ} (hdef : op.defined 64 b = true)
    (h : op.Narrowable a b) : op.defined 32 b = true := by
  simp only [Op.defined, Bool.and_eq_true, Bool.or_eq_true, Bool.not_eq_true',
    decide_eq_true_eq] at hdef ⊢
  refine ⟨hdef.1, ?_⟩
  by_cases hs : op.isShift = true
  · have h32 := h.1 hs
    rcases hdef.2 with h' | h'
    · exact Or.inl h'
    · exact Or.inr ⟨h'.1, by exact_mod_cast h32⟩
  · exact Or.inl (by simpa using hs)

/-- A narrow result is the exact one, and not that of the least value by `-1`. -/
theorem Op.exact32_of_narrowable {a b : ℤ} (ha : -2 ^ 31 ≤ a ∧ a < 2 ^ 31)
    (hb : -2 ^ 31 ≤ b ∧ b < 2 ^ 31) (hdef : op.defined 32 b = true) (h : op.Narrowable a b)
    (hres : -2 ^ 31 ≤ wrapSigned 64 (op.apply a b) ∧ wrapSigned 64 (op.apply a b) < 2 ^ 31) :
    op.exact32 a b = true := by
  have hbounds := Op.apply_bounds ha hb hdef
  rw [wrapSigned_of_bounds (by decide) hbounds.1 hbounds.2] at hres
  simp only [Op.exact32, Bool.and_eq_true, Bool.or_eq_true, Bool.not_eq_true',
    decide_eq_true_eq]
  refine ⟨?_, hres⟩
  by_cases hmin : a = -2 ^ 31 ∧ b = -1
  · left
    obtain ⟨rfl, rfl⟩ := hmin
    cases op with
    | floorMod => exact absurd ⟨rfl, rfl⟩ (h.2 rfl)
    | floorDiv => exact absurd hres (by decide)
    | _ => rfl
  · exact Or.inr (by simpa using hmin)

/-- Where the 64-bit operation is defined, the narrowed node has its value exactly when the
    shift amount is below 32 and the operation is not the remainder of the least 32-bit
    value by `-1`. -/
theorem narrow_eval_iff (hsx : x.Sound (env x)) (hsy : y.Sound (env y))
    (h : narrow op x y = some n) (hv : (original op x y).eval env = some v) :
    n.eval env = some v ↔ op.Narrowable (env x) (env y) := by
  rw [eval_original_eq] at hv
  rw [eval_narrow hsx hsy h]
  obtain ⟨-, hx, hy, hres⟩ : x.dtype = .int64 ∧ fitsI32 x.range = true ∧ fitsI32 y.range = true ∧
      fitsI32 (resultRange op x y) = true := by
    simp only [narrow] at h
    split at h
    · assumption
    · cases h
  split at hv
  · next hdef64 =>
    obtain rfl := Option.some.inj hv
    obtain ⟨xlo, xhi, -, hxlo, hxhi, hvx, hvx'⟩ := hsx.fits hx
    obtain ⟨ylo, yhi, -, hylo, hyhi, hvy, hvy'⟩ := hsy.fits hy
    have ha : -2 ^ 31 ≤ env x ∧ env x < 2 ^ 31 := by omega
    have hb : -2 ^ 31 ≤ env y ∧ env y < 2 ^ 31 := by omega
    constructor
    · intro heq
      split at heq
      · next hd =>
        obtain ⟨hd1, hd2⟩ := (Bool.and_eq_true _ _).mp hd
        exact Op.narrowable_of_defined hd1 hd2
      · cases heq
    · intro hn
      have hdef := Op.defined_of_narrowable hdef64 hn
      have hexact := Op.exact32_of_narrowable ha hb hdef hn (result_inRange hsx hsy hx hy hres)
      have hbounds := Op.apply_bounds ha hb hdef
      rw [if_pos (by rw [hdef, hexact]; rfl), wrapSigned_of_bounds (by decide) hbounds.1 hbounds.2]
  · cases hv

/-- A constant, as an operand. -/
def constOperand (id : ℕ) (c : ℤ) : Operand := ⟨id, .int64, some (.int c, .int c)⟩

theorem constOperand_sound (id : ℕ) (c : ℤ) : (constOperand id c).Sound c := by
  rintro b hb
  cases hb
  exact ⟨c, c, rfl, rfl, le_refl c, le_refl c⟩

/-- Each constant has its own value. -/
def constValues : Assignment := fun x =>
  match x.range with
  | some (.int c, _) => c
  | _ => 0

/-- `6 * 7`. -/
theorem narrow_eval_iff_mul :
    ∃ n, narrow .mul (constOperand 0 6) (constOperand 1 7) = some n ∧
      (n.eval constValues = some 42 ↔ Op.mul.Narrowable 6 7) :=
  ⟨_, rfl, @narrow_eval_iff .mul (constOperand 0 6) (constOperand 1 7) _ constValues 42
    (constOperand_sound 0 6) (constOperand_sound 1 7) rfl rfl⟩

/-- `5 >> 40` is zero in 64 bits, and undefined in 32 bits. -/
theorem narrow_eval_fails :
    ¬ ∀ (op : Op) (x y : Operand) (env : Assignment) (n : Node) (v : ℤ),
      x.Sound (env x) → y.Sound (env y) → narrow op x y = some n →
        (original op x y).eval env = some v → n.eval env = some v := by
  intro h
  have hv := h .shr (constOperand 0 5) (constOperand 1 40) constValues _ 0
    (constOperand_sound 0 5) (constOperand_sound 1 40) rfl rfl
  exact absurd hv (by decide)

end Svod.Symbolic.Narrowing
