/-
  Svod.Ir.RangeEval

  The sound interval analysis (`ir/src/uop/range_eval.rs`) on integer and
  boolean expressions.

  `UOp` holds the operations the analysis gives an interval to.  Arithmetic on
  interval ends is done in `i128` and committed to the node's dtype; a result
  that does not fit gives the bounds of the dtype.  The branches for floating
  dtypes and for operations outside this fragment are left out.
-/

import Svod.Ir.ConstValue

namespace Svod.Ir

open Svod.Lib

/-- Expressions.  A node carries its dtype; `stack` has `n` sources. -/
inductive UOp where
  | const (value : ConstValue) (dtype : DType)
  | vconst (values : List ConstValue) (dtype : DType)
  | defineVar (name : String) (minVal maxVal : ℤ) (dtype : DType)
  | param (slot : ℕ) (vminVmax : Option (ConstValue × ConstValue))
      (addrspace : Option AddrSpace) (dtype : DType)
  | range (stop : UOp) (axisId : ℕ) (dtype : DType)
  | special (stop : UOp) (name : String) (dtype : DType)
  | bind (var value : UOp) (dtype : DType)
  | stack (n : ℕ) (sources : Fin n → UOp) (dtype : DType)
  | unary (op : UnaryOp) (src : UOp) (dtype : DType)
  | binary (op : BinaryOp) (a b : UOp) (dtype : DType)
  | where_ (cond t f : UOp) (dtype : DType)
  | cast (src : UOp) (dtype : DType)

namespace UOp

def dtype : UOp → DType
  | const _ d | vconst _ d | defineVar _ _ _ d | param _ _ _ d | range _ _ d | special _ _ d
  | bind _ _ d | stack _ _ d | unary _ _ d | binary _ _ _ d | where_ _ _ _ d | cast _ d => d

/-- `Arc::ptr_eq`: nodes are hash-consed, so one pointer is one expression. -/
def same : UOp → UOp → Bool
  | const v d, const v' d' => v = v' ∧ d = d'
  | vconst vs d, vconst vs' d' => vs = vs' ∧ d = d'
  | defineVar n mn mx d, defineVar n' mn' mx' d' => n = n' ∧ mn = mn' ∧ mx = mx' ∧ d = d'
  | param s b as d, param s' b' as' d' => s = s' ∧ b = b' ∧ as = as' ∧ d = d'
  | range e i d, range e' i' d' => e.same e' ∧ i = i' ∧ d = d'
  | special e n d, special e' n' d' => e.same e' ∧ n = n' ∧ d = d'
  | bind x v d, bind x' v' d' => x.same x' ∧ v.same v' ∧ d = d'
  | stack n s d, stack n' s' d' =>
    if h : n = n' then (∀ i : Fin n, (s i).same (s' (i.cast h)) = true) ∧ d = d' else false
  | unary o x d, unary o' x' d' => o = o' ∧ x.same x' ∧ d = d'
  | binary o x y d, binary o' x' y' d' => o = o' ∧ x.same x' ∧ y.same y' ∧ d = d'
  | where_ c t f d, where_ c' t' f' d' => c.same c' ∧ t.same t' ∧ f.same f' ∧ d = d'
  | cast x d, cast x' d' => x.same x' ∧ d = d'
  | _, _ => false

end UOp

namespace RangeEval

open ConstValue

abbrev Bounds := ConstValue × ConstValue

/-! ## Constants in order -/

/-- `compare_const_values`.  Values of different kinds compare as equal. -/
def compareConstValues : ConstValue → ConstValue → Ordering
  | .int x, .int y => compare x y
  | .uint x, .uint y => compare x y
  | .bool x, .bool y => compare x.toNat y.toNat
  | _, _ => .eq

def minValue (a b : ConstValue) : ConstValue :=
  if compareConstValues a b = .lt then a else b

def maxValue (a b : ConstValue) : ConstValue :=
  if compareConstValues a b = .gt then a else b

/-- `range_union`, of a non-empty list. -/
def rangeUnion (first : ConstValue) (rest : List ConstValue) : Bounds :=
  (rest.foldl minValue first, rest.foldl maxValue first)

def orderedValue (value : ConstValue) : Bool := value != .invalid

def orderedRange (mn mx : ConstValue) : Bool :=
  orderedValue mn && orderedValue mx && compareConstValues mn mx != .gt

/-- `contains_zero`.  A pair of booleans is not recognised. -/
def containsZero : ConstValue → ConstValue → Bool
  | .int mn, .int mx => mn ≤ 0 && 0 ≤ mx
  | .uint mn, _ => mn = 0
  | _, _ => false

def dtypeBounds (s : ScalarDType) : Bounds := (ConstValue.min s, ConstValue.max s)

def integerDtypeBounds (s : ScalarDType) : Option (ℤ × ℤ) := do
  let mn ← (ConstValue.min s).integerValue
  let mx ← (ConstValue.max s).integerValue
  some (mn, mx)

def boolBounds : Bounds := (.bool false, .bool true)

/-! ## Commitment to a dtype -/

/-- `make_value`: the conversion to `u64` or `i64`, then the cast. -/
def makeValue (s : ScalarDType) (value : ℤ) : Option ConstValue :=
  if s.isUnsigned then
    if 0 ≤ value ∧ value < 2 ^ 64 then ConstValue.cast (.uint value) s else none
  else
    if -2 ^ 63 ≤ value ∧ value < 2 ^ 63 then ConstValue.cast (.int value) s else none

/-- `commit_integer_math_range`. -/
def commitIntegerMathRange (mn mx : ℤ) (s : ScalarDType) : Option Bounds := do
  let (dtypeMin, dtypeMax) ← integerDtypeBounds s
  if mn > mx ∨ mn < dtypeMin ∨ mx > dtypeMax then none
  else do
    let lo ← makeValue s mn
    let hi ← makeValue s mx
    some (lo, hi)

/-- `cast_integer_or_bool_range`. -/
def castIntegerOrBoolRange (mn mx : ConstValue) (target : DType) : Option Bounds :=
  if target.isBool then
    if mn = mx then do
      let value ← mn.cast .bool
      some (value, value)
    else some (if containsZero mn mx then boolBounds else (.bool true, .bool true))
  else do
    let lo ← mn.integerValue
    let hi ← mx.integerValue
    let (targetMin, targetMax) ← integerDtypeBounds target.base
    if lo < targetMin ∨ hi > targetMax then some (dtypeBounds target.base)
    else commitIntegerMathRange lo hi target.base

/-- `normalize_declared_integer_bounds`. -/
def normalizeDeclaredIntegerBounds (mn mx : ConstValue) (dtype : DType) : Option Bounds :=
  if dtype.isBool then castIntegerOrBoolRange mn mx dtype
  else do
    let lo ← mn.integerValue
    let hi ← mx.integerValue
    let (dtypeMin, dtypeMax) ← integerDtypeBounds dtype.base
    commitIntegerMathRange (Max.max lo dtypeMin) (Min.min hi dtypeMax) dtype.base

/-- `normalize_declared_bounds`. -/
def normalizeDeclaredBounds (mn mx : ConstValue) (dtype : DType) : Option Bounds :=
  if dtype.base.isInt || dtype.isBool then normalizeDeclaredIntegerBounds mn mx dtype
  else some (mn, mx)

/-- `zero_to_typed_end_minus_one`. -/
def zeroToTypedEndMinusOne (endMax : ConstValue) (dtype : DType) : Option Bounds := do
  let stop ← endMax.integerValue
  let mx := stop - 1
  let (dtypeMin, dtypeMax) ← integerDtypeBounds dtype.base
  if mx < dtypeMin ∨ mx > dtypeMax then none
  else do
    let lo ← (ConstValue.zero dtype.base).cast dtype.base
    let hi ← makeValue dtype.base mx
    some (lo, hi)

/-- `cast_range`. -/
def castRange (mn mx : ConstValue) (target : DType) : Option Bounds :=
  if mn = mx then do
    let value ← mn.cast target.base
    if orderedValue value then some (value, value) else none
  else if target.isBool then
    some (if containsZero mn mx then boolBounds else (.bool true, .bool true))
  else if target.base.isInt then castIntegerOrBoolRange mn mx target
  else none

/-- `sound_cast_range`, on the bounds of the source. -/
def soundCastRange (src : Bounds) (target : DType) : Option Bounds := do
  let (mn, mx) := src
  if target.base.isInt ∧ mn ≠ mx then do
    let (targetMin, targetMax) ← integerDtypeBounds target.base
    let lo ← mn.integerValue
    let hi ← mx.integerValue
    if lo < targetMin ∨ hi > targetMax then none else castRange mn mx target
  else castRange mn mx target

/-! ## Unary operations -/

/-- `compute_unary_range`. -/
def computeUnaryRange (op : UnaryOp) (vmin vmax : ConstValue) (dtype : DType) : Bounds :=
  let full := dtypeBounds dtype.base
  match if vmin = vmax then evalUnaryOpTyped op vmin dtype.base else none with
  | some value => (value, value)
  | none =>
    if dtype.base.isInt then
      match op with
      | .neg =>
        match vmax.integerValue, vmin.integerValue with
        | some hi, some lo => (commitIntegerMathRange (-hi) (-lo) dtype.base).getD full
        | _, _ => full
      | .not =>
        match evalUnaryOpTyped op vmax dtype.base, evalUnaryOpTyped op vmin dtype.base with
        | some mn, some mx => if orderedRange mn mx then (mn, mx) else full
        | _, _ => full
    else
      ((evalUnaryOp op vmax).getD full.1, (evalUnaryOp op vmin).getD full.2)

/-! ## Binary operations -/

def checkedI128 (x : ℤ) : Option ℤ := if -2 ^ 127 ≤ x ∧ x < 2 ^ 127 then some x else none

/-- `integer_corner_range`. -/
def integerCornerRange (amin amax bmin bmax : ℤ) (eval : ℤ → ℤ → Option ℤ) :
    Option (ℤ × ℤ) := do
  let v₁ ← eval amin bmin
  let v₂ ← eval amin bmax
  let v₃ ← eval amax bmin
  let v₄ ← eval amax bmax
  some (Min.min (Min.min (Min.min v₁ v₂) v₃) v₄, Max.max (Max.max (Max.max v₁ v₂) v₃) v₄)

/-- `i128::checked_div`. -/
def checkedDivI128 (a b : ℤ) : Option ℤ := if b = 0 then none else checkedI128 (a.tdiv b)

/-- `floor_div_i128`. -/
def floorDivI128 (a b : ℤ) : Option ℤ := do
  let quotient ← checkedDivI128 a b
  let remainder := a.tmod b
  if remainder ≠ 0 ∧ decide (a < 0) ≠ decide (b < 0) then checkedI128 (quotient - 1)
  else some quotient

/-- `integer_shift_range`. -/
def integerShiftRange (op : BinaryOp) (amin amax bmin bmax : ℤ) : Option (ℤ × ℤ) :=
  integerCornerRange amin amax bmin bmax fun value shift =>
    match op with
    | .shl => checkedI128 (value * 2 ^ shift.toNat)
    | .shr => some (value / 2 ^ shift.toNat)
    | _ => none

/-- `integer_bit_width`. -/
def integerBitWidth : ScalarDType → Option ℕ
  | .int8 | .uint8 => some 8
  | .int16 | .uint16 => some 16
  | .int32 | .uint32 => some 32
  | .weakInt | .int64 | .uint64 | .index => some 64
  | _ => none

/-- The interval of `compute_typed_integer_binary_range` before commitment.  The outer `none`
    is an operation it does not handle, the inner one stands for the bounds of the dtype. -/
def integerMathRange (op : BinaryOp) (amin amax bmin bmax : ℤ) (s : ScalarDType) :
    Option (Option (ℤ × ℤ)) :=
  match op with
  | .add => some do
    let lo ← checkedI128 (amin + bmin)
    let hi ← checkedI128 (amax + bmax)
    some (lo, hi)
  | .sub => some do
    let lo ← checkedI128 (amin - bmax)
    let hi ← checkedI128 (amax - bmin)
    some (lo, hi)
  | .mul => some (integerCornerRange amin amax bmin bmax fun a b => checkedI128 (a * b))
  | .max => some (some (Max.max amin bmin, Max.max amax bmax))
  | .floorDiv =>
    some (if bmin ≤ 0 ∧ bmax ≥ 0 then none
      else integerCornerRange amin amax bmin bmax floorDivI128)
  | .cdiv =>
    some (if bmin ≤ 0 ∧ bmax ≥ 0 then none
      else integerCornerRange amin amax bmin bmax checkedDivI128)
  | .floorMod =>
    let limit := Max.max |bmin| |bmax| - 1
    some (if bmin ≤ 0 ∧ bmax ≥ 0 then none
      else if bmin > 0 then some (0, limit) else some (-limit, 0))
  | .cmod =>
    let limit := Max.max |bmin| |bmax| - 1
    some (if bmin ≤ 0 ∧ bmax ≥ 0 then none
      else if amin ≥ 0 then some (0, Min.min amax limit)
      else if amax ≤ 0 then some (Max.max amin (-limit), 0)
      else some (Max.max amin (-limit), Min.min amax limit))
  | .shl | .shr => do
    let width ← integerBitWidth s
    some (if bmin < 0 ∨ bmax ≥ width then none else integerShiftRange op amin amax bmin bmax)
  | _ => none

/-- `compute_typed_integer_binary_range`. -/
def computeTypedIntegerBinaryRange (op : BinaryOp) (a b : Bounds) (s : ScalarDType) :
    Option Bounds := do
  let amin ← a.1.integerValue
  let amax ← a.2.integerValue
  let bmin ← b.1.integerValue
  let bmax ← b.2.integerValue
  let (dtypeMin, _) ← integerDtypeBounds s
  if op.isDivision ∧ amin ≤ dtypeMin ∧ dtypeMin ≤ amax ∧ bmin ≤ -1 ∧ -1 ≤ bmax then
    -- the least value over `-1` is out of the dtype
    some (dtypeBounds s)
  else do
    let math ← integerMathRange op amin amax bmin bmax s
    some ((math.bind fun r => commitIntegerMathRange r.1 r.2 s).getD (dtypeBounds s))

/-- `eval_four_corners`. -/
def evalFourCorners (op : BinaryOp) (a b : Bounds) (s : ScalarDType) : Bounds :=
  match [(a.1, b.1), (a.1, b.2), (a.2, b.1), (a.2, b.2)].filterMap
      (fun c => evalBinaryOp op c.1 c.2) with
  | [] => dtypeBounds s
  | first :: rest => rangeUnion first rest

/-- `compute_bitwise_range`. -/
def computeBitwiseRange (op : BinaryOp) (a b : Bounds) (dtype : DType) : Bounds :=
  if dtype = .scalar .bool then evalFourCorners op a b dtype.base
  else
    match op, b with
    | .and, (.int bmin, .int bmax) =>
      if bmin = bmax ∧ bmin ≥ 0 then (.int 0, .int bmax) else dtypeBounds dtype.base
    | _, _ => dtypeBounds dtype.base

/-- `compute_shift_range`. -/
def computeShiftRange (op : BinaryOp) (a b : Bounds) (dtype : DType) : Bounds :=
  let bitWidth : Option ℤ :=
    match dtype with
    | .scalar .int8 | .scalar .uint8 => some 8
    | .scalar .int16 | .scalar .uint16 => some 16
    | .scalar .int32 | .scalar .uint32 => some 32
    | .scalar .int64 | .scalar .uint64 => some 64
    | _ => none
  match bitWidth, b with
  | some w, (.int shiftMin, .int shiftMax) =>
    if shiftMin ≥ 0 ∧ shiftMax < w then evalFourCorners op a b dtype.base
    else dtypeBounds dtype.base
  | some w, (.uint shiftMin, .uint shiftMax) =>
    if shiftMin = 0 ∧ shiftMax < w then evalFourCorners op a b dtype.base
    else dtypeBounds dtype.base
  | _, _ => dtypeBounds dtype.base

/-! ## Comparisons -/

/-- `analyze_lt`. -/
def analyzeLt (x y : Bounds) : Option Bool :=
  if compareConstValues x.2 y.1 = .lt then some true
  else if compareConstValues x.1 y.2 ≠ .lt then some false
  else none

/-- `analyze_le`. -/
def analyzeLe (x y : Bounds) : Option Bool :=
  if compareConstValues x.2 y.1 ≠ .gt then some true
  else if compareConstValues x.1 y.2 = .gt then some false
  else none

/-- `ranges_disjoint`. -/
def rangesDisjoint (x y : Bounds) : Bool :=
  compareConstValues x.2 y.1 = .lt || compareConstValues x.1 y.2 = .gt

/-- `analyze_eq`. -/
def analyzeEq (x y : Bounds) : Option Bool :=
  if rangesDisjoint x y then some false
  else if x.1 = x.2 ∧ y.1 = y.2 ∧ x.1 = y.1 then some true
  else none

/-- `analyze_with_ranges`. -/
def analyzeWithRanges (op : BinaryOp) (x y : Bounds) : Option Bool :=
  match op with
  | .lt => analyzeLt x y
  | .le => analyzeLe x y
  | .eq => analyzeEq x y
  | .ne => (analyzeEq x y).map (!·)
  | .gt => analyzeLt y x
  | .ge => analyzeLe y x
  | _ => none

/-- `get_comparison_range`. -/
def getComparisonRange (op : BinaryOp) (x y : Bounds) : Bounds :=
  match analyzeWithRanges op x y with
  | some value => (.bool value, .bool value)
  | none => boolBounds

/-- `reflexive_comparison_range`. -/
def reflexiveComparisonRange : BinaryOp → Bounds
  | .lt | .ne | .gt => (.bool false, .bool false)
  | .le | .eq | .ge => (.bool true, .bool true)
  | _ => boolBounds

def checkedI64 (x : ℤ) : Option ℤ := if -2 ^ 63 ≤ x ∧ x < 2 ^ 63 then some x else none

def checkedU64 (x : ℤ) : Option ℤ := if 0 ≤ x ∧ x < 2 ^ 64 then some x else none

/-- Both ends when neither overflows, else the bounds of the dtype. -/
def checkedRange (kind : ℤ → ConstValue) (lo hi : Option ℤ) (s : ScalarDType) : Bounds :=
  match lo, hi with
  | some lo, some hi => (kind lo, kind hi)
  | _, _ => dtypeBounds s

/-- The arms of `compute_binary_range` past the typed integer ones. -/
def computeUntypedBinaryRange (op : BinaryOp) (a b : Bounds) (dtype : DType) : Bounds :=
  let full := dtypeBounds dtype.base
  match op with
  | .add =>
    match a, b with
    | (.int amin, .int amax), (.int bmin, .int bmax) =>
      checkedRange .int (checkedI64 (amin + bmin)) (checkedI64 (amax + bmax)) dtype.base
    | (.uint amin, .uint amax), (.uint bmin, .uint bmax) =>
      checkedRange .uint (checkedU64 (amin + bmin)) (checkedU64 (amax + bmax)) dtype.base
    | _, _ => ((evalBinaryOp .add a.1 b.1).getD full.1, (evalBinaryOp .add a.2 b.2).getD full.2)
  | .sub =>
    match a, b with
    | (.int amin, .int amax), (.int bmin, .int bmax) =>
      checkedRange .int (checkedI64 (amin - bmax)) (checkedI64 (amax - bmin)) dtype.base
    | (.uint amin, .uint amax), (.uint bmin, .uint bmax) =>
      checkedRange .uint (checkedU64 (amin - bmax)) (checkedU64 (amax - bmin)) dtype.base
    | _, _ => ((evalBinaryOp .sub a.1 b.2).getD full.1, (evalBinaryOp .sub a.2 b.1).getD full.2)
  | .max => ((evalBinaryOp .max a.1 b.1).getD full.1, (evalBinaryOp .max a.2 b.2).getD full.2)
  | .mul => evalFourCorners op a b dtype.base
  | .floorDiv | .cdiv =>
    if containsZero b.1 b.2 then full else evalFourCorners op a b dtype.base
  | .floorMod =>
    match a, b with
    | (.int _, .int _), (.int bLo, .int bHi) =>
      if bLo > 0 then (.int 0, .int (bHi - 1))
      else if bHi < 0 then (.int (bLo + 1), .int 0)
      else full
    | (.uint _, .uint _), (.uint bLo, .uint bHi) =>
      if bLo > 0 then (.uint 0, .uint (bHi - 1)) else full
    | _, _ => full
  | .cmod =>
    match a, b with
    | (.int aLo, .int aHi), (.int bLo, .int bHi) =>
      if aLo ≥ 0 ∧ bLo > 0 then (.int 0, .int (Min.min aHi (bHi - 1)))
      else if aHi ≤ 0 ∧ bLo > 0 then (.int (-(bHi - 1)), .int 0)
      else if bLo > 0 then (.int (-(bHi - 1)), .int (bHi - 1))
      else full
    | (.uint _, .uint aHi), (.uint bLo, .uint bHi) =>
      if bLo > 0 then (.uint 0, .uint (Min.min aHi (bHi - 1))) else full
    | _, _ => full
  | .and | .or => computeBitwiseRange op a b dtype
  | .shl | .shr => computeShiftRange op a b dtype
  | .lt | .le | .eq | .ne | .gt | .ge => getComparisonRange op a b

/-- `compute_binary_range`. -/
def computeBinaryRange (op : BinaryOp) (a b : Bounds) (dtype : DType) : Bounds :=
  if a.1 = a.2 ∧ b.1 = b.2 ∧ !op.isComparison then
    match evalBinaryOpTyped op a.1 b.1 dtype.base with
    | some val => (val, val)
    | none => dtypeBounds dtype.base
  else
    match if dtype.base.isInt then computeTypedIntegerBinaryRange op a b dtype.base else none with
    | some range => range
    | none => computeUntypedBinaryRange op a b dtype

/-! ## Ternary operations -/

/-- `compute_ternary_range` for `WHERE`. -/
def computeWhereRange (cond t f : Bounds) : Bounds :=
  match cond with
  | (.bool true, .bool true) => t
  | (.bool false, .bool false) => f
  | _ => rangeUnion t.1 [t.2, f.1, f.2]

/-! ## The analysis -/

/-- `sound_values_range`. -/
def soundValuesRange (values : List ConstValue) : Option Bounds :=
  match values with
  | [] => none
  | first :: rest =>
    let range := rangeUnion first rest
    if orderedRange range.1 range.2 ∧ values.all orderedValue then some range else none

/-- `sound_sources_range`, on the bounds of the sources. -/
def soundSourcesRange (sources : List (Option Bounds)) : Option Bounds :=
  match sources with
  | [] => none
  | first :: rest => do
    let init ← first
    rest.foldlM (fun acc src => do
      let s ← src
      some (minValue acc.1 s.1, maxValue acc.2 s.2)) init

def ifOrdered (b : Bounds) : Option Bounds := if orderedRange b.1 b.2 then some b else none

/-- `Op::Binary` in `compute_sound_vmin_vmax`, on the bounds of the operands. -/
def soundBinaryRange (op : BinaryOp) (same : Bool) (a b : Bounds) (dtype : DType) :
    Option Bounds :=
  if a.1 = a.2 ∧ b.1 = b.2 then do
    let value ← if op.isComparison then evalBinaryOp op a.1 b.1
      else evalBinaryOpTyped op a.1 b.1 dtype.base
    if orderedValue value then some (value, value) else none
  else if op.isComparison && same then some (reflexiveComparisonRange op)
  else
    match op with
    | .and =>
      if dtype = .scalar .bool then some (computeBinaryRange op a b dtype)
      else
        match b with
        | (.int bmin, .int bmax) =>
          if dtype.isInt ∧ bmin = bmax ∧ bmin ≥ 0 then some (computeBinaryRange op a b dtype)
          else none
        | _ => none
    | .or => if dtype = .scalar .bool then some (computeBinaryRange op a b dtype) else none
    | _ => some (computeBinaryRange op a b dtype)

/-- `Op::Ternary` with `WHERE` in `compute_sound_vmin_vmax`, on the bounds of the operands. -/
def soundWhereRange (cond t f : Bounds) (dtype : DType) : Option Bounds :=
  if cond.1 = cond.2 ∧ t.1 = t.2 ∧ f.1 = f.2 then do
    let value ← evalWhereTyped cond.1 t.1 f.1 dtype.base
    if orderedValue value then some (value, value) else none
  else some (computeWhereRange cond t f)

/-- `compute_sound_vmin_vmax`. -/
def computeSoundVminVmax : UOp → Option Bounds
  | .const c _ => if orderedValue c then some (c, c) else none
  | .vconst values _ => soundValuesRange values
  | .defineVar _ minVal maxVal d =>
    (normalizeDeclaredBounds (.int minVal) (.int maxVal) d).bind ifOrdered
  | .param _ vminVmax addrspace d =>
    if addrspace = none then do
      let (mn, mx) ← vminVmax
      (normalizeDeclaredBounds mn mx d).bind ifOrdered
    else none
  | .range stop _ d | .special stop _ d => do
    let (_, endMax) ← computeSoundVminVmax stop
    (zeroToTypedEndMinusOne endMax d).bind ifOrdered
  | .bind var _ _ => computeSoundVminVmax var
  | .stack n sources _ =>
    soundSourcesRange (List.ofFn fun i : Fin n => computeSoundVminVmax (sources i))
  | .unary op src d => do
    let (mn, mx) ← computeSoundVminVmax src
    some (computeUnaryRange op mn mx d)
  | .binary op a b d => do
    let x ← computeSoundVminVmax a
    let y ← computeSoundVminVmax b
    soundBinaryRange op (a.same b) x y d
  | .where_ cond t f d => do
    let c ← computeSoundVminVmax cond
    let x ← computeSoundVminVmax t
    let y ← computeSoundVminVmax f
    soundWhereRange c x y d
  | .cast src d => do
    let b ← computeSoundVminVmax src
    soundCastRange b d

/-- A literal is its own interval, the invalid marker has none. -/
example (v : ℤ) (d : DType) : computeSoundVminVmax (.const (.int v) d) = some (.int v, .int v) ∧
    computeSoundVminVmax (.const .invalid d) = none := by
  simp only [computeSoundVminVmax]
  exact ⟨rfl, rfl⟩

end RangeEval

end Svod.Ir
