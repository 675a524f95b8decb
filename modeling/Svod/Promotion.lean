/-
  Svod.Promotion

  Promotion of element types (`least_upper_dtype` in `dtype/src/cast.rs`).
-/

import Svod.DType

namespace Svod

namespace ScalarDType

def isWeak : ScalarDType → Bool
  | .weakInt | .weakFloat => true
  | _ => false

/-- `promotion_lattice`. -/
def promotionLattice : ScalarDType → List ScalarDType
  | .bool => [.weakInt]
  | .weakInt => [.int8, .uint8]
  | .int8 => [.int16]
  | .int16 => [.int32]
  | .int32 => [.int64]
  | .int64 => [.weakFloat]
  | .uint8 => [.int16, .uint16]
  | .uint16 => [.int32, .uint32]
  | .uint32 => [.int64, .uint64]
  | .uint64 => [.weakFloat]
  | .weakFloat => [.fp8e4m3, .fp8e4m3fnuz, .fp8e5m2, .fp8e5m2fnuz]
  | .fp8e5m2 | .fp8e4m3 | .fp8e4m3fnuz | .fp8e5m2fnuz => [.float16, .bfloat16]
  | .float16 | .bfloat16 => [.float32]
  | .float32 => [.float64]
  | .float64 | .void | .index => []

/-- The scalar types in the order of `promotion_rank`. -/
def byPromotionRank : List ScalarDType :=
  [.bool, .weakInt, .int8, .uint8, .int16, .uint16, .int32, .uint32, .int64, .uint64, .weakFloat,
    .fp8e4m3, .fp8e4m3fnuz, .fp8e5m2, .fp8e5m2fnuz, .float16, .bfloat16, .float32, .float64,
    .void, .index]

/-- `u` is reached from `s` by at most `fuel` steps up the lattice. -/
def reaches : Nat → ScalarDType → ScalarDType → Bool
  | 0, s, u => s == u
  | fuel + 1, s, u => s == u || s.promotionLattice.any fun parent => reaches fuel parent u

/-- Membership in `get_recursive_parents`; the longest chain of the lattice has ten steps. -/
def isRecursiveParent (s u : ScalarDType) : Bool := reaches 10 s u

/-- The common recursive parent of least rank. -/
def leastUpper (s s' : ScalarDType) : Option ScalarDType :=
  byPromotionRank.find? fun u => s.isRecursiveParent u && s'.isRecursiveParent u

theorem leastUpper_self (s : ScalarDType) : s.leastUpper s = some s := by
  cases s <;> decide

/-- A symbolic dimension has dtype `Index` or a signed or weak integer dtype. -/
def isDim (s : ScalarDType) : Bool := s.isSigned || s == .weakInt || s == .index

/-- The dtypes of dimensions are closed under promotion. -/
theorem leastUpper_isDim {s s' u : ScalarDType} (hs : s.isDim = true) (hs' : s'.isDim = true)
    (h : s.leastUpper s' = some u) :
    u.isDim = true ∧ u.leastUpper s' = some u ∧ s.leastUpper u = some u := by
  cases s <;> first
    | exact absurd hs (by decide)
    | (cases s' <;> first
        | exact absurd hs' (by decide)
        | (obtain rfl := Option.some.inj (show some _ = some u from h); decide)
        | exact absurd (show none = some u from h) nofun)

end ScalarDType

namespace DType

/-- `least_upper_dtype`, of two dtypes. -/
def leastUpper : DType → DType → Option DType
  | .image kind shape, _ => some (.image kind shape)
  | _, .image kind shape => some (.image kind shape)
  | .vector s n, .vector s' m => if n = m then (s.leastUpper s').map (.vector · n) else none
  | .vector _ _, _ => none
  | _, .vector _ _ => none
  | .ptr b as size n, .ptr b' as' size' n' =>
    if DType.ptr b as size n = .ptr b' as' size' n' then some (.ptr b as size n)
    else (b.base.leastUpper b'.base).map .scalar
  | .ptr b _ _ _, .scalar s => (b.base.leastUpper s).map .scalar
  | .scalar s, .ptr b _ _ _ => (s.leastUpper b.base).map .scalar
  | .scalar s, .scalar s' => (s.leastUpper s').map .scalar

@[simp] theorem leastUpper_scalar (s s' : ScalarDType) :
    (DType.scalar s).leastUpper (.scalar s') = (s.leastUpper s').map .scalar := rfl

def isWeak (d : DType) : Bool := d.base.isWeak

end DType

end Svod
