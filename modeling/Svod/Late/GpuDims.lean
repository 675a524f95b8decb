/-
  Svod.Late.GpuDims

  Fitting the dims of a launch into the three axes of a grid
  (`get_grouped_dims`, `group_dims`, `split_dims` and `find_smallest_divisor` of
  `schedule/src/gpudims.rs`), over constant dims.

  Adjacent dims are merged until they fit, and where that fails a dim gives its
  smallest factors to the next axis.  Each SPECIAL then counts one axis of the
  grid, and the dims are read off the flat index in mixed radix.  A panic is
  `none`; the rules of `symbolic()` are a parameter.
-/

import Svod.Lib.Checked
import Svod.Lib.FactorShare
import Svod.Lib.NdArray

namespace Svod.Late.GpuDims

open Svod.Lib Svod.Lib.Checked

/-! ## Dims -/

def i64Min : ℤ := -2 ^ 63

def i64Max : ℤ := 2 ^ 63 - 1

/-- A constant dim, or one that merging has multiplied up. -/
inductive Dim where
  | const (n : ℕ)
  | mul (a b : Dim)
deriving DecidableEq, Repr

def Dim.value : Dim → ℕ
  | .const n => n
  | .mul a b => a.value * b.value

/-- `integer_corner_range` of a product.  The factors are 64-bit values, so no product leaves
    the 128 bits it is taken in. -/
def mulCorners (a b : ℤ × ℤ) : ℤ × ℤ :=
  (min (min (a.1 * b.1) (a.1 * b.2)) (min (a.2 * b.1) (a.2 * b.2)),
    max (max (a.1 * b.1) (a.1 * b.2)) (max (a.2 * b.1) (a.2 * b.2)))

/-- `(vmin, vmax)`: a product that leaves the dtype has its bounds. -/
def Dim.range : Dim → ℤ × ℤ
  | .const n => (n, n)
  | .mul a b =>
    let corners := mulCorners a.range b.range
    if i64Min ≤ corners.1 ∧ corners.2 ≤ i64Max then corners else (i64Min, i64Max)

def dimMax (d : Dim) : ℕ := d.range.2.toNat

def saturatingMul (a b : ℕ) : ℕ := min (a * b) (wordSize - 1)

/-! ## Grouping -/

/-- One pass of the `for`: the first axis that takes its neighbour in within its limit. -/
def mergeFirst : List ℕ → List Dim → Option (List Dim)
  | m :: maxSizes, a :: b :: rest =>
    if saturatingMul (dimMax a) (dimMax b) ≤ m then some (.mul a b :: rest)
    else (mergeFirst maxSizes (b :: rest)).map (a :: ·)
  | _, _ => none

/-- Some dim exceeds the limit of its axis. -/
def exceeds (dims : List Dim) (maxSizes : List ℕ) : Bool :=
  (dims.zip maxSizes).any fun e => decide (e.2 < dimMax e.1)

theorem length_mergeFirst {maxSizes : List ℕ} {result merged : List Dim}
    (h : mergeFirst maxSizes result = some merged) : merged.length + 1 = result.length := by
  induction maxSizes, result using mergeFirst.induct generalizing merged with
  | case1 m maxSizes a b rest hle =>
    rw [mergeFirst, if_pos hle] at h
    cases h
    simp
  | case2 m maxSizes a b rest hle ih =>
    rw [mergeFirst, if_neg hle] at h
    obtain ⟨tail, htail, rfl⟩ := Option.map_eq_some_iff.mp h
    simpa using ih htail
  | case3 maxSizes result hne =>
    rw [mergeFirst] at h
    · cases h
    · exact hne

def groupDims (maxSizes : List ℕ) (result : List Dim) : Option (List Dim) :=
  if maxSizes.length < result.length ∨ exceeds result maxSizes = true then
    match _h : mergeFirst maxSizes result with
    | some merged => groupDims maxSizes merged
    | none => none
  else some result
termination_by result.length
decreasing_by
  have := length_mergeFirst _h
  omega

/-! ## Splitting -/

/-- `(n as f64).sqrt().ceil()`.  In double precision the root may come out one above; the search
    below answers the same for every bound from the root on (`findDivisor_eq`). -/
def ceilSqrt (n : ℕ) : ℕ := if n.sqrt * n.sqrt = n then n.sqrt else n.sqrt + 1

/-- The first divisor among `2 ..= bound`. -/
def findDivisor (bound n : ℕ) : ℕ :=
  ((List.range' 2 (bound - 1)).find? fun d => decide (d ∣ n)).getD 1

def findSmallestDivisor (n : ℕ) : ℕ := if n ≤ 1 then 1 else findDivisor (ceilSqrt n) n

theorem two_le_findSmallestDivisor {n : ℕ} (h : findSmallestDivisor n ≠ 1) :
    2 ≤ findSmallestDivisor n := by
  rw [findSmallestDivisor] at h ⊢
  split at h
  · exact absurd rfl h
  · rename_i hn
    rw [if_neg hn]
    rw [findDivisor] at h ⊢
    cases hd : (List.range' 2 (ceilSqrt n - 1)).find? fun d => decide (d ∣ n) with
    | none => rw [hd] at h; exact absurd rfl h
    | some d => simpa using (List.mem_range'_1.mp (List.mem_of_find?_eq_some hd)).1

/-- The `while` over one axis: its value and that of the axis that takes the factors. -/
def splitAxis (m next val : ℕ) : Option (ℕ × ℕ) :=
  if _hexceeds : m < val then
    let div := findSmallestDivisor val
    if _hdiv : div = 1 then none
    else
      match checkedMul next div with
      | some nextVal =>
        if (nextVal : ℤ) ≤ i64Max then splitAxis m nextVal (val / div) else none
      | none => none
  else some (val, next)
termination_by val
decreasing_by exact Nat.div_lt_self (by omega) (two_le_findSmallestDivisor _hdiv)

/-- The trailing axes of extent one are dropped. -/
def dropUnits (working : List ℕ) : List ℕ :=
  if working.getD 2 0 = 1 then
    if working.getD 1 0 = 1 then working.take 1 else working.take 2
  else working

inductive IndexExpr where
  | const (n : ℤ)
  | dim (d : Dim)
  /-- The index of grid axis `axis`, named by the name prefix and the number. -/
  | special (stop : Dim) (name : String) (axis : ℕ)
  | add (a b : IndexExpr)
  | mul (a b : IndexExpr)
  | floorDiv (a b : IndexExpr)
  | floorMod (a b : IndexExpr)
deriving DecidableEq, Repr

def product (values : List Dim) : Dim :=
  match values with
  | [] => .const 1
  | d :: rest => rest.foldl .mul d

/-- The value where axis `k` of the grid has index `grid[k]`. -/
def IndexExpr.eval (grid : List ℕ) : IndexExpr → ℤ
  | .const n => n
  | .dim d => d.value
  | .special _ _ axis => grid.getD axis 0
  | .add a b => a.eval grid + b.eval grid
  | .mul a b => a.eval grid * b.eval grid
  | .floorDiv a b => (a.eval grid).fdiv (b.eval grid)
  | .floorMod a b => (a.eval grid).fmod (b.eval grid)

/-- Every SPECIAL of the expression is read below its extent. -/
def IndexExpr.InRange (grid : List ℕ) : IndexExpr → Prop
  | .const _ => True
  | .dim _ => True
  | .special stop _ axis => grid.getD axis 0 < stop.value
  | .add a b => a.InRange grid ∧ b.InRange grid
  | .mul a b => a.InRange grid ∧ b.InRange grid
  | .floorDiv a b => a.InRange grid ∧ b.InRange grid
  | .floorMod a b => a.InRange grid ∧ b.InRange grid

/-- The grid indices, and the dim indices as the expressions give them. -/
def grid (extents : List ℕ) : Set (List ℕ) := { c | InBounds c extents }

/-- Extents are measured as what they are: none are merged in the end, no limit lies beyond the
    dtype of the dims, or the dims multiply up to a value of it. -/
def Measured (max dims : List ℕ) : Prop :=
  (∀ merged, groupDims max (dims.map .const) = some merged → merged = dims.map .const) ∨
    (∀ m ∈ max, (m : ℤ) ≤ i64Max) ∨ ((dims.prod : ℕ) : ℤ) ≤ i64Max

end Svod.Late.GpuDims
