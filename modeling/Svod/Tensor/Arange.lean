/-
  Svod.Tensor.Arange

  Constant tensors, running sums and counters (`tensor/src/lib.rs`), and the
  counter an index is compared with (`index_arange` of
  `tensor/src/indexing.rs`).

  The length of a counter goes through `i64` and `f64`, and a running sum takes
  a window for each element, so that both end at `2 ^ 31` elements.
-/

import Svod.Tensor.PoolSound
import Svod.Tensor.Reduce

namespace Svod.Tensor.Nd

open Svod.Lib Svod.Ir

variable {α : Type}

/-! ## Operations -/

/-- `Tensor::full`. -/
def full (shape : List ℕ) (value : α) : NdArray α := ⟨shape, fun _ => value⟩

/-- `cumsum`: `_cumalu` with `CumReduceOp::Add`. -/
def cumsum [Add α] [Zero α] (t : NdArray α) (axis : ℤ) : Except ErrorKind (NdArray α) := do
  let ndim := t.shape.length
  let axisIdx ← normalizeAxis axis ndim
  let n := t.shape.getD axisIdx 0
  if n ≤ 1 then return t
  -- transpose target axis to last
  let x ← if axisIdx ≠ ndim - 1 then tryTranspose t axisIdx (-1) else pure t
  -- pad left with (n-1) identity elements
  let x ← tryPad x ((List.replicate ndim ((0 : ℤ), (0 : ℤ))).set (ndim - 1) ((n - 1 : ℕ), 0))
  let x ← pool x [n] [1] [1]
  let x ← sum x (.single (-1))
  -- transpose back
  if axisIdx ≠ ndim - 1 then tryTranspose x axisIdx (-1) else return x

/-- `as f64`, for an integer: the nearest of 53 significant bits, ties to even. -/
def f64OfInt (x : ℤ) : ℤ :=
  let ulp : ℤ := ((2 ^ (x.natAbs.log2 - 52) : ℕ) : ℤ)
  let low := x / ulp
  let rest := x % ulp
  if 2 * rest < ulp ∨ 2 * rest = ulp ∧ low % 2 = 0 then low * ulp else (low + 1) * ulp

/-- The number of steps of `1` in a distance, saturated as `f64 as i64` does. -/
def arangeCount (diff : ℤ) : ℕ := (min (f64OfInt diff) (2 ^ 63 - 1)).toNat

/-- `arange_with_dtype`, of constants of a signed type, with the default step. -/
def arangeWithDtype (dtype : IntType) (start stop : ℤ) :
    Except ErrorKind (NdArray (TypedInt dtype)) := do
  let start : TypedInt dtype := .ofInt start
  let stop : TypedInt dtype := .ofInt stop
  let ceildiv := arangeCount (stop.val - start.val)
  if ceildiv = 0 then return zeros [0]
  let cumsum ← cumsum (full [ceildiv] (1 : TypedInt dtype)) 0
  tryAdd cumsum (const (start - 1))

theorem sixtyFour_pos : 0 < 64 := by decide

theorem thirtyTwo_pos : 0 < 32 := by decide

/-- `DType::Int64`. -/
def int64 : IntType := ⟨true, 64, sixtyFour_pos⟩

/-- `DType::Int32`. -/
def int32 : IntType := ⟨true, 32, thirtyTwo_pos⟩

/-- `arange`. -/
def arange (start stop : ℤ) : Except ErrorKind (NdArray (TypedInt int32)) :=
  arangeWithDtype int32 start stop

/-- `index_arange`: its values, of the index's type when that holds every position. -/
def indexArange (n : ℕ) (dtype : IntType) : Except ErrorKind (NdArray ℤ) := do
  let arange ← arangeWithDtype int64 0 n
  if ((n - 1 : ℕ) : ℤ) ≤ dtype.max then return cast (fun x => dtype.wrap x.val) arange
  else return cast (·.val) arange

/-! ## Extents -/

/-- Integers of 53 bits are represented. -/
theorem f64OfInt_of_lt {x : ℤ} (h : x.natAbs < 2 ^ 53) : f64OfInt x = x := by
  have hulp : x.natAbs.log2 - 52 = 0 := by
    by_cases hx : x.natAbs = 0
    · rw [hx]
      decide
    · have := (Nat.log2_lt hx).mpr h
      omega
  unfold f64OfInt
  rw [hulp]
  simp

theorem int64_contains {x : ℤ} (h : -2 ^ 63 ≤ x ∧ x < 2 ^ 63) : int64.Contains x := by
  constructor <;> simp [int64, IntType.min, IntType.max] <;> omega

theorem int64_wrap {n : ℕ} (h : n < 2 ^ 63) : int64.wrap n = n :=
  IntType.wrap_of_contains (int64_contains (by omega))

/-- The length of a counter over an extent that a running sum takes. -/
theorem arangeCount_of_lt {n : ℕ} (h : n < 2 ^ 31) : arangeCount n = n := by
  unfold arangeCount
  rw [f64OfInt_of_lt (by omega), min_eq_left (by omega)]
  omega

/-- Rounding keeps what is at least `2 ^ 31` there. -/
theorem arangeCount_ge {x : ℤ} (h : 2 ^ 31 ≤ x) : 2 ^ 31 ≤ arangeCount x := by
  have hround : 2 ^ 31 ≤ f64OfInt x := by
    by_cases hsmall : x.natAbs < 2 ^ 53
    · rw [f64OfInt_of_lt hsmall]
      exact h
    · -- rounding loses less than a unit of the last bit
      have hlog : 2 ^ x.natAbs.log2 ≤ x.natAbs := (Nat.le_log2 (by omega)).mp (le_refl _)
      have hlog52 : 53 ≤ x.natAbs.log2 := (Nat.le_log2 (by omega)).mpr (by omega)
      have hulp : 2 ^ 52 * 2 ^ (x.natAbs.log2 - 52) ≤ x.natAbs := by
        rw [← pow_add, show 52 + (x.natAbs.log2 - 52) = x.natAbs.log2 by omega]
        exact hlog
      have hpos : (0 : ℤ) < ((2 ^ (x.natAbs.log2 - 52) : ℕ) : ℤ) := by positivity
      have hdm := Int.mul_ediv_add_emod x ((2 ^ (x.natAbs.log2 - 52) : ℕ) : ℤ)
      have hlt := Int.emod_lt_of_pos x hpos
      unfold f64OfInt
      generalize 2 ^ (x.natAbs.log2 - 52) = ulp at *
      rw [mul_comm] at hdm
      simp only
      split_ifs
      · omega
      · rw [add_mul, one_mul]
        omega
  unfold arangeCount
  omega

/-! ## Running sums -/

/-- One axis, padded for a running sum of `n` elements. -/
def sumAxis (n : ℕ) : PoolAxis := ⟨n - 1 + n, n, 1, 1⟩

theorem readable_singleton {d : ℕ} : Readable [d] ↔ d < 2 ^ 63 := by
  simp only [Readable, List.inits, List.map_cons, List.map_nil, List.mem_cons, List.not_mem_nil,
    or_false, forall_eq, forall_eq_or_imp, List.prod_nil, List.prod_singleton]
  omega

/-- The pool of a running sum repeats its input `n + 1` times. -/
theorem sumAxis_repeated {n : ℕ} (hn : 2 ≤ n) :
    (sumAxis n).repeated = (n + 1) * (2 * n - 1) := by
  obtain ⟨k, rfl⟩ := Nat.exists_eq_add_of_le' hn
  have hi : k + 2 - 1 + (k + 2) = 2 * k + 3 := by omega
  have ho : (sumAxis (k + 2)).o = k + 2 := by
    simp only [sumAxis, PoolAxis.o, ceildiv]
    omega
  have hf : (sumAxis (k + 2)).f = 1 := by
    have hdiv : (k + 1 + (2 * k + 3) - 1) / (2 * k + 3) = 1 :=
      Nat.div_eq_of_lt_le (by omega) (by omega)
    have hmax : max ((k + 2) * 1) 1 - 1 = k + 1 := by omega
    rw [PoolAxis.f, ho]
    simp only [sumAxis, hi, hmax, ceildiv, hdiv, max_self]
  have hrow : (sumAxis (k + 2)).row = 2 * k + 4 := by
    rw [PoolAxis.row, hf]
    simp only [sumAxis]
    omega
  rw [PoolAxis.repeated, hrow]
  simp only [sumAxis, hi, ceildiv]
  have hdiv : ((k + 2) * (2 * k + 4) + (2 * k + 3) - 1) / (2 * k + 3) = k + 3 := by
    refine Nat.div_eq_of_lt_le ?_ ?_
    · ring_nf
      omega
    · ring_nf
      omega
  rw [hdiv]
  congr 1

/-- It is read back for fewer than `2 ^ 31` elements. -/
theorem sumAxis_readable_iff {n : ℕ} (hn : 2 ≤ n) :
    Readable [(sumAxis n).repeated] ↔ n < 2 ^ 31 := by
  rw [readable_singleton, sumAxis_repeated hn]
  constructor
  · intro h
    by_contra hge
    have hmul : (2 ^ 31 + 1) * (2 ^ 32 - 1) ≤ (n + 1) * (2 * n - 1) :=
      Nat.mul_le_mul (by omega) (by omega)
    omega
  · intro h
    have hmul : (n + 1) * (2 * n - 1) ≤ 2 ^ 31 * (2 ^ 32 - 3) := Nat.mul_le_mul (by omega) (by omega)
    omega

section PoolUnit

variable {t : NdArray α} {n : ℕ}

theorem sumAxis_valid (hn : 0 < n) : ∀ x ∈ [sumAxis n], x.Valid := fun x hx =>
  List.mem_singleton.mp hx ▸ ⟨hn, le_refl 1, show 1 * (n - 1) < n - 1 + n by omega⟩

/-- The pool of one axis with unit stride and dilation. -/
theorem pool_unit_eq (h : t.shape = [n - 1 + n]) (hn : 0 < n) :
    pool t [n] [1] [1] = poolSteps t [] [sumAxis n] := by
  have haxes : poolAxes [n - 1 + n] [n] [1] [1] = [sumAxis n] := rfl
  have hchecks : [sumAxis n].forM (fun a => do
      let kernel := a.kernel
      let dilated := a.dilation * (a.kernel - 1) + 1
      let i := a.i
      ensure a.Fits (ErrorKind.irConstruction
        s!"kernel size {kernel} (dilated {dilated}) > input size {i}")) = .ok () :=
    forM_ok fun x hx => ensure_of_true (sumAxis_valid hn x hx).fits _
  unfold pool
  simp only [h, List.length_cons, List.length_nil, ensure_of_true (le_refl (0 + 1)),
    ensure_of_true trivial, haxes]
  rw [bind_ok rfl, bind_ok rfl, bind_ok rfl, bind_ok hchecks]
  rfl

theorem pool_unit {f : List ℕ → α} (h : t.Holds [n - 1 + n] f) (hn : 2 ≤ n) (hlt : n < 2 ^ 31) :
    Returns (pool t [n] [1] [1]) [n, n] fun c => f [c.headD 0 + c.tail.headD 0] := by
  have ho : (sumAxis n).o = n := by
    simp only [sumAxis, PoolAxis.o, ceildiv]
    omega
  obtain ⟨u, hu, hushape, huget⟩ :=
    poolSteps_ok t (show t.shape = [] ++ [sumAxis n].map (·.i) from h.shape_eq)
      (sumAxis_valid (by omega)) ((sumAxis_readable_iff hn).mpr hlt) (by simp)
  rw [pool_unit_eq h.shape_eq (by omega)]
  have hk : (sumAxis n).kernel = n := rfl
  refine ⟨u, hu, by simpa [ho, hk] using hushape, fun c hc => ?_⟩
  obtain ⟨o, c, rfl, hco, hc⟩ := inBounds_cons hc
  obtain ⟨k, c, rfl, hck, hc⟩ := inBounds_cons hc
  obtain rfl := inBounds_nil hc
  have hget := huget [] [⟨sumAxis n, o, k⟩] .nil rfl (by
    intro e he
    obtain rfl := List.mem_singleton.mp he
    exact ⟨ho.symm ▸ hco, hck⟩)
  simp only [List.nil_append, List.map_cons, List.map_nil, List.cons_append] at hget
  rw [hget, h.get_eq]
  · simp [sumAxis]
  · have hlt : o + k < n - 1 + n := by omega
    exact .cons (by simpa [sumAxis] using hlt) .nil

end PoolUnit

/-- The window of `n` elements that ends at `k`, zeros before the first. -/
theorem sum_window [AddMonoid α] (g : ℕ → α) {n k : ℕ} (hk : k < n) :
    ((List.range n).map fun x => if n - 1 ≤ k + x then g (k + x - (n - 1)) else 0).sum =
      ((List.range (k + 1)).map g).sum := by
  have hsplit : List.range n = List.range (n - 1 - k) ++ (List.range (k + 1)).map (n - 1 - k + ·) := by
    rw [← List.range_add, show n - 1 - k + (k + 1) = n by omega]
  have hzero : ((List.range (n - 1 - k)).map fun x =>
      if n - 1 ≤ k + x then g (k + x - (n - 1)) else 0).sum = 0 := by
    refine List.sum_eq_zero fun y hy => ?_
    obtain ⟨x, hx, rfl⟩ := List.mem_map.mp hy
    rw [if_neg (by have := List.mem_range.mp hx; omega)]
  rw [hsplit, List.map_append, List.sum_append, hzero, zero_add, List.map_map]
  refine congrArg List.sum (List.map_congr_left fun x _ => ?_)
  simp only [Function.comp_apply]
  rw [if_pos (by omega), show k + (n - 1 - k + x) - (n - 1) = x by omega]

section Cumsum

variable [AddMonoid α] {t : NdArray α} {n : ℕ} {f : List ℕ → α}

/-- Zeros before the first element, and the sum of each window. -/
theorem cumsum_steps (h : t.Holds [n] f) (hn : 2 ≤ n) :
    ∃ p : NdArray α, (p.Holds [n - 1 + n] fun c =>
        if n - 1 ≤ c.headD 0 then f [c.headD 0 - (n - 1)] else 0) ∧
      cumsum t 0 = (pool p [n] [1] [1] >>= fun w => sum w (.single (-1))) := by
  have hs := h.shape_eq
  have haxis : normalizeAxis 0 t.shape.length = .ok 0 := by rw [hs]; rfl
  obtain ⟨p, hp, hpshape, hpget⟩ := tryPad_axis t (n - 1) 0
    (show t.shape = [] ++ n :: [] from hs)
  refine ⟨p, ⟨by simpa using hpshape, fun c hc => ?_⟩, ?_⟩
  · obtain _ | ⟨x, _ | _⟩ := c <;> simp at hc
    have := hpget [] x [] .nil (by omega) .nil
    simp only [List.nil_append] at this
    rw [this]
    show _ = if n - 1 ≤ x then f [x - (n - 1)] else 0
    by_cases hx : n - 1 ≤ x
    · rw [if_pos ⟨hx, by omega⟩, if_pos hx, h.get_eq _ (.cons (by omega) .nil)]
    · rw [if_neg (fun hx' => hx hx'.1), if_neg hx]
  · have hpad : tryPad t ((List.replicate t.shape.length ((0 : ℤ), (0 : ℤ))).set 0
        ((n - 1 : ℕ), 0)) = .ok p := hp
    unfold cumsum
    rw [bind_ok haxis]
    simp only [hs, List.length_cons, List.length_nil, List.getD_cons_zero,
      if_neg (show ¬ n ≤ 1 by omega)] at hpad ⊢
    simp only [Nat.zero_add, Nat.sub_self, ne_eq, not_true_eq_false, if_false] at hpad ⊢
    rw [pure_bind, bind_ok hpad]
    refine congrArg (pool p [n] [1] [1] >>= ·) (funext fun w => ?_)
    exact bind_pure _

/-- A running sum: the elements up to each position. -/
theorem cumsum_returns (h : t.Holds [n] f) (hlt : n < 2 ^ 31) :
    Returns (cumsum t 0) [n] fun c => ((List.range (c.headD 0 + 1)).map fun j => f [j]).sum := by
  by_cases hn : n ≤ 1
  · have hcall : cumsum t 0 = .ok t := by
      unfold cumsum
      rw [h.shape_eq, bind_ok (show normalizeAxis 0 [n].length = .ok 0 from rfl)]
      simp only [List.getD_cons_zero, if_pos hn]
      rfl
    rw [hcall]
    refine Returns.ok (h.congr fun c hc => ?_)
    obtain _ | ⟨x, _ | _⟩ := c <;> simp at hc
    obtain rfl : x = 0 := by omega
    simp
  · obtain ⟨p, hp, hcall⟩ := cumsum_steps h (by omega)
    obtain ⟨w, hw, hwHolds⟩ := pool_unit hp (by omega) hlt
    have hsum := reduceInternal_last (· + ·) (add_zero (M := α)) (s := [n]) (n := n)
      (t := w) hwHolds (by simp)
    rw [hcall, bind_ok hw]
    refine Returns.congr hsum fun c hc => ?_
    obtain _ | ⟨k, _ | _⟩ := c <;> simp at hc
    simp only [List.length_cons, List.length_nil, List.insertIdx_succ_cons, List.insertIdx_zero,
      Nat.zero_add, List.headD_cons, List.tail_cons]
    exact sum_window (fun j => f [j]) hc

/-- From `2 ^ 31` elements on, the windows are too many. -/
theorem cumsum_error (h : t.Holds [n] f) (hge : 2 ^ 31 ≤ n) : ∃ e, cumsum t 0 = .error e := by
  obtain ⟨p, hp, hcall⟩ := cumsum_steps h (by omega)
  obtain ⟨e, he⟩ := poolSteps_error p (show p.shape = [] ++ [sumAxis n].map (·.i) from hp.shape_eq)
    (sumAxis_valid (by omega))
    (.inl fun hread => absurd ((sumAxis_readable_iff (by omega)).mp hread) (by omega))
  exact ⟨e, by rw [hcall, pool_unit_eq hp.shape_eq (by omega), bind_error he]⟩

end Cumsum

/-! ## Counters -/

theorem full_holds (shape : List ℕ) (value : α) : (full shape value).Holds shape fun _ => value :=
  ⟨rfl, fun _ _ => rfl⟩

section Counters

variable {t : IntType} {n m : ℕ}

/-- The steps of a counter from `0`, for a length that is not zero. -/
theorem arangeWithDtype_eq (hm : arangeCount (t.wrap n) = m) :
    arangeWithDtype t 0 n = if m = 0 then .ok (zeros [0]) else
      cumsum (full [m] (1 : TypedInt t)) 0 >>= fun u => tryAdd u (const (.ofInt 0 - 1)) := by
  have hwrap : t.wrap 0 = 0 := IntType.wrap_of_contains t.contains_zero
  have hdiff : (TypedInt.ofInt n : TypedInt t).val - (TypedInt.ofInt 0 : TypedInt t).val =
      t.wrap n := by
    rw [TypedInt.val_ofInt, TypedInt.val_ofInt, hwrap, sub_zero]
  unfold arangeWithDtype
  simp only [hdiff, hm]
  rfl

/-- A counter from `0` that the type can hold. -/
theorem arangeWithDtype_returns (hm : arangeCount (t.wrap n) = m) (hlt : m < 2 ^ 31) :
    Returns (arangeWithDtype t 0 n) [m] fun c => TypedInt.ofInt (c.headD 0) := by
  rw [arangeWithDtype_eq hm]
  split
  · next hzero =>
    subst hzero
    refine Returns.ok ⟨rfl, fun c hc => ?_⟩
    obtain _ | ⟨x, _ | _⟩ := c <;> simp at hc
  · refine (cumsum_returns (full_holds [m] (1 : TypedInt t)) hlt).bind fun u hu => ?_
    refine (tryBinary_returns_scalar (· + ·) hu _).congr fun c hc => ?_
    rw [List.map_const', List.length_range, List.sum_replicate, TypedInt.ofInt_zero, zero_sub,
      ← sub_eq_add_neg, nsmul_one, Nat.cast_add, Nat.cast_one, add_sub_cancel_right,
      TypedInt.ofInt_natCast]

theorem arangeWithDtype_error (hm : 2 ^ 31 ≤ arangeCount (t.wrap n)) :
    ∃ e, arangeWithDtype t 0 n = .error e := by
  obtain ⟨e, he⟩ := cumsum_error (full_holds [arangeCount (t.wrap n)] (1 : TypedInt t)) hm
  exact ⟨e, by rw [arangeWithDtype_eq rfl, if_neg (by omega), bind_error he]⟩

/-- The positions of an extent. -/
theorem indexArange_returns (hn : n < 2 ^ 31) (dtype : IntType) :
    Returns (indexArange n dtype) [n] fun c => (c.headD 0 : ℤ) := by
  have hcount : arangeCount (int64.wrap n) = n := by
    rw [int64_wrap (by omega), arangeCount_of_lt hn]
  have hlt : ∀ c, InBounds c [n] → c.headD 0 < n := by
    intro c hc
    obtain _ | ⟨x, _ | _⟩ := c <;> simp at hc
    exact hc
  have hval : ∀ c, InBounds c [n] →
      (TypedInt.ofInt (c.headD 0) : TypedInt int64).val = (c.headD 0 : ℤ) := fun c hc => by
    rw [TypedInt.val_ofInt]
    exact int64_wrap (by have := hlt c hc; omega)
  unfold indexArange
  refine (arangeWithDtype_returns (t := int64) hcount hn).bind fun u hu => ?_
  by_cases hfits : ((n - 1 : ℕ) : ℤ) ≤ dtype.max
  · simp only [if_pos hfits]
    refine (Returns.ok (cast_holds _ hu)).congr fun c hc => ?_
    have hmin := dtype.contains_zero.1
    have := hlt c hc
    rw [hval c hc]
    exact IntType.wrap_of_contains ⟨by omega, by omega⟩
  · simp only [if_neg hfits]
    exact (Returns.ok (cast_holds _ hu)).congr hval

/-- From `2 ^ 31` positions on, they are not counted. -/
theorem indexArange_error (hge : 2 ^ 31 ≤ n) (hlt : n < 2 ^ 63) (dtype : IntType) :
    ∃ e, indexArange n dtype = .error e := by
  obtain ⟨e, he⟩ := arangeWithDtype_error (t := int64) (n := n) (by
    rw [int64_wrap hlt]
    exact arangeCount_ge (by omega))
  exact ⟨e, by rw [indexArange, bind_error he]⟩

end Counters

end Svod.Tensor.Nd
