/-
  Svod.Tk.ScalarBounds

  The interval of a scalar expression holds its value.

  `binBounds_sound` is one operation; the fuel of `Program.bounds` carries it
  through the arena.  A block index lies below the extent of its grid, which is
  evaluated at the launch, so the induction is for every environment at once.
-/

import Svod.Ir.RangeEvalBinary
import Svod.Tk.Scalar

namespace Svod.Tk

open Svod.Lib

/-! ## Machine integers -/

namespace I64

theorem checked_eq_some {v : ℤ} {x : I64} (h : checked v = some x) : x.val = v := by
  rw [checked] at h
  split at h
  · cases h
    rfl
  · cases h

theorem wrap_val {v : ℤ} (hlo : -2 ^ 63 ≤ v) (hhi : v < 2 ^ 63) : (wrap v).val = v :=
  wrapSigned_of_bounds (by decide) hlo hhi

theorem min_val (a b : I64) : (min a b).val = min a.val b.val := by
  rcases le_total a b with h | h
  · rw [min_eq_left h, min_eq_left (Subtype.coe_le_coe.mpr h)]
  · rw [min_eq_right h, min_eq_right (Subtype.coe_le_coe.mpr h)]

theorem max_val (a b : I64) : (max a b).val = max a.val b.val := by
  rcases le_total a b with h | h
  · rw [max_eq_right h, max_eq_right (Subtype.coe_le_coe.mpr h)]
  · rw [max_eq_left h, max_eq_left (Subtype.coe_le_coe.mpr h)]

theorem ofBool_bounds (b : Bool) : 0 ≤ ofBool b ∧ ofBool b ≤ 1 := by
  cases b <;> decide

theorem checkedMul_eq_some {a b x : I64} (h : checkedMul a b = some x) :
    x.val = a.val * b.val := checked_eq_some h

theorem checkedDiv_eq_some {a b x : I64} (h : checkedDiv a b = some x) :
    x.val = a.val.tdiv b.val := by
  rw [checkedDiv] at h
  split at h
  · cases h
  · exact checked_eq_some h

theorem checkedRem_eq_some {a b x : I64} (h : checkedRem a b = some x) :
    b.val ≠ 0 ∧ x.val = a.val.tmod b.val := by
  rw [checkedRem] at h
  split at h
  · cases h
  · next hne => exact ⟨fun h0 => hne (.inl h0), checked_eq_some h⟩

end I64

/-! ## One operation -/

/-- `x` lies in the interval. -/
def Within (r : I64 × I64) (x : I64) : Prop := r.1 ≤ x ∧ x ≤ r.2

theorem corners_sound {f : I64 → I64 → Option I64} {g : ℤ → ℤ → ℤ} {a b r : I64 × I64}
    (hf : ∀ x y v, f x y = some v → v.val = g x.val y.val)
    (hbox : BoxOneWay g a.1.val a.2.val b.1.val b.2.val) (h : corners f a b = some r) {x y : I64}
    (hx : Within a x) (hy : Within b y) : r.1.val ≤ g x.val y.val ∧ g x.val y.val ≤ r.2.val := by
  simp only [corners, bind_eq_some, Option.some.injEq] at h
  obtain ⟨v₀, h₀, v₁, h₁, v₂, h₂, v₃, h₃, rfl⟩ := h
  have hmin : (min (min v₀ v₁) (min v₂ v₃)).val ≤ v₀.val ∧
      (min (min v₀ v₁) (min v₂ v₃)).val ≤ v₁.val ∧ (min (min v₀ v₁) (min v₂ v₃)).val ≤ v₂.val ∧
      (min (min v₀ v₁) (min v₂ v₃)).val ≤ v₃.val :=
    ⟨(min_le_left _ _).trans (min_le_left _ _), (min_le_left _ _).trans (min_le_right _ _),
      (min_le_right _ _).trans (min_le_left _ _), (min_le_right _ _).trans (min_le_right _ _)⟩
  have hmax : v₀.val ≤ (max (max v₀ v₁) (max v₂ v₃)).val ∧
      v₁.val ≤ (max (max v₀ v₁) (max v₂ v₃)).val ∧ v₂.val ≤ (max (max v₀ v₁) (max v₂ v₃)).val ∧
      v₃.val ≤ (max (max v₀ v₁) (max v₂ v₃)).val :=
    ⟨(le_max_left _ _).trans (le_max_left _ _), (le_max_right _ _).trans (le_max_left _ _),
      (le_max_left _ _).trans (le_max_right _ _), (le_max_right _ _).trans (le_max_right _ _)⟩
  rw [hf _ _ _ h₀, hf _ _ _ h₁, hf _ _ _ h₂, hf _ _ _ h₃] at hmin hmax
  obtain ⟨hm₀, hm₁, hm₂, hm₃⟩ := hmin
  obtain ⟨hM₀, hM₁, hM₂, hM₃⟩ := hmax
  exact ⟨hbox.le_of_corners hx hy hm₀ hm₁ hm₂ hm₃, hbox.ge_of_corners hx hy hM₀ hM₁ hM₂ hM₃⟩

/-- A magnitude as an `i64`, less one, is no overflow in the end. -/
theorem most_val {m : ℤ} (hpos : 0 < m) (hle : m ≤ 2 ^ 63) :
    (I64.wrap ((I64.wrap m).val - 1)).val = m - 1 := by
  rcases hle.lt_or_eq with hlt | rfl
  · rw [I64.wrap_val (v := m) (by omega) hlt]
    exact I64.wrap_val (by omega) (by omega)
  · decide

theorem rem_sound {a b r : I64 × I64} {past : Option I64} (h : binBounds .rem past a b = some r)
    {x y v : I64} (hx : Within a x) (hy : Within b y) (hv : I64.checkedRem x y = some v) :
    Within r v := by
  obtain ⟨hne, hval⟩ := I64.checkedRem_eq_some hv
  obtain ⟨hlt, hle, hpos, hneg⟩ := Ir.tmod_bounds x.val hne
  rw [← hval] at hlt hle hpos hneg
  simp only [binBounds, Option.ite_none_right_eq_some, Option.some.injEq] at h
  obtain ⟨-, rfl⟩ := h
  have hb₀ := b.1.property
  have hb₁ := b.2.property
  have hx₀ : a.1.val ≤ x.val := hx.1
  have hx₁ : x.val ≤ a.2.val := hx.2
  have hy₀ : b.1.val ≤ y.val := hy.1
  have hy₁ : y.val ≤ b.2.val := hy.2
  obtain ⟨m, hm⟩ : ∃ m : ℤ, m = max (b.1.val.natAbs : ℤ) (b.2.val.natAbs : ℤ) := ⟨_, rfl⟩
  have hmost := most_val (m := m) (by omega) (by omega)
  rw [← hm]
  have hnegMost : (I64.wrap (-(I64.wrap ((I64.wrap m).val - 1)).val)).val = 1 - m := by
    rw [hmost, I64.wrap_val (by omega) (by omega)]
    omega
  obtain ⟨most, hmostEq⟩ : ∃ most, most = I64.wrap ((I64.wrap m).val - 1) := ⟨_, rfl⟩
  rw [← hmostEq] at hmost hnegMost ⊢
  have hsize : (y.val.natAbs : ℤ) ≤ m := by omega
  constructor
  · show (if a.1 < 0 then max a.1 (I64.wrap (-most.val)) else 0 : I64).val ≤ v.val
    split
    · next hlow =>
      have hlow' : a.1.val < 0 := hlow
      rw [I64.max_val, hnegMost]
      omega
    · next hlow =>
      have hlow' : 0 ≤ a.1.val := not_lt.mp hlow
      exact hpos (by omega)
  · show v.val ≤ (if 0 < a.2 then min a.2 most else 0 : I64).val
    split
    · next hhigh =>
      have hhigh' : 0 < a.2.val := hhigh
      rw [I64.min_val, hmost]
      omega
    · next hhigh =>
      have hhigh' : a.2.val ≤ 0 := not_lt.mp hhigh
      exact hneg (by omega)

theorem binBounds_sound {op : BinOp} {a b r : I64 × I64} (h : binBounds op none a b = some r)
    {x y v : I64} (hx : Within a x) (hy : Within b y) (hv : op.apply x y = some v) :
    Within r v := by
  have hx₀ : a.1.val ≤ x.val := hx.1
  have hx₁ : x.val ≤ a.2.val := hx.2
  have hy₀ : b.1.val ≤ y.val := hy.1
  have hy₁ : y.val ≤ b.2.val := hy.2
  cases op with
  | add =>
    simp only [binBounds, bind_eq_some, Option.some.injEq] at h
    obtain ⟨lo, hlo, hi, hhi, rfl⟩ := h
    obtain rfl := Option.some.inj hv
    have hlo' := I64.checked_eq_some hlo
    have hhi' := I64.checked_eq_some hhi
    have hloMin := lo.property
    have hhiMax := hi.property
    have hsum := I64.wrap_val (v := x.val + y.val) (by omega) (by omega)
    exact ⟨show lo.val ≤ _ by omega, show _ ≤ hi.val by omega⟩
  | sub =>
    simp only [binBounds, bind_eq_some, Option.some.injEq] at h
    obtain ⟨lo, hlo, hi, hhi, rfl⟩ := h
    obtain rfl := Option.some.inj hv
    have hlo' := I64.checked_eq_some hlo
    have hhi' := I64.checked_eq_some hhi
    have hloMin := lo.property
    have hhiMax := hi.property
    have hdiff := I64.wrap_val (v := x.val - y.val) (by omega) (by omega)
    exact ⟨show lo.val ≤ _ by omega, show _ ≤ hi.val by omega⟩
  | mul =>
    obtain rfl := Option.some.inj hv
    have hcorners := corners_sound (fun _ _ _ h => I64.checkedMul_eq_some h) boxOneWay_mul h hx hy
    have hlo := r.1.property
    have hhi := r.2.property
    have hprod := I64.wrap_val (v := x.val * y.val) (hlo.1.trans hcorners.1)
      (hcorners.2.trans_lt hhi.2)
    exact ⟨show r.1.val ≤ _ by rw [hprod]; exact hcorners.1,
      show _ ≤ r.2.val by rw [hprod]; exact hcorners.2⟩
  | div =>
    simp only [binBounds, Option.ite_none_right_eq_some] at h
    have hcorners := corners_sound (fun _ _ _ h => I64.checkedDiv_eq_some h)
      (boxOneWay_tdiv h.1) h.2 hx hy
    rw [← I64.checkedDiv_eq_some hv] at hcorners
    exact hcorners
  | rem => exact rem_sound h hx hy hv
  | min =>
    obtain rfl := Option.some.inj h
    obtain rfl := Option.some.inj hv
    exact ⟨min_le_min hx.1 hy.1, min_le_min hx.2 hy.2⟩
  | max =>
    obtain rfl := Option.some.inj h
    obtain rfl := Option.some.inj hv
    exact ⟨max_le_max hx.1 hy.1, max_le_max hx.2 hy.2⟩
  | lt | le | eq =>
    obtain rfl := Option.some.inj h
    obtain rfl := Option.some.inj hv
    exact I64.ofBool_bounds _
  | and | or =>
    simp only [binBounds, Option.ite_none_right_eq_some, Option.some.injEq] at h
    obtain ⟨-, rfl⟩ := h
    obtain rfl := Option.some.inj hv
    exact I64.ofBool_bounds _

/-- The constant matters to differences alone. -/
theorem binBounds_past {op : BinOp} (hop : op ≠ .sub) (past : Option I64) (a b : I64 × I64) :
    binBounds op past a b = binBounds op none a b := by
  cases op with
  | sub => exact absurd rfl hop
  | _ => rfl

/-- The difference `x − [c < x]`. -/
theorem lessOnePast_sound {c : I64} {a b r : I64 × I64}
    (h : binBounds .sub (some c) a b = some r) {x v : I64} (hx : Within a x)
    (hv : BinOp.apply .sub x (I64.ofBool (c < x)) = some v) : Within r v := by
  obtain rfl := Option.some.inj h
  obtain rfl := Option.some.inj hv
  have hx₀ : a.1.val ≤ x.val := hx.1
  have hx₁ : x.val ≤ a.2.val := hx.2
  have hc := c.property
  have ha := a.1.property
  have ha' := a.2.property
  have hxp := x.property
  have hval : (I64.wrap (x.val - (I64.ofBool (c < x)).val)).val =
      if c.val < x.val then x.val - 1 else x.val := by
    by_cases hcx : c.val < x.val
    · have : decide (c < x) = true := decide_eq_true hcx
      rw [this, if_pos hcx]
      exact I64.wrap_val (by show _ ≤ x.val - 1; omega) (by show x.val - 1 < _; omega)
    · have : decide (c < x) = false := decide_eq_false hcx
      rw [this, if_neg hcx]
      show (I64.wrap (x.val - 0)).val = x.val
      rw [sub_zero]
      exact I64.wrap_val hxp.1 hxp.2
  have hstep : ∀ u : I64, ((if c < u then I64.wrap (u.val - 1) else u : I64)).val =
      if c.val < u.val then u.val - 1 else u.val := by
    intro u
    have hu := u.property
    by_cases hcu : c.val < u.val
    · rw [if_pos (show c < u from hcu), if_pos hcu]
      exact I64.wrap_val (by omega) (by omega)
    · rw [if_neg (show ¬c < u from hcu), if_neg hcu]
  constructor
  · show (if c < a.1 then I64.wrap (a.1.val - 1) else a.1 : I64).val ≤ _
    rw [hstep, hval]
    split <;> split <;> omega
  · show _ ≤ (if c < a.2 then I64.wrap (a.2.val - 1) else a.2 : I64).val
    rw [hstep, hval]
    split <;> split <;> omega

/-! ## Expressions -/

section Program

variable {prog : Program} {env : Env}

/-- More fuel does not change a value. -/
theorem scalarAt_unique {fuel fuel' id : ℕ} {v v' : I64}
    (h : prog.scalarAt env fuel id = some v) (h' : prog.scalarAt env fuel' id = some v') :
    v = v' := by
  induction fuel generalizing fuel' id v v' with
  | zero => cases h
  | succ fuel ih =>
    cases fuel' with
    | zero => cases h'
    | succ fuel' =>
      simp only [Program.scalarAt, Option.bind_eq_bind] at h h'
      cases hs : prog.scalars[id]? with
      | none =>
        rw [hs] at h
        cases h
      | some s =>
        rw [hs, Option.bind_some] at h h'
        cases s with
        | bin op a b =>
          simp only [Option.bind_eq_some_iff] at h h'
          obtain ⟨x, hx, y, hy, hv⟩ := h
          obtain ⟨x', hx', y', hy', hv'⟩ := h'
          rw [ih hx hx', ih hy hy'] at hv
          exact Option.some.inj (hv.symm.trans hv')
        | load param index =>
          simp only [Option.bind_eq_some_iff] at h h'
          obtain ⟨x, hx, hv⟩ := h
          obtain ⟨x', hx', hv'⟩ := h'
          rw [ih hx hx'] at hv
          exact Option.some.inj (hv.symm.trans hv')
        | special s => cases s <;> exact Option.some.inj (h.symm.trans h')
        | _ => exact Option.some.inj (h.symm.trans h')

/-- The second operand of `x − [c < x]` is the comparison of the first one's value. -/
theorem lessOnePast_apply {a b fuel : ℕ} {c x y : I64} (h : prog.lessOnePast a b = some c)
    (hx : prog.scalarAt env fuel a = some x) (hy : prog.scalarAt env fuel b = some y) :
    y = I64.ofBool (c < x) := by
  rw [Program.lessOnePast] at h
  split at h
  · next ci xi hb =>
    split at h
    · next heq =>
      subst heq
      split at h
      · next c' hc =>
        obtain rfl := Option.some.inj h
        cases fuel with
        | zero => cases hy
        | succ fuel =>
          simp only [Program.scalarAt, Option.bind_eq_bind, hb, Option.bind_some,
            Option.bind_eq_some_iff] at hy
          obtain ⟨u, hu, w, hw, hy⟩ := hy
          obtain rfl := scalarAt_unique hw hx
          have hconst : u = c' := by
            cases fuel with
            | zero => cases hu
            | succ fuel =>
              simp only [Program.scalarAt, Option.bind_eq_bind, hc, Option.bind_some] at hu
              exact (Option.some.inj hu).symm
          rw [hconst] at hy
          exact (Option.some.inj hy).symm
      · cases h
    · cases h
  · cases h

/-- The grid is evaluated before any block runs: at the first indices, outside every loop. -/
def Env.launch (env : Env) : Env where
  vars := env.vars
  block _ := 0
  warp := 0
  induction _ := none
  row := none
  load := env.load
  any _ := none

/-- Variables and loops within their intervals, a warp of the block, a block of the grid. -/
structure Env.Valid (prog : Program) (induction : ℕ → Option (I64 × I64)) (env : Env) : Prop where
  vars : ∀ v ∈ prog.vars, ∀ x, env.vars v.name = some x → v.min ≤ x ∧ x ≤ v.max
  induction : ∀ id r x, induction id = some r → env.induction id = some x → Within r x
  warp : 0 ≤ env.warp ∧ env.warp.val < prog.warps
  block : ∀ axis extent, prog.grid[axis]? = some extent → ∃ fuel e,
    prog.scalarAt env.launch fuel extent = some e ∧ 0 ≤ env.block axis ∧ env.block axis < e

theorem Env.Valid.launch {induction : ℕ → Option (I64 × I64)} (h : env.Valid prog induction) :
    env.launch.Valid prog induction where
  vars := h.vars
  induction := by
    intro id r x _ hx
    cases hx
  warp := ⟨le_rfl, lt_of_le_of_lt h.warp.1 h.warp.2⟩
  block := by
    intro axis extent hextent
    obtain ⟨fuel, e, he, hlo, hhi⟩ := h.block axis extent hextent
    exact ⟨fuel, e, he, le_rfl, lt_of_le_of_lt hlo hhi⟩

/-- The interval of an expression holds its value. -/
theorem bounds_sound {induction : ℕ → Option (I64 × I64)} {fuel fuel' id : ℕ} {r : I64 × I64}
    {v : I64} (hvalid : env.Valid prog induction) (h : prog.bounds induction fuel id = some r)
    (hv : prog.scalarAt env fuel' id = some v) : Within r v := by
  induction fuel generalizing env fuel' id r v with
  | zero => cases h
  | succ fuel ih =>
    cases fuel' with
    | zero => cases hv
    | succ fuel' =>
      simp only [Program.bounds, Program.scalarAt, Option.bind_eq_bind] at h hv
      cases hs : prog.scalars[id]? with
      | none =>
        rw [hs] at h
        cases h
      | some s =>
        rw [hs, Option.bind_some] at h hv
        cases s with
        | const c =>
          obtain rfl := Option.some.inj h
          obtain rfl := Option.some.inj hv
          exact ⟨le_rfl, le_rfl⟩
        | var name =>
          rw [Option.map_eq_some_iff] at h
          obtain ⟨d, hd, rfl⟩ := h
          have hname : d.name = name := by simpa using List.find?_some hd
          exact hvalid.vars d (List.mem_of_find?_eq_some hd) v (hname ▸ hv)
        | special s =>
          cases s with
          | block axis =>
            simp only [Option.bind_eq_some_iff] at h
            obtain ⟨extent, hextent, range, hrange, hr⟩ := h
            obtain rfl := Option.some.inj hr
            obtain rfl := Option.some.inj hv
            obtain ⟨fuel₀, e, he, hlo, hhi⟩ := hvalid.block axis extent hextent
            have hin := (ih hvalid.launch hrange he).2
            refine ⟨hlo, ?_⟩
            have hlo' : 0 ≤ (env.block axis).val := hlo
            have hhi' : (env.block axis).val < e.val := hhi
            have hin' : e.val ≤ range.2.val := hin
            have hmax := range.2.property
            show (env.block axis).val ≤ (I64.wrap (range.2.val - 1)).val
            rw [I64.wrap_val (by omega) (by omega)]
            omega
          | warp =>
            obtain rfl := Option.some.inj h
            obtain rfl := Option.some.inj hv
            have hlt := prog.warps_lt
            have hwarp := hvalid.warp.2
            refine ⟨hvalid.warp.1, ?_⟩
            show env.warp.val ≤ (I64.wrap (prog.warps - 1)).val
            rw [I64.wrap_val (by omega) (by omega)]
            omega
        | induction => exact hvalid.induction id r v h hv
        | any tile =>
          obtain rfl := Option.some.inj h
          rw [Option.map_eq_some_iff] at hv
          obtain ⟨b, -, rfl⟩ := hv
          exact I64.ofBool_bounds b
        | load param index => cases h
        | row => cases h
        | bin op a b =>
          simp only [Option.bind_eq_some_iff] at h hv
          obtain ⟨ra, hra, rb, hrb, hr⟩ := h
          obtain ⟨x, hx, y, hy, hxy⟩ := hv
          have hinx := ih hvalid hra hx
          have hiny := ih hvalid hrb hy
          by_cases hop : op = .sub
          · subst hop
            cases hpast : prog.lessOnePast a b with
            | none =>
              rw [hpast] at hr
              exact binBounds_sound hr hinx hiny hxy
            | some c =>
              rw [hpast] at hr
              exact lessOnePast_sound hr hinx (lessOnePast_apply hpast hx hy ▸ hxy)
          · rw [binBounds_past hop] at hr
            exact binBounds_sound hr hinx hiny hxy

end Program

/-- `n − [2 < n]` for `n` of `-7..=9`, on a grid of five blocks. -/
def ringProgram : Program where
  scalars := [.var "n", .const 2, .bin .lt 1 0, .bin .sub 0 2, .const 5]
  vars := [⟨"n", I64.wrap (-7), 9⟩]
  grid := [4]
  warps := 4
  warps_lt := by decide

def ringEnv : Env where
  vars _ := some 6
  block _ := 3
  warp := 1
  induction _ := none
  row := none
  load _ _ := none
  any _ := none

theorem ringEnv_valid : ringEnv.Valid ringProgram fun _ => none where
  vars := by
    intro v hv x hx
    obtain rfl := List.mem_singleton.mp hv
    obtain rfl := Option.some.inj hx
    decide
  induction := by
    intro id r x h
    cases h
  warp := by decide
  block := by
    intro axis extent h
    cases axis with
    | zero =>
      obtain rfl := Option.some.inj h
      exact ⟨1, 5, rfl, by decide, by decide⟩
    | succ axis => cases h

theorem bounds_sound_ring : Within (I64.wrap (-7), 8) 5 ∧
    ringProgram.bounds (fun _ => none) 8 3 = some (I64.wrap (-7), 8) :=
  ⟨@bounds_sound _ _ _ 8 8 3 _ _ ringEnv_valid (by decide) (by decide),
    by decide⟩

end Svod.Tk
