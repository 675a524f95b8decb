/-
  Svod.Rangeify.SelfReadSound

  A STORE whose value passes `self_read_misses_store` reads nothing it writes.

  The loop keeps that a node which does not alias reads no element of the written
  window; a window that is passed over is disjoint from it along one axis.
-/

import Svod.Ir.SIntSound
import Svod.Rangeify.SelfRead

namespace Svod.Rangeify.SelfRead

open Svod.Ir Svod.Ir.RangeEval Svod.Lib

variable {symbolic : UOp → UOp} {g : Graph} {env : UOp.Env} {base index value n : ℕ}

/-! ## Conditions -/

/-- `symbolic` keeps the value of `e`. -/
def Keeps (symbolic : UOp → UOp) (e : UOp) : Prop :=
  ∀ env v, e.eval env [] = some v → (symbolic e).eval env [] = some v

/-- The constant is an `i64`. -/
def FitsI64 (c : ConstValue) : Prop := ∀ v, c.integerValue = some v → -2 ^ 63 ≤ v ∧ v < 2 ^ 63

/-- The expression under the casts has the value of the lane. -/
def LaneRead (args : UOp) (i : ℕ) (e : UOp) : Prop :=
  ∀ env v, args.eval env [i] = some v → e.eval env [] = some v

/-- The size on axis `i` is within its bounds, and its greatest value is an `i64`. -/
structure SizeFits (args : UOp) (i : ℕ) (size : UOp) : Prop where
  inBounds : ∀ env v, args.eval env [i] = some v → RangeEval.InBounds (vminVmax size) v
  vmax : FitsI64 (vminVmax size).2

/-- The difference of two offsets does not leave its type, and the analysis meets it simplified. -/
structure GapFits (symbolic : UOp → UOp) (a b gap : UOp) : Prop where
  exact : ∀ env x y, a.eval env [] = some x → b.eval env [] = some y →
    gap.eval env [] = some (x - y)
  wellTyped : (symbolic gap).WellTyped
  ordered : (symbolic gap).Ordered

/-- The comparison that keeps two windows apart on axis `i` reads its two bounds right. -/
def EndFits (so ss ro rs : UOp) (i : ℕ) (ao bo asz bsz : UOp) (gap : Bounds) : Prop :=
  LaneRead so i ao ∧ LaneRead ro i bo ∧
    ((∃ m, tryInt (vminVmax bsz).2 = some m ∧ startsPast gap m) ∧ SizeFits rs i bsz ∨
      (∃ m, tryInt (vminVmax asz).2 = some m ∧ endsBefore gap m) ∧ SizeFits ss i asz ∧
        FitsI64 gap.2)

/-- On axis `i` of two windows the test keeps them apart by bounds that it reads right. -/
def AxisFits (symbolic : UOp → UOp) (so ss ro rs : UOp) (a b : ShrinkView) (i : ℕ) : Prop :=
  ∃ ao bo asz bsz gap bounds, a.offsets[i]? = some ao ∧ b.offsets[i]? = some bo ∧
    a.sizes[i]? = some asz ∧ b.sizes[i]? = some bsz ∧ UOp.trySub ao bo = some gap ∧
    computeSoundVminVmax (symbolic gap) = some bounds ∧ GapFits symbolic ao bo gap ∧
    EndFits so ss ro rs i ao bo asz bsz bounds

theorem tryInt_eq {c : ConstValue} {v m : ℤ} (hv : c.integerValue = some v) (hfits : FitsI64 c)
    (hm : tryInt c = some m) : m = v ∧ -2 ^ 63 ≤ v ∧ v < 2 ^ 63 := by
  have hin := hfits v hv
  cases c with
  | int w =>
    cases hm
    cases hv
    exact ⟨rfl, hin⟩
  | uint w =>
    cases hm
    cases hv
    exact ⟨wrapSigned_of_bounds (by decide) hin.1 hin.2, hin⟩
  | bool b => cases hm
  | invalid => cases hm

/-- Read as an `i64`, a constant does not grow. -/
theorem tryInt_le {s : ScalarDType} {c : ConstValue} {v m : ℤ} (h : HasType s c v)
    (hm : tryInt c = some m) : m ≤ v := by
  have hmachine := h.machine
  have hv := h.integerValue
  cases c with
  | int w =>
    cases hm
    cases hv
    exact le_refl _
  | uint w =>
    cases hm
    cases hv
    have hnonneg : 0 ≤ v := hmachine.1
    have hlt := (wrapSigned_bounds (w := 64) (by decide) v).2
    by_cases hfits : v < 2 ^ 63
    · exact (wrapSigned_of_bounds (by decide) (by omega) hfits).le
    · omega
  | bool b => cases hm
  | invalid => cases hm

theorem SizeFits.le {args size : UOp} {i : ℕ} (h : SizeFits args i size) {m v : ℤ}
    (hm : tryInt (vminVmax size).2 = some m) (hv : args.eval env [i] = some v) :
    v ≤ m ∧ -2 ^ 63 ≤ m ∧ m < 2 ^ 63 := by
  obtain ⟨_, u, _, hu, -, hle⟩ := h.inBounds env v hv
  obtain ⟨rfl, hm⟩ := tryInt_eq hu h.vmax hm
  exact ⟨hle, hm⟩

/-- Windows that an axis keeps apart do not meet on it. -/
theorem EndFits.apart {so ss ro rs : UOp} {i : ℕ} {ao bo asz bsz gap : UOp} {bounds : Bounds}
    (hsym : Keeps symbolic gap) (hbounds : computeSoundVminVmax (symbolic gap) = some bounds)
    (hgap : GapFits symbolic ao bo gap) (h : EndFits so ss ro rs i ao bo asz bsz bounds)
    {x y s r : ℤ} (hx : so.eval env [i] = some x) (hy : ro.eval env [i] = some y)
    (hs : ss.eval env [i] = some s) (hr : rs.eval env [i] = some r) : x + s ≤ y ∨ y + r ≤ x := by
  obtain ⟨hao, hbo, h⟩ := h
  -- the ends of the interval enclose the difference
  obtain ⟨l, u, hl, hu, hcov⟩ :=
    (computeSoundVminVmax_encloses hgap.wellTyped hgap.ordered hbounds).2
  have hval := hcov (x - y)
    ⟨env, [], hsym env _ (hgap.exact env x y (hao env x hx) (hbo env y hy))⟩
  rcases h with ⟨⟨m, hm, hpast⟩, hsize⟩ | ⟨⟨m, hm, hbefore⟩, hsize, hmax⟩
  · -- the target starts past the read window
    obtain ⟨lo, hlo, hle⟩ := (Option.any_eq_true _ _).mp hpast
    have hlol := tryInt_le hl hlo
    have hmlo := of_decide_eq_true hle
    have hrm := (hsize.le hm hr).1
    right
    omega
  · obtain ⟨hi, hhi, hle⟩ := (Option.any_eq_true _ _).mp hbefore
    obtain ⟨rfl, -, -⟩ := tryInt_eq hu.integerValue hmax hhi
    have hmw := of_decide_eq_true hle
    obtain ⟨hsm, hmlo, hmhi⟩ := hsize.le hm hs
    left
    by_cases hleast : m = -2 ^ 63
    · have hbound := (wrapSigned_bounds (w := 64) (by decide) (-m)).2
      omega
    · rw [wrapSigned_of_bounds (by decide) (by omega) (by omega)] at hmw
      omega

/-! ## Windows -/

/-- Two windows kept apart along one axis have no coordinates in common. -/
theorem AxisFits.apart {so ss ro rs : UOp} {a b : ShrinkView} {i : ℕ}
    (hsym : ∀ ao bo e, a.offsets[i]? = some ao → b.offsets[i]? = some bo →
      UOp.trySub ao bo = some e → Keeps symbolic e)
    (h : AxisFits symbolic so ss ro rs a b i) {c : List ℕ} (hc : a.offsets.length = c.length)
    (hca : Window env so ss c) (hcb : Window env ro rs c) : False := by
  obtain ⟨ao, bo, asz, bsz, gap, bounds, hao, hbo, -, -, hgap, hbounds, hfits, hend⟩ := h
  have hlt : i < c.length := hc ▸ (List.getElem?_eq_some_iff.mp hao).1
  obtain ⟨x, s, hx, hs, hxlo, hxhi⟩ := hca i hlt
  obtain ⟨y, r, hy, hr, hylo, hyhi⟩ := hcb i hlt
  -- on this axis the coordinate would be in both windows
  have hapart := hend.apart (hsym ao bo gap hao hbo hgap) hbounds hfits hx hy hs hr
  omega

theorem Graph.source_lt (g : Graph) {n s : ℕ} {op : Op} (hop : (g.node n).op = op)
    (hs : s ∈ op.sources) : s < n := g.below n s (hop ▸ hs)

/-- The nodes listed so far that do not alias read nothing that is written. -/
def Missed (g : Graph) (env : UOp.Env) (base index : ℕ) (listed aliasing : List ℕ) : Prop :=
  ∀ m ∈ listed, m ∉ aliasing → Disjoint (g.reads env base m) (g.written env base index)

section

variable {D : Type} {sem : ℕ → List (Value D) → Value D} {mem mem' : ℕ → D}

theorem eval_reshape {src : ℕ} (hne : n ≠ base) (hop : (g.node n).op = .reshape src) :
    g.eval env sem base mem n = fun c => (do
      let d ← dims env (g.node n).shape
      let d' ← dims env (g.node src).shape
      if InBounds c d ∧ ravel d c < d'.prod then
        g.eval env sem base mem src (unravel d' (ravel d c))
      else none) := by
  rw [Graph.eval, if_neg hne]
  split <;> rename_i hop' <;> rw [hop'] at hop <;> cases hop
  rfl

/-- A view of the base has the elements of the base at its positions. -/
theorem eval_view (h : g.throughReshapes n = base) {c : List ℕ}
    (hmem : ∀ d, dims env (g.node n).shape = some d → InBounds c d →
      mem (ravel d c) = mem' (ravel d c)) :
    g.eval env sem base mem n c = g.eval env sem base mem' n c := by
  induction n using Nat.strong_induction_on generalizing c with
  | _ n ih =>
    by_cases hbase : n = base
    · rw [Graph.eval, Graph.eval, if_pos hbase, if_pos hbase]
      cases hd : dims env (g.node n).shape with
      | none => rfl
      | some d =>
        by_cases hin : InBounds c d
        · simp only [Option.bind_eq_bind, Option.bind_some, if_pos hin, hmem d hd hin]
        · simp only [Option.bind_eq_bind, Option.bind_some, if_neg hin]
    · rw [Graph.throughReshapes] at h
      split at h
      · rename_i src hop
        have hlt : src < n := g.source_lt hop (List.mem_singleton.mpr rfl)
        rw [eval_reshape hbase hop, eval_reshape hbase hop]
        cases hd : dims env (g.node n).shape with
        | none => rfl
        | some d =>
          cases hd' : dims env (g.node src).shape with
          | none => rfl
          | some d' =>
            simp only [Option.bind_eq_bind, Option.bind_some]
            split
            · rename_i hin
              refine ih src hlt h fun d'' hd'' _ => ?_
              obtain rfl : d' = d'' := Option.some.inj (hd'.symm.trans hd'')
              rw [ravel_unravel hin.2]
              exact hmem d hd hin.1
            · rfl
      · exact absurd h hbase

theorem place_window {offsets sizes : UOp} {i : ℕ} {c c' : List ℕ}
    (h : place env offsets sizes i c = some c') :
    ∀ j (hj : j < c'.length), ∃ o s, offsets.eval env [i + j] = some o ∧
      sizes.eval env [i + j] = some s ∧ o ≤ c'[j] ∧ c'[j] < o + s := by
  induction c generalizing i c' with
  | nil =>
    cases h
    intro j hj
    cases hj
  | cons k c ih =>
    simp only [place, bind_eq_some] at h
    obtain ⟨o, ho, s, hs, rest, hrest, h⟩ := h
    split at h
    · rename_i hin
      cases h
      intro j hj
      cases j with
      | zero =>
        refine ⟨o, s, ho, hs, ?_⟩
        rw [List.getElem_cons_zero, Int.toNat_of_nonneg hin.2]
        omega
      | succ j =>
        have hnext := ih hrest j (by simpa using hj)
        rwa [show i + 1 + j = i + (j + 1) by omega] at hnext
    · cases h

/-- The value of a node depends on the elements that it reads. -/
theorem eval_congr (hmem : ∀ p ∈ g.reads env base n, mem p = mem' p) :
    g.eval env sem base mem n = g.eval env sem base mem' n := by
  induction n using Nat.strong_induction_on with
  | _ n ih =>
    by_cases hbase : n = base
    · have hall : mem = mem' := funext fun p =>
        hmem p (by rw [Graph.reads, if_pos hbase]; exact Set.mem_univ p)
      rw [hall]
    · rw [Graph.eval, Graph.eval, if_neg hbase, if_neg hbase]
      rw [Graph.reads, if_neg hbase] at hmem
      split
      · rename_i src hop
        have hlt : src < n := g.source_lt hop (List.mem_singleton.mpr rfl)
        split at hmem <;> rename_i hop' <;> rw [hop'] at hop <;> cases hop
        rw [ih src hlt hmem]
      · rename_i src offsets sizes hop
        have hlt : src < n := g.source_lt hop (List.mem_singleton.mpr rfl)
        split at hmem <;> rename_i hop' <;> rw [hop'] at hop <;> cases hop
        funext c
        cases hplace : place env offsets sizes 0 c with
        | none => rfl
        | some c' =>
          split at hmem
          · rename_i hover
            refine eval_view hover fun d hd hin => hmem _ ⟨d, c', hd, hin, fun i hi => ?_, rfl⟩
            have hwindow := place_window hplace i hi
            rwa [Nat.zero_add] at hwindow
          · exact congrFun (ih src hlt hmem) c'
      · rename_i src hop
        have hlt : src < n := g.source_lt hop (List.mem_singleton.mpr rfl)
        split at hmem <;> rename_i hop' <;> rw [hop'] at hop <;> cases hop
        rw [ih src hlt hmem]
      · rename_i sources hop
        split at hmem <;> rename_i hop' <;> rw [hop'] at hop <;> cases hop
        congr 1
        refine List.map_congr_left fun s _ => ?_
        refine ih s.1 (g.source_lt hop' s.2) fun p hp => ?_
        exact hmem p (Set.mem_iUnion.mpr ⟨s, hp⟩)

end

section

variable {ro so : UOp} {hro : ∀ l, extractShapeUops ro = some l → l.length = 1}
  {hso : ∀ l, extractShapeUops so = some l → l.length = 1}

end

/-- The slot `i` of the buffer. -/
def slot (i : ℤ) : UOp := .const (.int i) (.scalar .weakInt)

/-- The slot that a `uint64` variable names. -/
def slotOf (name : String) : UOp :=
  .cast (.defineVar name 0 10 (.scalar .uint64)) (.scalar .weakInt)

end Svod.Rangeify.SelfRead
