/-
  Svod.Tensor.Col2imSound

  `col2im` as the adjoint of `pool`: the column entry at kernel position `k` and
  sliding position `l` is added to the image position
  `l * stride + k * dilation - pad`.

  The slice of a kernel position is followed axis by axis; the loop adds one slice
  after the other.  A slice whose length differs from the padded image broadcasts
  when it is a single element, and is refused otherwise.
-/

import Svod.Tensor.PoolSound

namespace Svod.Tensor.Nd

open Svod.Lib Svod.Ir

variable {α : Type}
variable {axes : List ColAxis} {kpos : List ℕ}

/-! ## One axis -/

namespace ColAxis

/-- The parameters the operation is defined for: the dilated block fits the padded image. -/
structure Valid (a : ColAxis) : Prop where
  block_pos : 1 ≤ a.block
  stride_pos : 1 ≤ a.stride
  dilation_pos : 1 ≤ a.dilation
  padBefore_nonneg : 0 ≤ a.padBefore
  padAfter_nonneg : 0 ≤ a.padAfter
  fits : a.effectiveK ≤ a.padded

/-- The stride steps exactly through the positions of the padded image. -/
def Divides (a : ColAxis) : Prop := a.stride ∣ a.padded - a.effectiveK

instance (a : ColAxis) : Decidable a.Divides := inferInstanceAs (Decidable (_ ∣ _))

/-- The sliding position whose kernel position `k` lies at `x`. -/
def hit (a : ColAxis) (k x : ℕ) : Option ℕ :=
  if k * a.dilation ≤ x ∧ (x - k * a.dilation) % a.stride = 0 ∧
      (x - k * a.dilation) / a.stride < a.positions then
    some ((x - k * a.dilation) / a.stride)
  else none

variable {a : ColAxis}

theorem hit_eq_some (h : a.Valid) {k x l : ℕ} :
    a.hit k x = some l ↔ l < a.positions ∧ l * a.stride + k * a.dilation = x := by
  have hs := h.stride_pos
  unfold hit
  constructor
  · intro heq
    split at heq
    · rename_i hc
      obtain rfl := Option.some.inj heq
      have hdiv := Nat.div_add_mod' (x - k * a.dilation) a.stride
      exact ⟨hc.2.2, by omega⟩
    · cases heq
  · rintro ⟨hl, rfl⟩
    rw [Nat.add_sub_cancel, Nat.mul_mod_left, Nat.mul_div_cancel _ hs]
    exact if_pos ⟨by omega, rfl, hl⟩

theorem positions_pos (a : ColAxis) : 1 ≤ a.positions := by simp [positions]

/-- A slice falls short of the padded image by what the stride leaves over. -/
theorem width_add_mod (h : a.Valid) :
    a.width + (a.padded - a.effectiveK) % a.stride = a.padded := by
  have hdiv := Nat.div_add_mod' (a.padded - a.effectiveK) a.stride
  have hfits := h.fits
  have hk : a.effectiveK = (a.block - 1) * a.dilation + 1 := by
    rw [effectiveK, Nat.mul_comm]
  simp only [width, positions, Nat.add_sub_cancel]
  omega

theorem width_eq_padded_iff (h : a.Valid) : a.width = a.padded ↔ a.Divides := by
  have := width_add_mod h
  rw [Divides, Nat.dvd_iff_mod_eq_zero]
  omega

theorem width_le_padded (h : a.Valid) : a.width ≤ a.padded := by
  have := width_add_mod h
  omega

/-- A slice is a single element when the block is one and there is one position. -/
theorem width_eq_one_iff (h : a.Valid) : a.width = 1 ↔ a.block = 1 ∧ a.positions = 1 := by
  have hp := positions_pos a
  have hb := h.block_pos
  have h₁ : (a.positions - 1) * a.stride = 0 ↔ a.positions = 1 := by
    rw [Nat.mul_eq_zero]
    have := h.stride_pos
    omega
  have h₂ : (a.block - 1) * a.dilation = 0 ↔ a.block = 1 := by
    rw [Nat.mul_eq_zero]
    have := h.dilation_pos
    omega
  simp only [width]
  omega

end ColAxis

/-! ## Placing a slice -/

/-- Dilation by the stride: the elements stand at the multiples of the stride. -/
theorem dilateAxis_ok [Zero α] (t : NdArray α) {pre post : List ℕ} {l s : ℕ} (hl : 1 ≤ l)
    (hs : 1 ≤ s) (hshape : t.shape = pre ++ l :: post) :
    ∃ u, dilateAxis t pre.length l s = .ok u ∧ u.shape = pre ++ ((l - 1) * s + 1) :: post ∧
      ∀ p x q, InBounds p pre → x < (l - 1) * s + 1 → InBounds q post →
        u.get (p ++ x :: q) = if x % s = 0 then t.get (p ++ (x / s) :: q) else 0 := by
  by_cases h1 : 1 < s
  swap
  · obtain rfl : s = 1 := by omega
    refine ⟨t, if_neg h1, ?_, fun p x q _ _ _ => ?_⟩
    · rw [hshape, Nat.mul_one, Nat.sub_add_cancel hl]
    · rw [Nat.mod_one, Nat.div_one, if_pos rfl]
  have hinsert : t.shape.insertIdx (pre.length + 1) 1 = pre ++ l :: 1 :: post := by
    have := insertIdx_append_length (pre ++ [l]) post 1
    rw [List.length_append, List.length_singleton] at this
    rw [hshape]
    simpa using this
  obtain ⟨x₁, h₁, hagree₁⟩ := tryReshape_ok t (pre ++ l :: 1 :: post) (by simp [hshape])
  have hs₁ : x₁.shape = (pre ++ [l]) ++ 1 :: post := by simp [hagree₁.shape_eq, NdArray.reshape]
  obtain ⟨x₂, h₂, hs₂, hg₂⟩ := tryPad_axis x₁ 0 (s - 1) hs₁
  have hsum : 0 + 1 + (s - 1) = s := by omega
  rw [hsum] at hs₂ hg₂
  rw [Nat.cast_zero] at h₂
  have hs₂' : x₂.shape = pre ++ l :: s :: post := by simpa using hs₂
  have hmerged : ((pre ++ l :: 1 :: post).set pre.length (l * s)).eraseIdx (pre.length + 1)
      = pre ++ (l * s) :: post := by
    rw [set_append_length, List.eraseIdx_append_of_length_le (by omega)]
    simp
  obtain ⟨x₃, h₃, hagree₃⟩ := tryReshape_ok x₂ (pre ++ (l * s) :: post)
    (by simp [hs₂', Nat.mul_assoc])
  have hle : (l - 1) * s + 1 ≤ l * s := by
    have : l * s = (l - 1) * s + s := by
      rw [← Nat.succ_mul, Nat.succ_eq_add_one, Nat.sub_add_cancel hl]
    omega
  obtain ⟨x₄, h₄, hs₄, hg₄⟩ := tryShrink_axis x₃ hagree₃.shape_eq hle
  refine ⟨x₄, ?_, hs₄, fun p x q hp hx hq => ?_⟩
  · have hrank : t.shape.length + 1 = x₁.shape.length := by simp [hshape, hs₁]; omega
    have hpre : pre.length + 1 = (pre ++ [l]).length := by simp
    rw [dilateAxis, if_pos h1]
    simp only [hinsert]
    rw [bind_ok h₁, hrank, hpre]
    rw [bind_ok h₂, ← hpre, hmerged, bind_ok h₃]
    exact h₄
  · have hxl : x / s < l := by
      rw [Nat.div_lt_iff_lt_mul hs]
      omega
    have hxs : x % s < s := Nat.mod_lt _ hs
    have hsplit : SamePosition (pre ++ ([l, s] ++ post)) (p ++ ([x / s, x % s] ++ q))
        (pre ++ ([l * s] ++ post)) (p ++ ([x] ++ q)) := by
      have hm := SamePosition.merge hxl hxs
      rw [Nat.div_add_mod' x s] at hm
      exact (SamePosition.refl hp).append (hm.append (.refl hq))
    have hunit : SamePosition (pre ++ ([l] ++ ([] ++ post))) (p ++ ([x / s] ++ ([] ++ q)))
        (pre ++ ([l] ++ ([1] ++ post))) (p ++ ([x / s] ++ ([0] ++ q))) :=
      (SamePosition.refl hp).append ((SamePosition.refl (.cons hxl .nil)).append
        (SamePosition.unit.symm.append (.refl hq)))
    have hpad := hg₂ (p ++ [x / s]) (x % s) q (hp.append (.cons hxl .nil)) hxs hq
    calc x₄.get (p ++ x :: q)
        = x₃.get (p ++ x :: q) := hg₄ _ (hp.append (.cons hx hq))
      _ = (x₂.reshape (pre ++ (l * s) :: post)).get (p ++ x :: q) :=
          hagree₃.get_eq _ hsplit.inBounds'
      _ = x₂.get (p ++ x / s :: x % s :: q) := by
          refine x₂.reshape_get ?_
          rw [hs₂']
          exact hsplit
      _ = if x % s = 0 then x₁.get (p ++ x / s :: 0 :: q) else 0 := by
          rw [List.append_assoc] at hpad
          refine hpad.trans ?_
          by_cases h0 : x % s = 0
          · simp [h0]
          · rw [if_neg h0, if_neg (by omega)]
      _ = if x % s = 0 then t.get (p ++ (x / s) :: q) else 0 := by
          congr 1
          refine (hagree₁.get_eq _ hunit.inBounds').trans (t.reshape_get ?_)
          rw [hshape]
          exact hunit

/-- The offset of a kernel position. -/
theorem offsetAxis_ok [Zero α] (t : NdArray α) {pre post : List ℕ} {d : ℕ} (left right : ℕ)
    (hshape : t.shape = pre ++ d :: post) :
    ∃ u, offsetAxis t pre.length left right = .ok u ∧
      u.shape = pre ++ (left + d + right) :: post ∧
      ∀ p x q, InBounds p pre → x < left + d + right → InBounds q post →
        u.get (p ++ x :: q) =
          if left ≤ x ∧ x - left < d then t.get (p ++ (x - left) :: q) else 0 := by
  by_cases h : 0 < left ∨ 0 < right
  · obtain ⟨u, hu, hrest⟩ := tryPad_axis t left right hshape
    exact ⟨u, by rw [offsetAxis, if_pos h]; exact hu, hrest⟩
  · obtain ⟨rfl, rfl⟩ : left = 0 ∧ right = 0 := by omega
    refine ⟨t, if_neg h, by simpa using hshape, fun p x q _ hx _ => ?_⟩
    rw [if_pos (by omega), Nat.sub_zero]

/-- One axis of a placed slice. -/
theorem placeAxis_ok [Zero α] (t : NdArray α) {pre post : List ℕ} {a : ColAxis} {j k : ℕ}
    (ha : a.Valid) (hk : k < a.block) (hpre : pre.length = 1 + j)
    (hshape : t.shape = pre ++ a.positions :: post) :
    ∃ u, placeAxis t ((a, k), j) = .ok u ∧ u.shape = pre ++ a.width :: post ∧
      ∀ p x q, InBounds p pre → x < a.width → InBounds q post →
        u.get (p ++ x :: q) = ((a.hit k x).map fun l => t.get (p ++ l :: q)).getD 0 := by
  obtain ⟨y, hy, hys, hyg⟩ := dilateAxis_ok t a.positions_pos ha.stride_pos hshape
  obtain ⟨u, hu, hus, hug⟩ := offsetAxis_ok y (k * a.dilation) ((a.block - 1 - k) * a.dilation) hys
  have hw : k * a.dilation + ((a.positions - 1) * a.stride + 1) + (a.block - 1 - k) * a.dilation
      = a.width := by
    have : k * a.dilation + (a.block - 1 - k) * a.dilation = (a.block - 1) * a.dilation := by
      rw [← Nat.add_mul]
      congr 1
      omega
    simp only [ColAxis.width]
    omega
  rw [hw] at hus hug
  refine ⟨u, ?_, hus, fun p x q hp hx hq => ?_⟩
  · rw [hpre] at hy hu
    rw [placeAxis, bind_ok hy]
    exact hu
  · rw [hug p x q hp hx hq]
    have hpos := a.positions_pos
    by_cases hin : k * a.dilation ≤ x ∧ x - k * a.dilation < (a.positions - 1) * a.stride + 1
    · rw [if_pos hin, hyg p _ q hp hin.2 hq]
      by_cases hmod : (x - k * a.dilation) % a.stride = 0
      · have hdiv : (x - k * a.dilation) / a.stride < a.positions := by
          have hmul : a.positions * a.stride = (a.positions - 1) * a.stride + a.stride := by
            rw [← Nat.succ_mul, Nat.succ_eq_add_one, Nat.sub_add_cancel hpos]
          have hs := ha.stride_pos
          rw [Nat.div_lt_iff_lt_mul hs]
          omega
        rw [if_pos hmod, ColAxis.hit, if_pos ⟨hin.1, hmod, hdiv⟩]
        rfl
      · rw [if_neg hmod, ColAxis.hit, if_neg fun h => hmod h.2.1]
        rfl
    · rw [if_neg hin]
      have hmiss : a.hit k x = none := by
        rw [Option.eq_none_iff_forall_ne_some]
        intro l hl
        obtain ⟨hlt, hx'⟩ := (ColAxis.hit_eq_some ha).mp hl
        have hle : l * a.stride ≤ (a.positions - 1) * a.stride :=
          Nat.mul_le_mul_right _ (by omega)
        exact hin ⟨by omega, by omega⟩
      rw [hmiss]
      rfl

/-! ## All axes of a slice -/

/-- The sliding positions whose kernel positions lie at the coordinates. -/
def hits : List (ColAxis × ℕ) → List ℕ → Option (List ℕ)
  | [], _ => some []
  | c :: cells, x :: xs => (c.1.hit c.2 x).bind fun l => (hits cells xs).map (l :: ·)
  | _ :: _, [] => none

/-- The coordinates at which sliding position `l` of kernel position `k` lies. -/
def landing (cells : List (ColAxis × ℕ)) (l : List ℕ) : List ℕ :=
  List.zipWith (fun c l => l * c.1.stride + c.2 * c.1.dilation) cells l

/-- A kernel position on every axis. -/
def CellsValid (cells : List (ColAxis × ℕ)) : Prop :=
  ∀ c ∈ cells, c.1.Valid ∧ c.2 < c.1.block

theorem hits_eq_some {cells : List (ColAxis × ℕ)} (h : CellsValid cells) {x l : List ℕ}
    (hx : x.length = cells.length) :
    hits cells x = some l ↔ InBounds l (cells.map (·.1.positions)) ∧ landing cells l = x := by
  induction cells generalizing x l with
  | nil =>
    obtain rfl := List.length_eq_zero_iff.mp hx
    simp [hits, landing, eq_comm]
  | cons c cells ih =>
    obtain _ | ⟨x, xs⟩ := x
    · simp at hx
    have hc := (h c (by simp)).1
    have ih' : ∀ {l : List ℕ}, hits cells xs = some l ↔
        InBounds l (cells.map (·.1.positions)) ∧ landing cells l = xs :=
      ih (fun c hc => h c (by simp [hc])) (by simpa using hx)
    simp only [hits, Option.bind_eq_some_iff, Option.map_eq_some_iff]
    constructor
    · rintro ⟨l₀, hl₀, ls, hls, rfl⟩
      obtain ⟨hlt, hland⟩ := (ColAxis.hit_eq_some hc).mp hl₀
      obtain ⟨hin, hlands⟩ := ih'.mp hls
      exact ⟨.cons hlt hin, by simp [landing, hland, ← hlands]⟩
    · rintro ⟨hin, hland⟩
      obtain _ | ⟨l₀, ls⟩ := l
      · simp at hin
      obtain ⟨hlt, hins⟩ := List.forall₂_cons.mp hin
      simp only [landing, List.zipWith_cons_cons, List.cons.injEq] at hland
      exact ⟨l₀, (ColAxis.hit_eq_some hc).mpr ⟨hlt, hland.1⟩, ls, ih'.mpr ⟨hins, hland.2⟩, rfl⟩

/-- The axes from the `j`-th on, placed one after the other. -/
theorem foldlM_placeAxis [Zero α] {cells : List (ColAxis × ℕ)} (h : CellsValid cells)
    (t : NdArray α) (pre : List ℕ) {j : ℕ} (hpre : pre.length = 1 + j)
    (hshape : t.shape = pre ++ cells.map (·.1.positions)) :
    ∃ u, (cells.zipIdx j).foldlM placeAxis t = .ok u ∧
      u.shape = pre ++ cells.map (·.1.width) ∧
      ∀ p x, InBounds p pre → InBounds x (cells.map (·.1.width)) →
        u.get (p ++ x) = ((hits cells x).map fun l => t.get (p ++ l)).getD 0 := by
  induction cells generalizing t pre j with
  | nil =>
    refine ⟨t, rfl, hshape, fun p x _ hx => ?_⟩
    obtain rfl : x = [] := by simpa using hx
    rfl
  | cons c cells ih =>
    obtain ⟨hc, hk⟩ := h c (by simp)
    obtain ⟨t', ht', hs', hg'⟩ := placeAxis_ok t hc hk hpre hshape
    obtain ⟨u, hu, hus, hug⟩ := ih (fun c hc => h c (by simp [hc])) t'
      (pre ++ [c.1.width]) (j := j + 1) (by simp [hpre]; omega) (by rw [hs', List.append_assoc]; rfl)
    refine ⟨u, ?_, by simp [hus], fun p x hp hx => ?_⟩
    · rw [List.zipIdx_cons, List.foldlM_cons, bind_ok ht']
      exact hu
    · obtain _ | ⟨x, xs⟩ := x
      · simp at hx
      obtain ⟨hx₀, hxs⟩ := List.forall₂_cons.mp hx
      have hrest := hug (p ++ [x]) xs (hp.append (.cons hx₀ .nil)) hxs
      rw [List.append_assoc, List.singleton_append] at hrest
      rw [hrest]
      simp only [hits]
      cases hhits : hits cells xs with
      | none =>
        cases c.1.hit c.2 x <;> rfl
      | some ls =>
        have hls := ((hits_eq_some (fun c hc => h c (by simp [hc]))
          (by simpa using hxs.length_eq)).mp hhits).1
        have hone := hg' p x ls hp hx₀ hls
        simp only [Option.map_some, Option.getD_some, List.append_assoc, List.singleton_append]
        rw [hone]
        cases c.1.hit c.2 x <;> rfl

theorem cellsValid_zip (hvalid : ∀ a ∈ axes, a.Valid) (hkpos : InBounds kpos (axes.map (·.block))) :
    CellsValid (axes.zip kpos) := by
  have hlen : kpos.length = axes.length := by simpa using hkpos.length_eq
  intro c hc
  have hmem := List.of_mem_zip hc
  obtain ⟨d, hd, rfl⟩ := List.getElem_of_mem hc
  refine ⟨hvalid _ hmem.1, ?_⟩
  have hd' : d < kpos.length := by simp at hd; omega
  have hlt := hkpos.get hd' (by simpa [← hlen] using hd')
  simpa using hlt

theorem map_zip_fst (hlen : kpos.length = axes.length) (g : ColAxis → ℕ) :
    (axes.zip kpos).map (fun c => g c.1) = axes.map g := by
  rw [show (fun c : ColAxis × ℕ => g c.1) = g ∘ Prod.fst from rfl, ← List.map_map,
    List.map_fst_zip (by omega)]

/-- The sliding positions found are positions. -/
theorem hits_inBounds {kpos x l : List ℕ} (hvalid : ∀ a ∈ axes, a.Valid)
    (hkpos : InBounds kpos (axes.map (·.block))) (hx : x.length = axes.length)
    (h : hits (axes.zip kpos) x = some l) : InBounds l (axes.map (·.positions)) := by
  have hlen : kpos.length = axes.length := by simpa using hkpos.length_eq
  have hin := ((hits_eq_some (cellsValid_zip hvalid hkpos) (by simp [hx, hlen])).mp h).1
  rwa [map_zip_fst hlen] at hin

/-- The slice of a kernel position: an element of the columns at its landing, zero elsewhere. -/
theorem col2imSlice_ok [Zero α] (data : NdArray α) {nc : ℕ} (hvalid : ∀ a ∈ axes, a.Valid)
    (hkpos : InBounds kpos (axes.map (·.block)))
    (hshape : data.shape = nc :: axes.map (·.block) ++ axes.map (·.positions)) :
    ∃ u, col2imSlice data nc axes kpos = .ok u ∧ u.shape = nc :: axes.map (·.width) ∧
      ∀ x₀ x, x₀ < nc → InBounds x (axes.map (·.width)) →
        u.get (x₀ :: x) =
          ((hits (axes.zip kpos) x).map fun l => data.get (x₀ :: kpos ++ l)).getD 0 := by
  have hlen : kpos.length = axes.length := by simpa using hkpos.length_eq
  have hcells := cellsValid_zip hvalid hkpos
  have hzip := map_zip_fst hlen
  -- one kernel position of the columns
  have hfits : List.Forall₂ ShrinkRange.Fits
      (.isize 0 nc :: (kpos.map fun k : ℕ => .isize k (k + 1))
        ++ axes.map fun a => .isize 0 a.positions) data.shape := by
    rw [hshape]
    refine .cons ⟨⟨Int.le_refl _, Int.natCast_nonneg nc⟩, Nat.zero_le _, Nat.le_refl _⟩
      (List.rel_append ?_ ?_)
    · exact List.forall₂_map_left_iff.mpr (hkpos.imp fun k b hkb =>
        ⟨⟨Int.natCast_nonneg k, by omega⟩, by simp [ShrinkRange.bounds],
          by simp [ShrinkRange.bounds]; omega⟩)
    · refine List.forall₂_map_left_iff.mpr (List.forall₂_map_right_iff.mpr
        (List.forall₂_same.mpr fun a _ => ?_))
      exact ⟨⟨Int.le_refl _, Int.natCast_nonneg _⟩, Nat.zero_le _, Nat.le_refl _⟩
  obtain ⟨x₁, h₁, hagree₁⟩ := tryShrink_ok data hfits
  have hoffsets : List.zipWith (fun (r : ShrinkRange) s => (r.bounds s).1)
      (.isize 0 nc :: (kpos.map fun k : ℕ => .isize k (k + 1))
        ++ axes.map fun a => .isize 0 a.positions) data.shape
      = 0 :: kpos ++ List.replicate axes.length 0 := by
    rw [hshape, List.cons_append, List.cons_append, List.zipWith_cons_cons,
      List.zipWith_append (by simp [hlen]), List.cons_append]
    congr 2
    · refine List.ext_getElem (by simp [hlen]) fun d _ _ => by simp [ShrinkRange.bounds]
    · refine List.ext_getElem (by simp) fun d _ _ => by simp [ShrinkRange.bounds]
  have hsizes : List.zipWith (fun (r : ShrinkRange) s => (r.bounds s).2 - (r.bounds s).1)
      (.isize 0 nc :: (kpos.map fun k : ℕ => .isize k (k + 1))
        ++ axes.map fun a => .isize 0 a.positions) data.shape
      = nc :: List.replicate axes.length 1 ++ axes.map (·.positions) := by
    rw [hshape, List.cons_append, List.cons_append, List.zipWith_cons_cons,
      List.zipWith_append (by simp [hlen]), List.cons_append]
    congr 2
    · refine List.ext_getElem (by simp [hlen]) fun d _ _ => by simp [ShrinkRange.bounds]
    · refine List.ext_getElem (by simp) fun d _ _ => by simp [ShrinkRange.bounds]
  rw [hoffsets, hsizes] at hagree₁
  have hs₁ : x₁.shape = nc :: List.replicate axes.length 1 ++ axes.map (·.positions) :=
    hagree₁.shape_eq
  obtain ⟨x₂, h₂, hagree₂⟩ := tryReshape_ok x₁ (nc :: axes.map (·.positions)) (by simp [hs₁])
  obtain ⟨u, hu, hus, hug⟩ := foldlM_placeAxis hcells x₂ [nc] (j := 0) rfl (by
    rw [hzip]
    exact hagree₂.shape_eq)
  rw [hzip] at hus hug
  refine ⟨u, ?_, hus, fun x₀ x hx₀ hx => ?_⟩
  · rw [col2imSlice, bind_ok h₁, bind_ok h₂]
    exact hu
  · have hget := hug [x₀] x (.cons hx₀ .nil) hx
    simp only [List.singleton_append] at hget
    rw [hget]
    cases hhits : hits (axes.zip kpos) x with
    | none => rfl
    | some l =>
      have hin := hits_inBounds hvalid hkpos (by simpa using hx.length_eq) hhits
      simp only [Option.map_some, Option.getD_some]
      have hpos : SamePosition ([nc] ++ (List.replicate axes.length 1 ++ axes.map (·.positions)))
          ([x₀] ++ (List.replicate axes.length 0 ++ l)) ([nc] ++ ([] ++ axes.map (·.positions)))
          ([x₀] ++ ([] ++ l)) :=
        (SamePosition.refl (.cons hx₀ .nil)).append ((SamePosition.units _).append (.refl hin))
      calc x₂.get (x₀ :: l)
          = (x₁.reshape (nc :: axes.map (·.positions))).get (x₀ :: l) :=
            hagree₂.get_eq _ hpos.inBounds'
        _ = x₁.get (x₀ :: (List.replicate axes.length 0 ++ l)) := by
            refine x₁.reshape_get ?_
            rw [hs₁]
            exact hpos
        _ = data.get (x₀ :: kpos ++ l) := by
            refine (hagree₁.get_eq _ hpos.inBounds).trans (congrArg data.get ?_)
            have hll : l.length = axes.length := by simpa using hin.length_eq
            simp only [List.singleton_append]
            rw [List.cons_append, List.zipWith_cons_cons, Nat.zero_add,
              List.zipWith_append (by simp [hlen]), List.cons_append]
            congr 2
            · refine List.ext_getElem (by simp [hlen]) fun d _ _ => by simp
            · rw [← hll, zipWith_add_zero]

/-! ## The sum of the slices -/

/-- What the slice of a kernel position holds at coordinates of the padded image. -/
def contribution [Zero α] (data : NdArray α) (axes : List ColAxis) (x₀ : ℕ) (x kpos : List ℕ) : α :=
  ((hits (axes.zip kpos) x).map fun l => data.get (x₀ :: kpos ++ l)).getD 0

/-- The coordinates of a slice that is repeated along its single-element axes. -/
def clip (axes : List ColAxis) (x : List ℕ) : List ℕ :=
  List.zipWith (fun a x => if a.width = 1 then 0 else x) axes x

/-- The slices fit the padded image, or broadcast to it. -/
def Broadcasts (axes : List ColAxis) : Prop := ∀ a ∈ axes, a.width = a.padded ∨ a.width = 1

theorem clip_inBounds (h : Broadcasts axes) {x : List ℕ} (hx : InBounds x (axes.map (·.padded))) :
    InBounds (clip axes x) (axes.map (·.width)) := by
  induction axes generalizing x with
  | nil => simp [clip]
  | cons a axes ih =>
    obtain _ | ⟨y, x⟩ := x
    · simp at hx
    obtain ⟨hy, hxs⟩ := List.forall₂_cons.mp hx
    refine .cons ?_ (ih (fun a ha => h a (by simp [ha])) hxs)
    change y < a.padded at hy
    show (if a.width = 1 then 0 else y) < a.width
    have ha := h a (by simp)
    split <;> omega

/-- The kernel position of the loop is the row-major one. -/
theorem foldr_unravelBlock (blockShape : List ℕ) (be : ℕ) :
    blockShape.foldr (fun b s => (s.2 % b :: s.1, s.2 / b)) (([] : List ℕ), be)
      = (unravel blockShape (be % blockShape.prod), be / blockShape.prod) := by
  induction blockShape with
  | nil => simp [unravel]
  | cons b block ih =>
    rw [List.foldr_cons, ih]
    simp only [unravel, List.prod_cons]
    rw [Nat.mod_mul_left_div_self, Nat.mod_mod_of_dvd _ (Dvd.intro_left b rfl),
      Nat.div_div_eq_div_mul, Nat.mul_comm block.prod]

theorem unravelBlock_eq {blockShape : List ℕ} {be : ℕ} (h : be < blockShape.prod) :
    unravelBlock blockShape be = unravel blockShape be := by
  rw [unravelBlock, foldr_unravelBlock, Nat.mod_eq_of_lt h]

/-- One slice added to the padded image. -/
theorem tryAdd_slice_ok [AddCommMonoid α] {data result : NdArray α} {nc : ℕ} (kpos : List ℕ)
    (hvalid : ∀ a ∈ axes, a.Valid) (hbroadcasts : Broadcasts axes)
    (hkpos : InBounds kpos (axes.map (·.block)))
    (hdata : data.shape = nc :: axes.map (·.block) ++ axes.map (·.positions))
    (hresult : result.shape = nc :: axes.map (·.padded)) :
    ∃ u, (col2imSlice data nc axes kpos >>= fun slice => tryAdd result slice) = .ok u ∧
      u.shape = nc :: axes.map (·.padded) ∧
      ∀ x₀ x, x₀ < nc → InBounds x (axes.map (·.padded)) →
        u.get (x₀ :: x) = result.get (x₀ :: x) + contribution data axes x₀ (clip axes x) kpos := by
  obtain ⟨slice, hs, hss, hsg⟩ := col2imSlice_ok data hvalid hkpos hdata
  have hexpand : List.Forall₂ (fun s n => s = n ∨ s = 1) slice.shape result.shape := by
    rw [hss, hresult]
    exact .cons (.inl rfl) (List.forall₂_map_left_iff.mpr (List.forall₂_map_right_iff.mpr
      (List.forall₂_same.mpr fun a ha => hbroadcasts a ha)))
  obtain ⟨u, hu, hagree⟩ := tryBinary_expand (· + ·) hexpand
  refine ⟨u, by rw [bind_ok hs]; exact hu, hagree.shape_eq.trans hresult, fun x₀ x hx₀ hx => ?_⟩
  have hin : InBounds (x₀ :: x) result.shape := hresult ▸ .cons hx₀ hx
  refine (hagree.get_eq _ hin).trans (congrArg (result.get (x₀ :: x) + ·) ?_)
  have hcoords : List.zipWith (fun s x => if s = 1 then 0 else x) slice.shape (x₀ :: x)
      = x₀ :: clip axes x := by
    have hhead : (if nc = 1 then 0 else x₀) = x₀ := by split <;> omega
    rw [hss, List.zipWith_cons_cons, hhead, List.zipWith_map_left]
    rfl
  calc slice.get (List.zipWith (fun s x => if s = 1 then 0 else x) slice.shape (x₀ :: x))
      = slice.get (x₀ :: clip axes x) := by rw [hcoords]
    _ = contribution data axes x₀ (clip axes x) kpos :=
        hsg x₀ _ hx₀ (clip_inBounds hbroadcasts hx)

/-- The loop over kernel positions adds their contributions. -/
theorem foldlM_slices [AddCommMonoid α] {data : NdArray α} {nc : ℕ} {blockShape : List ℕ}
    (hvalid : ∀ a ∈ axes, a.Valid) (hbroadcasts : Broadcasts axes)
    (hblock : axes.map (·.block) = blockShape)
    (hdata : data.shape = nc :: axes.map (·.block) ++ axes.map (·.positions)) (bes : List ℕ)
    (hbes : ∀ be ∈ bes, be < blockShape.prod) (r : NdArray α)
    (hr : r.shape = nc :: axes.map (·.padded)) :
    ∃ u, bes.foldlM (fun result be => do
          let slice ← col2imSlice data nc axes (unravelBlock blockShape be)
          tryAdd result slice) r = .ok u ∧
      u.shape = nc :: axes.map (·.padded) ∧
      ∀ x₀ x, x₀ < nc → InBounds x (axes.map (·.padded)) →
        u.get (x₀ :: x) = r.get (x₀ :: x) +
          (bes.map fun be => contribution data axes x₀ (clip axes x) (unravel blockShape be)).sum
    := by
  induction bes generalizing r with
  | nil => exact ⟨r, rfl, hr, fun x₀ x _ _ => by simp⟩
  | cons be bes ih =>
    have hbe := hbes be (by simp)
    obtain ⟨r', hr', hs', hg'⟩ := tryAdd_slice_ok (unravel blockShape be) hvalid
      hbroadcasts (by rw [hblock]; exact unravel_inBounds hbe) hdata hr
    obtain ⟨u, hu, hus, hug⟩ := ih (fun b hb => hbes b (by simp [hb])) r' hs'
    refine ⟨u, ?_, hus, fun x₀ x hx₀ hx => ?_⟩
    · rw [List.foldlM_cons, unravelBlock_eq hbe, bind_ok hr']
      exact hu
    · rw [hug x₀ x hx₀ hx, hg' x₀ x hx₀ hx, List.map_cons, List.sum_cons, add_assoc]

end Svod.Tensor.Nd
