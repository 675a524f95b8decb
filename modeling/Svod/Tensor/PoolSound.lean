/-
  Svod.Tensor.PoolSound

  `pool` extracts the windows: the element at window `o` and kernel position `k`
  is the input's at `o * stride + k * dilation`, on every spatial axis.

  Each step of the chain moves coordinates within the group of its axis, so the
  element is followed backwards through the groups, one step at a time.
-/

import Svod.Tensor.Pool
import Svod.Tensor.ShapeOpsSpec

namespace Svod.Tensor.Nd

open Svod.Lib Svod.Ir

variable {α : Type}
variable {batch : List ℕ} {axes : List PoolAxis}

/-! ## One axis -/

theorem le_ceildiv_mul (a : ℕ) {b : ℕ} (hb : 0 < b) : a ≤ ceildiv a b * b := by
  unfold ceildiv
  have h := Nat.div_add_mod (a + b - 1) b
  have hm := Nat.mod_lt (a + b - 1) hb
  rw [Nat.mul_comm] at h
  omega

/-- A multiple of `b` below the rounded-up quotient stays below `a`. -/
theorem mul_lt_of_lt_ceildiv {a b x : ℕ} (hb : 0 < b) (h : x < ceildiv a b) : x * b < a := by
  unfold ceildiv at h
  have h1 : (x + 1) * b ≤ a + b - 1 := by
    rw [← Nat.le_div_iff_mul_le hb]
    exact h
  rw [Nat.add_mul, Nat.one_mul] at h1
  omega

namespace PoolAxis

/-- The parameters the operation is defined for. -/
structure Valid (a : PoolAxis) : Prop where
  kernel_pos : 1 ≤ a.kernel
  stride_pos : 1 ≤ a.stride
  fits : a.Fits

variable {a : PoolAxis}

theorem Valid.i_pos (h : a.Valid) : 0 < a.i := Nat.lt_of_le_of_lt (Nat.zero_le _) h.fits

/-- The fold factor leaves room for every window start in a row. -/
theorem Valid.o_mul_stride_le_row (h : a.Valid) : a.o * a.stride ≤ a.row := by
  have hf : ceildiv (max (a.o * a.stride) a.dilation - a.dilation) a.i ≤ a.f := Nat.le_max_right _ _
  have hle := le_ceildiv_mul (max (a.o * a.stride) a.dilation - a.dilation) h.i_pos
  have hmul := Nat.mul_le_mul_right a.i hf
  rw [row, Nat.mul_comm a.i]
  omega

/-- The input position of kernel position `k` in window `o`. -/
theorem Valid.window_lt (h : a.Valid) {o k : ℕ} (ho : o < a.o) (hk : k < a.kernel) :
    o * a.stride + k * a.dilation < a.i := by
  have hwin := mul_lt_of_lt_ceildiv h.stride_pos ho
  have hkd : k * a.dilation ≤ a.dilation * (a.kernel - 1) := by
    rw [Nat.mul_comm]
    exact Nat.mul_le_mul_left _ (by omega)
  omega

/-- The wrap-around of the repeat lands on the window's position. -/
theorem Valid.row_mod (h : a.Valid) {o k : ℕ} (ho : o < a.o) (hk : k < a.kernel) :
    (k * a.row + o * a.stride) % a.i = o * a.stride + k * a.dilation := by
  have hsplit : k * a.row + o * a.stride
      = (o * a.stride + k * a.dilation) + a.i * (k * a.f) := by
    rw [row]
    ring
  rw [hsplit, Nat.add_mul_mod_self_left, Nat.mod_eq_of_lt (h.window_lt ho hk)]

theorem Valid.start_lt_row (h : a.Valid) {o : ℕ} (ho : o < a.o) : o * a.stride < a.row := by
  have h1 : o * a.stride < a.o * a.stride := Nat.mul_lt_mul_of_pos_right ho h.stride_pos
  exact Nat.lt_of_lt_of_le h1 h.o_mul_stride_le_row

end PoolAxis

/-! ## The chain of steps -/

/-- An axis with a window and a kernel position on it. -/
structure WindowEntry where
  axis : PoolAxis
  o : ℕ
  k : ℕ

/-- The window and the kernel position exist. -/
structure WindowEntry.InRange (e : WindowEntry) : Prop where
  o_lt : e.o < e.axis.o
  k_lt : e.k < e.axis.kernel

theorem map_eq_flatMap_singleton {ι β : Type} (l : List ι) (f : ι → β) :
    l.map f = l.flatMap fun a => [f a] := by
  induction l with
  | nil => rfl
  | cons a l ih => simp [ih]

/-- The last axes of the permutation: output positions first, then kernel positions. -/
theorem poolPerm_perm (b n : ℕ) :
    (List.range b ++ (List.range n).map (b + · * 2 + 1) ++ (List.range n).map (b + · * 2)).Perm
      (List.range (b + n * 2)) := by
  refine (List.perm_ext_iff_of_nodup ?_ List.nodup_range).mpr fun d => ?_
  · have h₁ : ((List.range n).map (b + · * 2 + 1)).Nodup :=
      List.nodup_range.map fun _ _ h => by simp at h; omega
    have h₂ : ((List.range n).map (b + · * 2)).Nodup :=
      List.nodup_range.map fun _ _ h => by simp at h; omega
    refine List.Nodup.append (List.Nodup.append List.nodup_range h₁ ?_) h₂ ?_
    · intro d hd hd'
      simp only [List.mem_range, List.mem_map] at hd hd'
      omega
    · intro d hd hd'
      simp only [List.mem_append, List.mem_range, List.mem_map] at hd hd'
      omega
  · simp only [List.mem_append, List.mem_range, List.mem_map]
    constructor
    · rintro ((h | ⟨j, hj, rfl⟩) | ⟨j, hj, rfl⟩) <;> omega
    · intro h
      by_cases hb : d < b
      · exact .inl (.inl hb)
      · rcases Nat.mod_two_eq_zero_or_one (d - b) with hm | hm
        · exact .inr ⟨(d - b) / 2, by omega, by omega⟩
        · exact .inl (.inr ⟨(d - b) / 2, by omega, by omega⟩)

theorem getD_flatMap_pair {ι : Type} (l : List ι) (f g : ι → ℕ) {j : ℕ} (hj : j < l.length) :
    (l.flatMap fun a => [f a, g a]).getD (j * 2) 0 = f l[j] ∧
      (l.flatMap fun a => [f a, g a]).getD (j * 2 + 1) 0 = g l[j] := by
  induction l generalizing j with
  | nil => simp at hj
  | cons a l ih =>
    cases j with
    | zero => simp
    | succ j =>
      have h := ih (j := j) (by simpa using hj)
      have he : (j + 1) * 2 = j * 2 + 1 + 1 := by omega
      simpa [he, List.flatMap_cons] using h

/-- Reading the pairs of every axis through the permutation. -/
theorem poolPerm_map {ι : Type} (pre : List ℕ) (l : List ι) (f g : ι → ℕ) :
    (List.range pre.length ++ (List.range l.length).map (pre.length + · * 2 + 1)
        ++ (List.range l.length).map (pre.length + · * 2)).map
      ((pre ++ l.flatMap fun a => [f a, g a]).getD · 0) = pre ++ l.map g ++ l.map f := by
  simp only [List.map_append, List.map_map]
  congr 1
  · congr 1
    · refine List.ext_getElem (by simp) fun d h₁ h₂ => ?_
      rw [List.getElem_map, List.getElem_range, List.getD_append _ _ _ _ h₂,
        List.getD_eq_getElem _ _ h₂]
    · refine List.ext_getElem (by simp) fun d h₁ h₂ => ?_
      have hd : d < l.length := by simpa using h₂
      simp only [List.getElem_map, List.getElem_range, Function.comp_apply]
      rw [List.getD_append_right _ _ _ _ (by omega), show pre.length + d * 2 + 1 - pre.length
        = d * 2 + 1 by omega, (getD_flatMap_pair l f g hd).2]
  · refine List.ext_getElem (by simp) fun d h₁ h₂ => ?_
    have hd : d < l.length := by simpa using h₂
    simp only [List.getElem_map, List.getElem_range, Function.comp_apply]
    rw [List.getD_append_right _ _ _ _ (by omega), show pre.length + d * 2 - pre.length
      = d * 2 by omega, (getD_flatMap_pair l f g hd).1]

/-- The shape after the repeat. -/
theorem zipWith_repeats {shape batch : List ℕ} (hshape : shape = batch ++ axes.map (·.i)) :
    List.zipWith (· * ·)
      (List.replicate batch.length 1 ++ axes.map fun a => ceildiv (a.kernel * a.row) a.i) shape
      = batch ++ axes.map (·.repeated) := by
  rw [hshape, List.zipWith_append (by simp)]
  congr 1
  · refine List.ext_getElem (by simp) fun d _ _ => by simp
  · simp only [List.zipWith_map, List.zipWith_self]
    rfl

/-- A repeated input that is not read back. -/
theorem poolSplit_error (t : NdArray α) (hshape : t.shape = batch ++ axes.map (·.i))
    (hread : ¬ Readable (batch ++ axes.map (·.repeated))) :
    poolSplit t batch axes = .error .shapeUnknown := by
  rw [poolSplit, bind_error (repeatAxes_error t _ (by simp [hshape])
    (zipWith_repeats hshape ▸ hread))]

/-- The element before the permutation, followed back through the seven steps. -/
theorem poolSplit_ok (t : NdArray α) (hshape : t.shape = batch ++ axes.map (·.i))
    (hvalid : ∀ a ∈ axes, a.Valid) (hread : Readable (batch ++ axes.map (·.repeated))) :
    ∃ u, poolSplit t batch axes = .ok u ∧
      u.shape = batch ++ axes.flatMap (fun a => [a.kernel, a.o]) ∧
      ∀ (b : List ℕ) (cells : List WindowEntry), InBounds b batch →
        cells.map (·.axis) = axes → (∀ e ∈ cells, e.InRange) →
        u.get (b ++ cells.flatMap fun e => [e.k, e.o]) =
          t.get (b ++ cells.map fun e => e.o * e.axis.stride + e.k * e.axis.dilation) := by
  -- the tensor after each step
  obtain ⟨x₁, h₁, hs₁, hg₁⟩ := repeatAxes_ok t
    (List.replicate batch.length 1 ++ axes.map fun a => ceildiv (a.kernel * a.row) a.i)
    (by simp [hshape]) (zipWith_repeats hshape ▸ hread)
  rw [zipWith_repeats hshape, map_eq_flatMap_singleton axes] at hs₁ hg₁
  obtain ⟨x₂, h₂, hs₂, hg₂⟩ := tryShrink_axes x₁ (fun a => [a.kernel * a.row]) hs₁
    fun a ha => .cons (le_ceildiv_mul _ (hvalid a ha).i_pos) .nil
  obtain ⟨x₃, h₃, hs₃, hg₃⟩ := tryReshape_axes x₂ (fun a => [a.kernel, a.row]) hs₂
    fun a _ => by simp
  obtain ⟨x₄, h₄, hs₄, hg₄⟩ := tryShrink_axes x₃ (fun a => [a.kernel, a.o * a.stride]) hs₃
    fun a ha => .cons (Nat.le_refl _) (.cons (hvalid a ha).o_mul_stride_le_row .nil)
  obtain ⟨x₅, h₅, hs₅, hg₅⟩ := tryReshape_axes x₄ (fun a => [a.kernel, a.o, a.stride]) hs₄
    fun a _ => by simp
  obtain ⟨x₆, h₆, hs₆, hg₆⟩ := tryShrink_axes x₅ (fun a => [a.kernel, a.o, 1]) hs₅
    fun a ha => .cons (Nat.le_refl _) (.cons (Nat.le_refl _) (.cons (hvalid a ha).stride_pos .nil))
  obtain ⟨x₇, h₇, hs₇, hg₇⟩ := tryReshape_axes x₆ (fun a => [a.kernel, a.o]) hs₆
    fun a _ => by simp
  refine ⟨x₇, ?_, hs₇, fun b cells hb haxes hrange => ?_⟩
  · simp only [List.map_cons, List.map_nil] at h₂ h₄ h₆
    rw [poolSplit, bind_ok h₁, bind_ok h₂, bind_ok h₃, bind_ok h₄, bind_ok h₅, bind_ok h₆]
    exact h₇
  · subst haxes
    simp only [List.flatMap_map] at hg₁ hg₂ hg₃ hg₄ hg₅ hg₆ hg₇
    have hb' := SamePosition.refl hb
    -- the entry of each step at the same position
    have hp₇ := hb'.append <| SamePosition.flatMap cells (fun e => [e.axis.kernel, e.axis.o, 1])
      (fun e => [e.k, e.o, 0]) (fun e => [e.axis.kernel, e.axis.o]) (fun e => [e.k, e.o])
      fun e he => (SamePosition.refl (.cons (hrange e he).k_lt
        (.cons (hrange e he).o_lt .nil))).append .unit
    have hp₅ := hb'.append <| SamePosition.flatMap cells
      (fun e => [e.axis.kernel, e.axis.o * e.axis.stride]) (fun e => [e.k, e.o * e.axis.stride])
      (fun e => [e.axis.kernel, e.axis.o, e.axis.stride]) (fun e => [e.k, e.o, 0])
      fun e he => (SamePosition.refl (.cons (hrange e he).k_lt .nil)).append
        (SamePosition.merge (hrange e he).o_lt
          (hvalid e.axis (List.mem_map_of_mem he)).stride_pos).symm
    have hp₃ := hb'.append <| SamePosition.flatMap cells (fun e => [e.axis.kernel * e.axis.row])
      (fun e => [e.k * e.axis.row + e.o * e.axis.stride])
      (fun e => [e.axis.kernel, e.axis.row]) (fun e => [e.k, e.o * e.axis.stride])
      fun e he => (SamePosition.merge (hrange e he).k_lt
        ((hvalid e.axis (List.mem_map_of_mem he)).start_lt_row (hrange e he).o_lt)).symm
    have hlast : InBounds (b ++ cells.flatMap fun e => [e.k * e.axis.row + e.o * e.axis.stride])
        (batch ++ cells.flatMap fun e => [e.axis.repeated]) := by
      refine hb.append (forall₂_flatMap fun e he => .cons ?_ .nil)
      have hv := hvalid e.axis (List.mem_map_of_mem he)
      have hmem := (SamePosition.merge (hrange e he).k_lt
        (hv.start_lt_row (hrange e he).o_lt)).inBounds'
      exact Nat.lt_of_lt_of_le (List.forall₂_cons.mp hmem).1 (le_ceildiv_mul _ hv.i_pos)
    rw [hg₇ _ _ hp₇, hg₆ _ hp₇.inBounds, hg₅ _ _ hp₅, hg₄ _ hp₅.inBounds, hg₃ _ _ hp₃,
      hg₂ _ hp₃.inBounds, hg₁ _ hlast, hshape]
    -- the repeat reads modulo the extent
    congr 1
    rw [List.zipWith_append hb.length_eq, ← map_eq_flatMap_singleton]
    rw [InBounds.mod_self hb, List.map_map, List.zipWith_map, List.zipWith_self]
    congr 1
    exact List.map_congr_left fun e he =>
      (hvalid e.axis (List.mem_map_of_mem he)).row_mod (hrange e he).o_lt (hrange e he).k_lt

theorem poolSteps_ok (t : NdArray α) (hshape : t.shape = batch ++ axes.map (·.i))
    (hvalid : ∀ a ∈ axes, a.Valid) (hread : Readable (batch ++ axes.map (·.repeated)))
    (h64 : batch.length + axes.length * 2 ≠ 64) :
    ∃ u, poolSteps t batch axes = .ok u ∧
      u.shape = batch ++ axes.map (·.o) ++ axes.map (·.kernel) ∧
      ∀ (b : List ℕ) (cells : List WindowEntry), InBounds b batch →
        cells.map (·.axis) = axes → (∀ e ∈ cells, e.InRange) →
        u.get (b ++ cells.map (·.o) ++ cells.map (·.k)) =
          t.get (b ++ cells.map fun e => e.o * e.axis.stride + e.k * e.axis.dilation) := by
  obtain ⟨x, hx, hxshape, hxget⟩ := poolSplit_ok t hshape hvalid hread
  have hrank : x.shape.length = batch.length + axes.length * 2 := by
    rw [hxshape]
    simp
  obtain ⟨u, hu, hagree⟩ := tryPermute_ok x (hrank ▸ poolPerm_perm batch.length axes.length)
    (hrank ▸ h64)
  have hshape' : u.shape = batch ++ axes.map (·.o) ++ axes.map (·.kernel) := by
    rw [hagree.shape_eq]
    simp only [NdArray.permute]
    rw [hxshape, poolPerm_map]
  refine ⟨u, by rw [poolSteps, bind_ok hx]; exact hu, hshape', fun b cells hb haxes hrange => ?_⟩
  rw [← hxget b cells hb haxes hrange]
  subst haxes
  have hlen : cells.length = (cells.map (·.axis)).length := by simp
  have hcoord := poolPerm_map b cells (·.k) (·.o)
  rw [hb.length_eq, hlen] at hcoord
  rw [← hcoord, hagree.get_eq]
  · refine x.permute_get ?_ ?_
    · rw [hrank]
      exact poolPerm_perm batch.length _
    · rw [hrank]
      simp [hb.length_eq]
  · rw [← hagree.shape_eq, hshape', hcoord]
    refine (hb.append ?_).append ?_ <;> rw [List.map_map]
    · exact List.forall₂_map_left_iff.mpr (List.forall₂_map_right_iff.mpr
        (List.forall₂_same.mpr fun e he => (hrange e he).o_lt))
    · exact List.forall₂_map_left_iff.mpr (List.forall₂_map_right_iff.mpr
        (List.forall₂_same.mpr fun e he => (hrange e he).k_lt))

/-- A repeated input that is not read back, or the permutation of exactly 64 dimensions. -/
theorem poolSteps_error (t : NdArray α) (hshape : t.shape = batch ++ axes.map (·.i))
    (hvalid : ∀ a ∈ axes, a.Valid)
    (h : ¬ Readable (batch ++ axes.map (·.repeated)) ∨ batch.length + axes.length * 2 = 64) :
    ∃ e, poolSteps t batch axes = .error e := by
  by_cases hread : Readable (batch ++ axes.map (·.repeated))
  swap
  · exact ⟨_, by rw [poolSteps, bind_error (poolSplit_error t hshape hread)]⟩
  obtain ⟨x, hx, hxshape, -⟩ := poolSplit_ok t hshape hvalid hread
  have hrank : x.shape.length = batch.length + axes.length * 2 := by
    rw [hxshape]
    simp
  obtain ⟨e, he⟩ := tryPermute_error x (hrank ▸ poolPerm_perm batch.length axes.length)
    (hrank.trans (h.resolve_left (not_not.mpr hread)))
  exact ⟨e, by rw [poolSteps, bind_ok hx]; exact he⟩

end Svod.Tensor.Nd
