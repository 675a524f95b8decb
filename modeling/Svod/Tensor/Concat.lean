/-
  Svod.Tensor.Concat

  Stacking of arrays of one shape along a new axis (`tensor/src/shape_ops.rs`).
-/

import Svod.Tensor.ShapeRules

namespace Svod.Tensor.Nd

open Svod.Lib Svod.Ir

variable {α : Type}

/-- `UOp::stack`: the arrays side by side on a new first axis. -/
def stackFirst (first : NdArray α) (rest : List (NdArray α)) : NdArray α where
  shape := (rest.length + 1) :: first.shape
  get c := ((first :: rest).getD (c.headD 0) first).get c.tail

/-- `stack`. -/
def stack (tensors : List (NdArray α)) (dim : ℤ) : Except ErrorKind (NdArray α) := do
  match tensors with
  | [] => throw (ErrorKind.irConstruction "stack requires at least one tensor")
  | first :: rest =>
    rest.zipIdx.forM fun x => ensure (x.1.shape = first.shape)
      (ErrorKind.shapeMismatch "stack" (toString first.shape)
        (toString x.1.shape ++ " for tensor " ++ toString (x.2 + 1)))
    let ndim := first.shape.length + 1
    let dim ← normalizeAxis dim ndim
    let stacked := stackFirst first rest
    if dim = 0 then return stacked
    -- move the new leading axis into position
    let axes := List.range' 1 dim ++ 0 :: List.range' (dim + 1) (ndim - (dim + 1))
    tryPermute stacked (axes.map (↑))

variable {s : List ℕ} {g : ℕ → List ℕ → α}

theorem stackFirst_holds {first : NdArray α} {rest : List (NdArray α)}
    (h : List.Forall₂ (fun (u : NdArray α) k => u.Holds s (g k)) (first :: rest)
      (List.range (rest.length + 1))) :
    (stackFirst first rest).Holds ((rest.length + 1) :: s) fun c => g (c.headD 0) c.tail := by
  have hfirst : first.shape = s := by
    rw [List.range_succ_eq_map] at h
    exact (List.forall₂_cons.mp h).1.shape_eq
  refine ⟨by simp [stackFirst, hfirst], fun c hc => ?_⟩
  obtain _ | ⟨x, c⟩ := c
  · simp at hc
  obtain ⟨hx, hc⟩ := List.forall₂_cons.mp hc
  have hx' : x < (first :: rest).length := hx
  have hk := h.get hx' (by simpa using hx)
  simp only [List.get_eq_getElem, List.getElem_range] at hk
  simp only [stackFirst, List.headD_cons, List.tail_cons]
  rw [List.getD_eq_getElem _ _ hx']
  exact hk.get_eq c hc

/-- The arrays stacked on axis `d`. -/
theorem stack_returns {tensors : List (NdArray α)} {n : ℕ} (hn : 0 < n)
    (h : List.Forall₂ (fun (u : NdArray α) k => u.Holds s (g k)) tensors (List.range n))
    {axis : ℤ} {d : ℕ} (haxis : IsAxis axis (s.length + 1) d) (hr : d = 0 ∨ s.length ≠ 63) :
    Returns (stack tensors axis) (s.insertIdx d n) fun c => g (c.getD d 0) (c.eraseIdx d) := by
  have hlen : tensors.length = n := by simpa using h.length_eq
  obtain _ | ⟨first, rest⟩ := tensors
  · simp at hlen
    omega
  rw [List.length_cons] at hlen
  subst hlen
  have hshapes : ∀ u ∈ first :: rest, u.shape = s := by
    intro u hu
    obtain ⟨k, hk, rfl⟩ := List.getElem_of_mem hu
    exact (h.get hk (by simpa using hk)).shape_eq
  have hfirst := hshapes first (by simp)
  have hchecks : rest.zipIdx.forM (fun x => ensure (x.1.shape = first.shape)
      (ErrorKind.shapeMismatch "stack" (toString first.shape)
        (toString x.1.shape ++ " for tensor " ++ toString (x.2 + 1)))) = .ok () := by
    refine forM_ok fun x hx => ensure_of_true ?_ _
    obtain ⟨hlt, hval⟩ := List.mem_zipIdx' hx
    rw [hfirst, hval]
    exact hshapes _ (List.mem_cons_of_mem _ (List.getElem_mem _))
  have haxis' : normalizeAxis axis (first.shape.length + 1) = .ok d := by rw [hfirst]; exact haxis
  have hholds := stackFirst_holds h
  unfold stack
  simp only [hchecks, haxis']
  rw [bind_ok rfl, bind_ok rfl]
  by_cases hd : d = 0
  · subst hd
    rw [if_pos rfl]
    refine Returns.ok (hholds.congr fun c hc => ?_)
    obtain _ | ⟨x, c⟩ := c
    · simp at hc
    · rfl
  · rw [if_neg hd]
    have hle : d ≤ s.length := Nat.lt_succ_iff.mp haxis.lt
    have haxes : List.range' 1 d ++ 0 :: List.range' (d + 1) (first.shape.length + 1 - (d + 1)) =
        ((List.range s.length).map (· + 1)).insertIdx d 0 := by
      have hsplit : (List.range s.length).map (· + 1) =
          List.range' 1 d ++ List.range' (d + 1) (s.length - d) := by
        have hsucc : (List.range s.length).map (· + 1) = List.range' 1 s.length := by
          rw [List.range_eq_range', List.range'_eq_map_range, List.range'_eq_map_range,
            List.map_map]
          exact List.map_congr_left fun k _ => by simp [Nat.add_comm]
        rw [hsucc, Nat.add_comm d 1, List.range'_append_1, Nat.add_sub_cancel' hle]
      have hinsert := insertIdx_append_length (List.range' 1 d)
        (List.range' (d + 1) (s.length - d)) 0
      rw [List.length_range'] at hinsert
      rw [hsplit, hfirst, Nat.add_sub_add_right, hinsert]
    have hperm : (((List.range s.length).map (· + 1)).insertIdx d 0).Perm
        (List.range (stackFirst first rest).shape.length) := by
      rw [hholds.shape_eq, List.length_cons, List.range_succ_eq_map]
      exact List.perm_insertIdx _ _ (by simpa using hle)
    rw [haxes]
    refine Returns.of_agrees (tryPermute_ok _ hperm ?_)
      ((hholds.permute_back hle).congr fun c hc => rfl)
    rw [hholds.shape_eq, List.length_cons]
    omega

end Svod.Tensor.Nd
