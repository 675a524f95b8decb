/-
  Svod.Late.ExpandSound

  Contracting axes and unrolling them again keeps every lane where it was, and so
  does unrolling and contracting, but for values of exactly 64 axes, of which no
  permutation is accepted.
-/

import Svod.Late.Expand

namespace Svod.Late.Expand

open Svod.Lib Svod.Ir

variable {A : Type} [DecidableEq A] {α : Type}

/-! ## Positions -/

/-- Every position below the size is that of one axis. -/
def RangeMap.Dense (ranges : RangeMap A) : Prop :=
  ranges.map Prod.snd = List.range ranges.length

theorem RangeMap.Dense.insert {ranges : RangeMap A} (h : ranges.Dense) (axisId : A) :
    (ranges.insert axisId).Dense := by
  rw [RangeMap.insert]
  split
  · exact h
  · rw [RangeMap.Dense, List.map_append, h, List.length_append, List.length_singleton,
      List.range_succ]
    rfl

theorem buildRangeMap_dense (axisIds : List A) : (buildRangeMap axisIds).Dense := by
  have hfold : ∀ ranges : RangeMap A, ranges.Dense →
      (axisIds.foldl RangeMap.insert ranges).Dense := by
    induction axisIds with
    | nil => exact fun _ h => h
    | cons a axisIds ih => exact fun ranges h => ih _ (h.insert a)
  exact hfold [] rfl

theorem mem_of_lookup {ranges : RangeMap A} {a : A} {p : ℕ} (h : ranges.lookup a = some p) :
    (a, p) ∈ ranges := by
  obtain ⟨front, back, rfl, -⟩ := List.lookup_eq_some_iff.mp h
  exact List.mem_append_right _ List.mem_cons_self

/-- Two axes of one position are one axis. -/
theorem RangeMap.Dense.lookup_inj {ranges : RangeMap A} (h : ranges.Dense) {a b : A} {p : ℕ}
    (ha : ranges.lookup a = some p) (hb : ranges.lookup b = some p) : a = b := by
  have hnodup : (ranges.map Prod.snd).Nodup := h ▸ List.nodup_range
  have := List.inj_on_of_nodup_map hnodup (mem_of_lookup ha) (mem_of_lookup hb) rfl
  exact congrArg Prod.fst this

variable {ctx : RangeMap A} {axes : List (A × ℕ)} {n : ℕ}

/-- The positions of the axes, as both functions collect them. -/
def tailOf (ctx : RangeMap A) (axes : List (A × ℕ)) : List ℕ :=
  axes.map fun a => (ctx.lookup a.1).getD 0

def headOf (ctx : RangeMap A) (axes : List (A × ℕ)) (n : ℕ) : List ℕ :=
  (List.range n).filter (· ∉ tailOf ctx axes)

/-- The order of `n` axes with the selected ones last. -/
def orderOf (ctx : RangeMap A) (axes : List (A × ℕ)) (n : ℕ) : List ℕ :=
  headOf ctx axes n ++ tailOf ctx axes

/-- Distinct axes with a position below `n` each. -/
structure Placed (ctx : RangeMap A) (axes : List (A × ℕ)) (n : ℕ) : Prop where
  dense : ctx.Dense
  distinct : (axes.map Prod.fst).Nodup
  placed : ∀ a ∈ axes, ∃ p < n, ctx.lookup a.1 = some p

theorem Placed.mapM_lookup (h : Placed ctx axes n) :
    (axes.mapM fun a => ctx.lookup a.1) = some (tailOf ctx axes) := by
  have hplaced := h.placed
  clear h
  rw [tailOf]
  induction axes with
  | nil => rfl
  | cons a axes ih =>
    obtain ⟨p, -, hp⟩ := hplaced a List.mem_cons_self
    rw [List.mapM_cons, hp, ih fun b hb => hplaced b (List.mem_cons_of_mem _ hb), List.map_cons, hp]
    rfl

theorem Placed.tail_lt (h : Placed ctx axes n) : ∀ p ∈ tailOf ctx axes, p < n := by
  intro p hp
  obtain ⟨a, ha, rfl⟩ := List.mem_map.mp hp
  obtain ⟨p, hlt, hp⟩ := h.placed a ha
  rwa [hp]

theorem Placed.tail_nodup (h : Placed ctx axes n) : (tailOf ctx axes).Nodup := by
  refine (List.Nodup.of_map _ h.distinct).map_on fun a ha b hb hab => ?_
  obtain ⟨p, -, hp⟩ := h.placed a ha
  obtain ⟨q, -, hq⟩ := h.placed b hb
  rw [hp, hq, Option.getD_some, Option.getD_some] at hab
  subst hab
  exact List.inj_on_of_nodup_map h.distinct ha hb (h.dense.lookup_inj hp hq)

theorem Placed.order_perm (h : Placed ctx axes n) : (orderOf ctx axes n).Perm (List.range n) :=
  filter_append_perm h.tail_nodup h.tail_lt

theorem Placed.length_head (h : Placed ctx axes n) :
    (headOf ctx axes n).length + axes.length = n := by
  have := h.order_perm.length_eq
  rwa [orderOf, List.length_append, List.length_range, tailOf, List.length_map] at this

/-! ## Both functions as a permutation and a reshape -/

/-- A shape in the order with the selected axes last. -/
theorem map_order {shape : List ℕ}
    (hextents : ∀ a ∈ axes, ∃ p, ctx.lookup a.1 = some p ∧ shape[p]? = some a.2) (m : ℕ) :
    (orderOf ctx axes m).map (shape.getD · 0) =
      (headOf ctx axes m).map (shape.getD · 0) ++ axes.map (·.2) := by
  rw [orderOf, List.map_append, tailOf, List.map_map]
  congr 1
  refine List.map_congr_left fun a ha => ?_
  obtain ⟨p, hp, hextent⟩ := hextents a ha
  rw [Function.comp_apply, hp, Option.getD_some, List.getD_eq_getElem?_getD, hextent,
    Option.getD_some]

/-- The checks of `contract_axis` pass. -/
theorem contractAxis_eq {v : NdArray α} (h : Placed ctx axes v.shape.length) (hne : axes ≠ [])
    (hextents : ∀ a ∈ axes, ∃ p, ctx.lookup a.1 = some p ∧ v.shape[p]? = some a.2) :
    contractAxis ctx v axes =
      (Movement.tryPermute v (orderOf ctx axes v.shape.length)).toOption.bind fun permuted =>
        (Movement.tryReshape permuted
          (permuted.shape.take (headOf ctx axes v.shape.length).length ++
            [(permuted.shape.drop (headOf ctx axes v.shape.length).length).prod])).toOption := by
  have hrange : (tailOf ctx axes).any (fun p => decide (v.shape.length ≤ p)) = false := by
    rw [List.any_eq_false]
    exact fun p hp => by simpa using h.tail_lt p hp
  have hfits : (axes.zip (tailOf ctx axes)).any
      (fun p => decide (v.shape.getD p.2 0 ≠ p.1.2)) = false := by
    rw [List.any_eq_false, tailOf, ← List.map_prod_left_eq_zip]
    intro p hp
    obtain ⟨a, ha, rfl⟩ := List.mem_map.mp hp
    obtain ⟨p, hp, hextent⟩ := hextents a ha
    simp [hp, List.getD_eq_getElem?_getD, hextent]
  rw [contractAxis, if_neg (by simpa using hne), h.mapM_lookup]
  simp only [Option.bind_eq_bind, Option.bind_some, hrange, hfits]
  rfl

/-- The checks of `unroll_axis` pass. -/
theorem unrollAxis_eq {u : NdArray α} {front : List ℕ}
    (hshape : u.shape = front ++ [(axes.map (·.2)).prod])
    (h : Placed ctx axes (front ++ axes.map (·.2)).length) (hne : axes ≠ []) :
    unrollAxis ctx u axes =
      (Movement.tryReshape u (front ++ axes.map (·.2))).toOption.bind fun expanded =>
        (Movement.tryPermute expanded
          (invert (orderOf ctx axes (front ++ axes.map (·.2)).length))).toOption := by
  have hperm := h.order_perm
  have hlen : (orderOf ctx axes (front ++ axes.map (·.2)).length).length =
      (front ++ axes.map (·.2)).length := by simpa using hperm.length_eq
  have hpass : ¬ ((orderOf ctx axes (front ++ axes.map (·.2)).length).length ≠
      (front ++ axes.map (·.2)).length ∨
      (orderOf ctx axes (front ++ axes.map (·.2)).length).any (fun p =>
        decide ((orderOf ctx axes (front ++ axes.map (·.2)).length).length ≤ p)) = true) := by
    rw [not_or, not_not, hlen, Bool.not_eq_true, List.any_eq_false]
    exact ⟨rfl, fun p hp => by simpa using Movement.lt_of_perm_range hperm hp⟩
  have hlast : u.shape.getLast? = some (axes.map (·.2)).prod := by
    rw [hshape, List.getLast?_concat]
  have hfront : u.shape.dropLast = front := by rw [hshape, List.dropLast_concat]
  rw [unrollAxis, if_neg (by simpa using hne)]
  simp only [Option.bind_eq_bind, hlast, Option.bind_some, hfront, h.mapM_lookup]
  rw [if_neg (not_not.mpr rfl)]
  congr 1
  funext expanded
  exact if_neg hpass

theorem toOption_ok {ε β : Type*} {x : Except ε β} {b : β} (h : x = .ok b) :
    x.toOption = some b := h ▸ rfl

/-- The contracted value, but for values of 64 axes. -/
theorem contractAxis_spec {v : NdArray α} (h : Placed ctx axes v.shape.length) (hne : axes ≠ [])
    (hextents : ∀ a ∈ axes, ∃ p, ctx.lookup a.1 = some p ∧ v.shape[p]? = some a.2) :
    if v.shape.length = 64 then contractAxis ctx v axes = none
    else ∃ u, contractAxis ctx v axes = some u ∧
      u.Agrees ((v.permute (orderOf ctx axes v.shape.length)).reshape
        ((headOf ctx axes v.shape.length).map (v.shape.getD · 0) ++
          [(axes.map (·.2)).prod])) := by
  rw [contractAxis_eq h hne hextents]
  have hperm := h.order_perm
  split
  · next hrank =>
    obtain ⟨e, he⟩ := Movement.tryPermute_error v (hperm.trans (by rw [hrank])) hrank
    rw [he]
    rfl
  · next hrank =>
    obtain ⟨permuted, hpermuted, hagrees⟩ := Movement.tryPermute_ok v hperm hrank
    have hshape := hagrees.shape_eq.trans (map_order hextents v.shape.length)
    have hlen : ((headOf ctx axes v.shape.length).map (v.shape.getD · 0)).length =
        (headOf ctx axes v.shape.length).length := List.length_map _
    rw [toOption_ok hpermuted, Option.bind_some, hshape, List.take_left' hlen,
      List.drop_left' hlen]
    have hprod : permuted.shape.prod =
        ((headOf ctx axes v.shape.length).map (v.shape.getD · 0) ++
          [(axes.map (·.2)).prod]).prod := by
      rw [hshape, List.prod_append, List.prod_append, List.prod_singleton]
    obtain ⟨u, hu, huagrees⟩ := Movement.tryReshape_ok permuted hprod
    exact ⟨u, toOption_ok hu,
      huagrees.trans (hagrees.reshape (hagrees.shape_eq ▸ hprod))⟩

/-- The unrolled value, but for values of 64 axes. -/
theorem unrollAxis_spec {u : NdArray α} {front : List ℕ}
    (hshape : u.shape = front ++ [(axes.map (·.2)).prod])
    (h : Placed ctx axes (front ++ axes.map (·.2)).length) (hne : axes ≠ []) :
    if (front ++ axes.map (·.2)).length = 64 then unrollAxis ctx u axes = none
    else ∃ v, unrollAxis ctx u axes = some v ∧
      v.Agrees ((u.reshape (front ++ axes.map (·.2))).permute
        (invert (orderOf ctx axes (front ++ axes.map (·.2)).length))) := by
  rw [unrollAxis_eq hshape h hne]
  have hprod : u.shape.prod = (front ++ axes.map (·.2)).prod := by
    rw [hshape, List.prod_append, List.prod_append, List.prod_singleton]
  obtain ⟨expanded, hexpanded, hagrees⟩ := Movement.tryReshape_ok u hprod
  have hrank : expanded.shape.length = (front ++ axes.map (·.2)).length :=
    congrArg List.length hagrees.shape_eq
  have hperm := (inverseOrder_invert h.order_perm).perm_right
  rw [toOption_ok hexpanded, Option.bind_some]
  split
  · next hlen =>
    obtain ⟨e, he⟩ := Movement.tryPermute_error expanded (hperm.trans (by rw [hlen]))
      (hrank.trans hlen)
    rw [he]
    rfl
  · next hlen =>
    obtain ⟨v, hv, hvagrees⟩ := Movement.tryPermute_ok expanded (hperm.trans (by rw [hrank]))
      (hrank.trans_ne hlen)
    have hperm' : (invert (orderOf ctx axes (front ++ axes.map (·.2)).length)).Perm
        (List.range (u.reshape (front ++ axes.map (·.2))).shape.length) := hperm
    exact ⟨v, toOption_ok hv, hvagrees.trans (hagrees.permute hperm')⟩

/-! ## Round trips -/

/-- One function and then the other give the value back. -/
def Restores (f g : NdArray α → Option (NdArray α)) (v : NdArray α) : Prop :=
  ∃ u, f v = some u ∧ ∃ w, g u = some w ∧ w.Agrees v

theorem restores_of_nil (v : NdArray α) :
    Restores (fun t => contractAxis ctx t []) (fun t => unrollAxis ctx t []) v ∧
      Restores (fun t => unrollAxis ctx t []) (fun t => contractAxis ctx t []) v :=
  ⟨⟨v, rfl, v, rfl, .refl v⟩, ⟨v, rfl, v, rfl, .refl v⟩⟩

theorem contract_unroll {v : NdArray α} (h : Placed ctx axes v.shape.length) (hne : axes ≠ [])
    (hextents : ∀ a ∈ axes, ∃ p, ctx.lookup a.1 = some p ∧ v.shape[p]? = some a.2)
    (hrank : v.shape.length ≠ 64) :
    Restores (fun t => contractAxis ctx t axes) (fun t => unrollAxis ctx t axes) v := by
  have hcontract := contractAxis_spec h hne hextents
  rw [if_neg hrank] at hcontract
  obtain ⟨u, hu, hagrees⟩ := hcontract
  have hperm := h.order_perm
  have hmap := map_order hextents v.shape.length
  have hlen : ((headOf ctx axes v.shape.length).map (v.shape.getD · 0) ++
      axes.map (·.2)).length = v.shape.length := by
    rw [← hmap, List.length_map, hperm.length_eq, List.length_range]
  have hunroll := unrollAxis_spec hagrees.shape_eq (hlen.symm ▸ h) hne
  rw [hlen, if_neg hrank, ← hmap] at hunroll
  obtain ⟨w, hw, hwagrees⟩ := hunroll
  refine ⟨u, hu, w, hw, hwagrees.trans ?_⟩
  -- the reshape back to the permuted shape, then the permutation back
  have hprod : (v.permute (orderOf ctx axes v.shape.length)).shape.prod =
      ((headOf ctx axes v.shape.length).map (v.shape.getD · 0) ++
        [(axes.map (·.2)).prod]).prod := by
    rw [NdArray.permute, hmap, List.prod_append, List.prod_append, List.prod_singleton]
  have hreshaped := (hagrees.reshape hprod.symm).trans
    ((v.permute (orderOf ctx axes v.shape.length)).reshape_reshape hprod)
  have hinv := inverseOrder_invert hperm
  have hrank' : (v.permute (orderOf ctx axes v.shape.length)).shape.length = v.shape.length := by
    rw [NdArray.permute, List.length_map, hinv.length_left]
  exact (hreshaped.permute (hrank'.symm ▸ hinv.perm_right)).trans (v.permute_permute hinv hperm)

theorem unroll_contract {u : NdArray α} {front : List ℕ}
    (hshape : u.shape = front ++ [(axes.map (·.2)).prod])
    (h : Placed ctx axes (front ++ axes.map (·.2)).length) (hne : axes ≠ [])
    (hrank : (front ++ axes.map (·.2)).length ≠ 64) :
    Restores (fun t => unrollAxis ctx t axes) (fun t => contractAxis ctx t axes) u := by
  have hunroll := unrollAxis_spec hshape h hne
  rw [if_neg hrank] at hunroll
  obtain ⟨v, hv, hagrees⟩ := hunroll
  have hperm := h.order_perm
  have hinv := invert_inverseOrder hperm
  have hv_shape : v.shape = (invert (orderOf ctx axes (front ++ axes.map (·.2)).length)).map
      ((front ++ axes.map (·.2)).getD · 0) := hagrees.shape_eq
  have hv_rank : v.shape.length = (front ++ axes.map (·.2)).length := by
    rw [hv_shape, List.length_map, hinv.length_left]
  -- in the order with the selected axes last, the shape is the flat axis taken apart
  have hmap : (orderOf ctx axes (front ++ axes.map (·.2)).length).map (v.shape.getD · 0) =
      front ++ axes.map (·.2) := by
    rw [hv_shape]
    exact hinv.map_map rfl
  have hhead : ((headOf ctx axes (front ++ axes.map (·.2)).length).map
      (v.shape.getD · 0)).length = front.length := by
    have hcount := h.length_head
    have hlen : (front ++ axes.map (·.2)).length = front.length + axes.length := by
      rw [List.length_append, List.length_map]
    rw [List.length_map]
    omega
  have hsplit := hmap
  rw [orderOf, List.map_append] at hsplit
  obtain ⟨hfront, htail⟩ := List.append_inj hsplit hhead
  have hextents : ∀ a ∈ axes, ∃ p, ctx.lookup a.1 = some p ∧ v.shape[p]? = some a.2 := by
    intro a ha
    obtain ⟨p, hlt, hp⟩ := h.placed a ha
    rw [tailOf, List.map_map] at htail
    have hget := List.map_inj_left.mp htail a ha
    rw [Function.comp_apply, hp, Option.getD_some,
      List.getD_eq_getElem _ _ (hv_rank ▸ hlt)] at hget
    exact ⟨p, hp, by rw [List.getElem?_eq_getElem (hv_rank ▸ hlt), hget]⟩
  have hcontract := contractAxis_spec (v := v) (hv_rank.symm ▸ h) hne hextents
  rw [hv_rank, if_neg hrank, hfront] at hcontract
  obtain ⟨w, hw, hwagrees⟩ := hcontract
  refine ⟨v, hv, w, hw, hwagrees.trans ?_⟩
  -- the permutation back to the expanded shape, then the reshape back
  have hpermuted : (v.permute (orderOf ctx axes (front ++ axes.map (·.2)).length)).Agrees
      (u.reshape (front ++ axes.map (·.2))) := by
    have hback := (u.reshape (front ++ axes.map (·.2))).permute_permute hinv
      (inverseOrder_invert hperm).perm_right
    refine (hagrees.permute ?_).trans hback
    rw [← hagrees.shape_eq, hv_rank]
    exact hperm
  have hprod : u.shape.prod = (front ++ axes.map (·.2)).prod := by
    rw [hshape, List.prod_append, List.prod_append, List.prod_singleton]
  rw [← hshape]
  exact (hpermuted.reshape hprod.symm).trans (u.reshape_reshape hprod)

/-- Contracting and unrolling are inverse on the values that are not of 64 axes. -/
theorem contract_unroll_inverse_iff (axisIds : List A) (axes : List (A × ℕ))
    (hdistinct : (axes.map Prod.fst).Nodup) :
    (∀ v : NdArray α,
      (∀ a ∈ axes, ∃ p, (buildRangeMap axisIds).lookup a.1 = some p ∧ v.shape[p]? = some a.2) →
      (Restores (fun t => contractAxis (buildRangeMap axisIds) t axes)
          (fun t => unrollAxis (buildRangeMap axisIds) t axes) v ↔
        axes = [] ∨ v.shape.length ≠ 64)) ∧
    ∀ (u : NdArray α) (front : List ℕ), u.shape = front ++ [(axes.map (·.2)).prod] →
      (∀ a ∈ axes, ∃ p < front.length + axes.length,
        (buildRangeMap axisIds).lookup a.1 = some p) →
      (Restores (fun t => unrollAxis (buildRangeMap axisIds) t axes)
          (fun t => contractAxis (buildRangeMap axisIds) t axes) u ↔
        axes = [] ∨ front.length + axes.length ≠ 64) := by
  have hdense := buildRangeMap_dense axisIds
  refine ⟨fun v hextents => ?_, fun u front hshape hplaced => ?_⟩
  · by_cases hne : axes = []
    · subst hne
      exact iff_of_true (restores_of_nil v).1 (.inl rfl)
    · have hplaced : Placed (buildRangeMap axisIds) axes v.shape.length := by
        refine ⟨hdense, hdistinct, fun a ha => ?_⟩
        obtain ⟨p, hp, hextent⟩ := hextents a ha
        exact ⟨p, (List.getElem?_eq_some_iff.mp hextent).1, hp⟩
      rw [or_iff_right hne]
      refine ⟨fun ⟨u, hu, _⟩ hrank => ?_, contract_unroll hplaced hne hextents⟩
      have hnone := contractAxis_spec hplaced hne hextents
      rw [if_pos hrank] at hnone
      simp only [hnone] at hu
      cases hu
  · by_cases hne : axes = []
    · subst hne
      exact iff_of_true (restores_of_nil u).2 (.inl rfl)
    · have hlen : (front ++ axes.map (·.2)).length = front.length + axes.length := by
        rw [List.length_append, List.length_map]
      have hplaced : Placed (buildRangeMap axisIds) axes (front ++ axes.map (·.2)).length :=
        ⟨hdense, hdistinct, hlen ▸ hplaced⟩
      rw [or_iff_right hne, ← hlen]
      refine ⟨fun ⟨v, hv, _⟩ hrank => ?_, unroll_contract hshape hplaced hne⟩
      have hnone := unrollAxis_spec hshape hplaced hne
      rw [if_pos hrank] at hnone
      simp only [hnone] at hv
      cases hv

/-- A value of 64 axes of one lane: no permutation of it is accepted. -/
theorem contract_unroll_fails_sixtyFour :
    (∀ a ∈ [("a", 1)], ∃ p, (buildRangeMap ["a"]).lookup a.1 = some p ∧
      (List.replicate 64 1)[p]? = some a.2) ∧
    ¬ Restores (fun t => contractAxis (buildRangeMap ["a"]) t [("a", 1)])
      (fun t => unrollAxis (buildRangeMap ["a"]) t [("a", 1)])
      (⟨List.replicate 64 1, fun _ => 7⟩ : NdArray ℕ) := by
  have hextents : ∀ a ∈ [("a", 1)], ∃ p, (buildRangeMap ["a"]).lookup a.1 = some p ∧
      (List.replicate 64 1)[p]? = some a.2 := by
    intro a ha
    obtain rfl := List.mem_singleton.mp ha
    exact ⟨0, by decide, by decide⟩
  have hplaced : Placed (buildRangeMap ["a"]) [("a", 1)] (List.replicate 64 1).length :=
    ⟨buildRangeMap_dense _, by decide, fun a ha => by
      obtain rfl := List.mem_singleton.mp ha
      exact ⟨0, by decide, by decide⟩⟩
  refine ⟨hextents, fun ⟨u, hu, _⟩ => ?_⟩
  have hnone := contractAxis_spec (v := (⟨List.replicate 64 1, fun _ => 7⟩ : NdArray ℕ)) hplaced
    (by decide) hextents
  rw [if_pos (by decide)] at hnone
  simp only [hnone] at hu
  cases hu

/-- Three axes of different sizes, the outer two contracted in the other order. -/
theorem contract_unroll_inverse_iff_asymmetric :
    Restores (fun t => contractAxis (buildRangeMap ["a", "b", "c"]) t [("c", 5), ("a", 2)])
      (fun t => unrollAxis (buildRangeMap ["a", "b", "c"]) t [("c", 5), ("a", 2)])
      (⟨[2, 3, 5], fun c => c⟩ : NdArray (List ℕ)) := by
  have h := (contract_unroll_inverse_iff (α := List ℕ) ["a", "b", "c"] [("c", 5), ("a", 2)]
    (by decide)).1 ⟨[2, 3, 5], fun c => c⟩
  refine (h fun a ha => ?_).mpr (.inr (by decide))
  rcases List.mem_cons.mp ha with rfl | ha
  · exact ⟨2, by decide, by decide⟩
  · obtain rfl := List.mem_singleton.mp ha
    exact ⟨0, by decide, by decide⟩

end Svod.Late.Expand
