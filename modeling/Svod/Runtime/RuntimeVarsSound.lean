/-
  Svod.Runtime.RuntimeVarsSound

  Atomicity of a rebinding.

  Everything that can refuse an update for its values is checked before the
  first write, so a refused update leaves the plan as it was.  The writing loops
  have one failure of their own, a kernel with fewer values than variable names;
  without it they reach their end, and every position whose name is given a
  value holds it.
-/

import Svod.Runtime.RuntimeVars

namespace Svod.Runtime.RuntimeVars

variable {plan plan' : ExecutionPlan} {kernel : PreparedKernel} {op : PreparedOp}
  {varVals : List (String × ℤ)} {valsMap : Bindings} {name : String}

/-! ## The loop over a mutable list -/

section Loop

variable {α ε : Type} {body : α → Except ε Unit × α} {xs : List α}

theorem forEachMut_ok {u : Unit} (h : (forEachMut body xs).1 = .ok u) :
    (forEachMut body xs).2 = xs.map (fun x => (body x).2) ∧ ∀ x ∈ xs, (body x).1 = .ok () := by
  induction xs with
  | nil => simp [forEachMut]
  | cons x rest ih =>
    rcases hx : body x with ⟨⟨e⟩ | ⟨⟩, x'⟩
    · simp [forEachMut, hx] at h
    · simp only [forEachMut, hx] at h ⊢
      obtain ⟨hmap, hall⟩ := ih h
      refine ⟨by rw [hmap, List.map_cons, hx], ?_⟩
      intro y hy
      rcases List.mem_cons.mp hy with rfl | hy
      · rw [hx]
      · exact hall y hy

/-- A loop whose body never fails does not fail. -/
theorem forEachMut_of_ok (h : ∀ x ∈ xs, (body x).1 = .ok ()) :
    (forEachMut body xs).1 = .ok () := by
  induction xs with
  | nil => rfl
  | cons x rest ih =>
    have hx := h x (by simp)
    rcases hbody : body x with ⟨r, x'⟩
    rw [hbody] at hx
    cases hx
    simp only [forEachMut, hbody]
    exact ih fun y hy => h y (List.mem_cons_of_mem _ hy)

end Loop

/-! ## Listed values -/

theorem lookup_foldl_insert (m : Bindings) (keep : String → Prop) [DecidablePred keep] :
    (varVals.foldl (fun m e => if keep e.1 then m else m.insert e.1 e.2) m).lookup name =
      if keep name then m.lookup name else (listed varVals name).or (m.lookup name) := by
  induction varVals using List.reverseRecOn with
  | nil => simp [listed]
  | append_singleton init e ih =>
    rw [List.foldl_append, List.foldl_cons, List.foldl_nil]
    have hlisted : listed (init ++ [e]) name =
        if e.1 = name then some e.2 else listed init name := by
      simp only [listed, List.reverse_append, List.reverse_cons, List.reverse_nil, List.nil_append,
        List.singleton_append, List.find?_cons]
      by_cases he : e.1 = name <;> simp [he]
    by_cases hkeep : keep e.1
    · rw [if_pos hkeep, ih, hlisted]
      by_cases he : e.1 = name
      · rw [if_pos (he ▸ hkeep), if_pos (he ▸ hkeep)]
      · rw [if_neg he]
    · rw [if_neg hkeep, hlisted]
      by_cases he : e.1 = name
      · subst he
        rw [Finmap.lookup_insert, if_neg hkeep, if_pos rfl, Option.some_or]
      · rw [Finmap.lookup_insert_of_ne _ (Ne.symm he), ih, if_neg he]

theorem lookup_collect : (collect varVals).lookup name = listed varVals name := by
  have h : (varVals.foldl (fun (m : Bindings) e => if False then m else m.insert e.1 e.2)
      ∅).lookup name = _ := lookup_foldl_insert ∅ fun _ => False
  simpa [collect] using h

theorem lookup_recordVarVals (m : Bindings) : (recordVarVals m varVals).lookup name =
    if name = "core_id" then m.lookup name else (listed varVals name).or (m.lookup name) :=
  lookup_foldl_insert m fun n => n = "core_id"

/-! ## One kernel -/

theorem rebindFrom_cons (idx : ℕ) (rest : List String) (vals : List ℤ) :
    kernel.rebindFrom (collect varVals) idx (name :: rest) vals =
      match kernel.rebinding varVals name with
      | some v =>
        if idx < vals.length then
          kernel.rebindFrom (collect varVals) (idx + 1) rest (vals.set idx v)
        else (.error (kernel.missingValue vals), vals)
      | none => kernel.rebindFrom (collect varVals) (idx + 1) rest vals := by
  rw [PreparedKernel.rebindFrom, PreparedKernel.rebinding, lookup_collect]
  split
  · rfl
  · cases listed varVals name with
    | none => rfl
    | some v => rfl

/-- The values after the names from position `idx` on have been gone through. -/
theorem rebindFrom_ok {u : Unit} (names : List String) (idx : ℕ) (vals : List ℤ)
    (h : (kernel.rebindFrom (collect varVals) idx names vals).1 = .ok u) (pos : ℕ) :
    (kernel.rebindFrom (collect varVals) idx names vals).2[pos]? =
      if idx ≤ pos then ((names[pos - idx]?).bind (kernel.rebinding varVals)).or vals[pos]?
      else vals[pos]? := by
  induction names generalizing idx vals with
  | nil => simp [PreparedKernel.rebindFrom]
  | cons name rest ih =>
    rw [rebindFrom_cons] at h ⊢
    -- the positions behind `idx` are those of the rest, and `idx` itself is the head's
    have hat : ∀ {P : Prop}, (pos < idx → P) → (pos = idx → P) →
        (idx + 1 ≤ pos → P) → P := fun hlt heq hgt => by
      rcases Nat.lt_trichotomy pos idx with h' | h' | h'
      · exact hlt h'
      · exact heq h'
      · exact hgt h'
    have htail : idx + 1 ≤ pos → (name :: rest)[pos - idx]? = rest[pos - (idx + 1)]? := by
      intro hle
      rw [show pos - idx = pos - (idx + 1) + 1 by omega, List.getElem?_cons_succ]
    cases hnew : kernel.rebinding varVals name with
    | none =>
      simp only [hnew] at h ⊢
      rw [ih _ _ h]
      refine hat (fun hlt => ?_) (fun heq => ?_) (fun hgt => ?_)
      · rw [if_neg (by omega), if_neg (by omega)]
      · subst heq
        rw [if_neg (by omega), if_pos le_rfl, Nat.sub_self, List.getElem?_cons_zero,
          Option.bind_some, hnew, Option.none_or]
      · rw [if_pos hgt, if_pos (by omega), htail hgt]
    | some v =>
      simp only [hnew] at h ⊢
      split at h
      · rename_i hidx
        rw [if_pos hidx, ih _ _ h]
        refine hat (fun hlt => ?_) (fun heq => ?_) (fun hgt => ?_)
        · rw [if_neg (by omega), if_neg (by omega), List.getElem?_set_ne (by omega)]
        · subst heq
          rw [if_neg (by omega), if_pos le_rfl, Nat.sub_self, List.getElem?_cons_zero,
            Option.bind_some, hnew, Option.some_or, List.getElem?_set_self hidx]
        · rw [if_pos hgt, if_pos (by omega), htail hgt, List.getElem?_set_ne (by omega)]
      · cases h

/-- A kernel with a value for each name has no failing write. -/
theorem rebindFrom_of_le (names : List String) (idx : ℕ) (vals : List ℤ)
    (h : idx + names.length ≤ vals.length) :
    (kernel.rebindFrom (collect varVals) idx names vals).1 = .ok () := by
  induction names generalizing idx vals with
  | nil => rfl
  | cons name rest ih =>
    rw [List.length_cons] at h
    rw [rebindFrom_cons]
    cases kernel.rebinding varVals name with
    | none => exact ih _ _ (by omega)
    | some v =>
      simp only
      rw [if_pos (by omega)]
      exact ih _ _ (by rw [List.length_set]; omega)

theorem rebind_rebound {u : Unit} (h : (kernel.rebind (collect varVals)).1 = .ok u) :
    kernel.Rebound varVals (kernel.rebind (collect varVals)).2 where
  same := rfl
  vals pos := by
    have hpos := rebindFrom_ok kernel.varNames 0 kernel.vals h pos
    rwa [if_pos (Nat.zero_le pos), Nat.sub_zero] at hpos

theorem opRebind_rebound {u : Unit} (h : (op.rebind (collect varVals)).1 = .ok u) :
    op.Rebound varVals (op.rebind (collect varVals)).2 := by
  cases op with
  | compiledProgram kernel => exact rebind_rebound h
  | bufferCopy => rfl
  | customFunction custom => rfl

/-! ## The plan -/

/-- The writing loops of a plan whose kernels have all their values. -/
theorem rebindOps_of_fullyValued (h : plan.FullyValued) :
    (forEachMut (fun op => op.rebind (collect varVals)) plan.ops).1 = .ok () := by
  refine forEachMut_of_ok fun op hop => ?_
  cases op with
  | compiledProgram kernel =>
    exact rebindFrom_of_le kernel.varNames 0 kernel.vals (by rw [Nat.zero_add]; exact h _ hop)
  | bufferCopy => rfl
  | customFunction custom => rfl

theorem rebound_of_ok (hvalid : plan.validateRuntimeVarBounds varVals = .ok ())
    (hok : (plan.updateRuntimeVarVals varVals).1 = .ok ()) :
    plan.Rebound varVals (plan.updateRuntimeVarVals varVals).2 := by
  simp only [ExecutionPlan.updateRuntimeVarVals, hvalid] at hok ⊢
  obtain ⟨hmap, hall⟩ := forEachMut_ok hok
  constructor
  · rw [hmap, List.forall₂_map_right_iff, List.forall₂_same]
    exact fun op hop => opRebind_rebound (hall op hop)
  · exact fun name => lookup_recordVarVals _

/-- An update either takes effect at every position whose name is listed, internal and fixed
    variables apart, or is refused; refused for a value, and in a plan whose kernels have all their
    values refused at all, it leaves the plan as it was. -/
theorem updateRuntimeVarVals_atomic (plan : ExecutionPlan) (varVals : List (String × ℤ)) :
    match plan.updateRuntimeVarVals varVals with
    | (.ok (), plan') => plan.Rebound varVals plan'
    | (.error e, plan') =>
      (plan.validateRuntimeVarBounds varVals = .error e ∨ plan.FullyValued) → plan' = plan := by
  rcases hr : plan.updateRuntimeVarVals varVals with ⟨e | u, plan'⟩
  · intro hwhy
    cases hvalid : plan.validateRuntimeVarBounds varVals with
    | error e' =>
      simp only [ExecutionPlan.updateRuntimeVarVals, hvalid, Prod.mk.injEq] at hr
      exact hr.2.symm
    | ok u =>
      rcases hwhy with hwhy | hfull
      · rw [hvalid] at hwhy
        cases hwhy
      · have hloop : (forEachMut (fun op => op.rebind (collect varVals)) plan.ops).1 = .ok () :=
          rebindOps_of_fullyValued hfull
        simp only [ExecutionPlan.updateRuntimeVarVals, hvalid, hloop, Prod.mk.injEq] at hr
        exact absurd hr.1 (by simp)
  · cases hvalid : plan.validateRuntimeVarBounds varVals with
    | error e' =>
      simp only [ExecutionPlan.updateRuntimeVarVals, hvalid, Prod.mk.injEq] at hr
      exact absurd hr.1 (by simp)
    | ok v =>
      have hok := rebound_of_ok hvalid (by rw [hr])
      rwa [hr] at hok

/-- A plan of one kernel whose only variable was fixed by the schedule. -/
def fixedPlan : ExecutionPlan where
  ops := [.compiledProgram
    { id := 0
      varNames := ["N"]
      vals := [7]
      fixedvars := (∅ : Bindings).insert "N" 7
      runtimeVars := [{ name := "N", minVal := 1, maxVal := 64 }] }]
  runtimeVarVals := ∅

/-- An update that succeeds does not write every position whose name is listed. -/
theorem updateRuntimeVarVals_keepsFixed :
    ¬ ∀ (plan : ExecutionPlan) (varVals : List (String × ℤ)),
      (plan.updateRuntimeVarVals varVals).1 = .ok () →
      ∀ (i pos : ℕ) (kernel kernel' : PreparedKernel),
        plan.ops[i]? = some (.compiledProgram kernel) →
        (plan.updateRuntimeVarVals varVals).2.ops[i]? = some (.compiledProgram kernel') →
        kernel'.vals[pos]? =
          ((kernel.varNames[pos]?).bind (listed varVals)).or kernel.vals[pos]? := by
  intro h
  have hat := h fixedPlan [("N", 42)] (by decide) 0 0 _ _ rfl rfl
  exact absurd hat (by decide)

end Svod.Runtime.RuntimeVars
